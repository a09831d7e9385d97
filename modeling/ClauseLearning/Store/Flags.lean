/-!
# Flags of a clause

What the solver notes about a clause beside its literals, packed into one word: six single bits, and
two bits which count how recently the clause was used.

* `Flags` — the flags.
* `Flags.toWord`, `Flags.ofWord` — the packed form, with `ofWord_toWord`.
-/

namespace ClauseLearning

/-- Notes about a stored clause. -/
structure Flags where
  /-- The clause follows from others, and may be dropped. -/
  redundant : Bool := false
  /-- The clause is never dropped in a reduction. -/
  keep : Bool := false
  /-- The clause is the reason of an assigned literal. -/
  reason : Bool := false
  /-- How many further reductions the clause survives for having been used. -/
  used : Nat := 0
  /-- The clause was shortened where it is. -/
  shrunken : Bool := false
  /-- The clause is to be dropped by the next sweep. -/
  garbage : Bool := false
  /-- The clause was derived during propagation. -/
  hyper : Bool := false
deriving DecidableEq, Repr, Inhabited

namespace Flags

/-- The greatest count of uses that is kept. -/
def maxUsed : Nat := 2

/-- The flags of a new clause. -/
def fresh (redundant : Bool) : Flags := { redundant }

/-- The word of some flags.  A count of uses above the greatest is stored as the greatest. -/
def toWord (f : Flags) : Nat :=
  f.redundant.toNat + 2 * f.keep.toNat + 4 * f.reason.toNat + 8 * f.shrunken.toNat
    + 16 * f.garbage.toNat + 32 * f.hyper.toNat + 256 * min f.used maxUsed

/-- The flags of a word.  Other bits of the word have no meaning. -/
def ofWord (w : Nat) : Flags :=
  { redundant := w % 2 == 1
    keep := w / 2 % 2 == 1
    reason := w / 4 % 2 == 1
    used := w / 256 % 4
    shrunken := w / 8 % 2 == 1
    garbage := w / 16 % 2 == 1
    hyper := w / 32 % 2 == 1 }

/-- Packing loses nothing but uses above the greatest count. -/
theorem ofWord_toWord (f : Flags) : ofWord f.toWord = { f with used := min f.used maxUsed } := by
  obtain ⟨r, k, a, u, s, g, h⟩ := f
  have hu : min u maxUsed < 3 := by simp only [maxUsed]; omega
  generalize hm : min u maxUsed = m at hu
  have : m = 0 ∨ m = 1 ∨ m = 2 := by omega
  simp only [ofWord, toWord, hm]
  cases r <;> cases k <;> cases a <;> cases s <;> cases g <;> cases h <;>
    rcases this with rfl | rfl | rfl <;> rfl

end Flags

end ClauseLearning
