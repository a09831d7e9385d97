import ClauseLearning.Store.Basic

/-!
# Sweeps of the clause store

A sweep visits every clause from some position on, in order, and keeps or drops it.  The clauses
that are kept close up, padding disappears, and a new epoch begins.  All of this is done in place: a
clause that is kept is cut where it is, and then copied to the end of those that were kept before,
over words that were visited.  Clauses before the position do not move, and their references can be
carried over.

* `Store.Visitor`, `Store.SweepRule` — what is done at the visit of a clause.
* `Store.settleAt`, `Store.copyWords` — a clause that is kept is cut, and copied.
* `Store.compact`, `Store.sweep` — the store after a sweep.
* `Store.Relocation`, `Store.Relocation.retag` — which references can be carried over.
-/

namespace ClauseLearning

namespace Store

/-- The start of a sweep, and the epochs before and after it. -/
structure Relocation where
  /-- The position from which clauses may have moved. -/
  start : Nat
  /-- The epoch before. -/
  oldEpoch : Nat
  /-- The epoch after. -/
  newEpoch : Nat
deriving DecidableEq, Repr, Inhabited

/-- The reference in the new epoch to a clause before the start of the sweep, given a reference of
the old epoch. -/
def Relocation.retag (t : Relocation) (r : Reference) : Option Reference :=
  if r.epoch = t.oldEpoch ∧ r.offset < t.start then some { r with epoch := t.newEpoch } else none

/-- The epoch after another.  Epochs are words of 32 bits and start over. -/
def nextEpoch (e : Nat) : Nat := lowWord (e + 1)

/-! ## Visits -/

/-- What is done at the visit of a clause, with a state that is handed from one visit to the next.
The clause may be written to; then so many of its first literals are kept, or it is dropped.  The two
references are the one the clause has, and the one it will have if it is kept. -/
abbrev Visitor (σ : Type) := σ → Reference → Reference → Record → Option (Record × Nat) × σ

/-- A visitor that says which clause is to be left of the one that it visits. -/
abbrev SweepRule (σ : Type) := σ → Reference → Reference → Record → Option Record × σ

/-- The part of a clause that is kept when it is cut to its first `n` literals. -/
def Record.take (c : Record) (n : Nat) : Record := { c with literals := c.literals.take n }

/-- Writes the clause that is to be left over the one that is visited, and keeps its literals. -/
def SweepRule.visitor {σ : Type} (rule : SweepRule σ) : Visitor σ := fun x old new c =>
  match rule x old new c with
  | (none, x) => (none, x)
  | (some c, x) => (some (c, c.literals.size), x)

/-- Writes a clause over the one at an offset: all that is noted of it but the size, and its literals
over the first ones. -/
def overwriteAt (s : Store) (o : Nat) (c : Record) : Store :=
  let s := s.setGlueAt o c.glue
  let s := s.setFlagsAt o c.flags
  let s := s.setSearchedAt o c.searched
  s.setLiteralsAt o 0 c.literals.toList

/-- Cuts the clause at an offset to its first `n` literals, where what comes after them is given up.
Any note of having been shortened is gone, and the search for a watch resumes within the clause. -/
def settleAt (s : Store) (o n : Nat) : Store :=
  let s := s.setWord o n
  let s := if n ≤ s.searchedAt o then s.setSearchedAt o 2 else s
  let f := s.flagsAt o
  s.setFlagsAt o { f with shrunken := false }

/-- Copies `n` words, the first one first.  The place that they are copied to may overlap with where
they are, if it is not after it. -/
def copyWords (s : Store) (source destination : Nat) : Nat → Store
  | 0 => s
  | n + 1 => (s.setWord destination (s.word source)).copyWords (source + 1) (destination + 1) n

/-- Keeps `n` literals of the clause at an offset, after a clause was written over it, and copies it
to where it is to be. -/
def keepAt (s : Store) (source destination : Nat) (c : Record) (n : Nat) : Store :=
  ((s.overwriteAt source c).settleAt source n).copyWords source destination (headerWords + n)

@[simp] theorem size_overwriteAt (s : Store) (o : Nat) (c : Record) :
    (s.overwriteAt o c).words.size = s.words.size := by
  simp only [overwriteAt, setGlueAt, setFlagsAt, setSearchedAt, size_setLiteralsAt, size_setWord]

@[simp] theorem size_settleAt (s : Store) (o n : Nat) : (s.settleAt o n).words.size = s.words.size := by
  simp only [settleAt, setFlagsAt, setSearchedAt]
  split <;> simp only [size_setWord]

@[simp] theorem size_copyWords (s : Store) (source destination n : Nat) :
    (s.copyWords source destination n).words.size = s.words.size := by
  induction n generalizing s source destination with
  | zero => rfl
  | succ n ih => rw [copyWords, ih, size_setWord]

@[simp] theorem size_keepAt (s : Store) (source destination : Nat) (c : Record) (n : Nat) :
    (s.keepAt source destination c n).words.size = s.words.size := by
  rw [keepAt, size_copyWords, size_settleAt, size_overwriteAt]

/-! ## The sweep -/

/-- Visits the clauses from the position `source` on, and moves those that are kept to `destination`
and after it.  The answer has the end of those that were kept.  At least three literals of a clause
are kept, and at most those it has. -/
def compactFrom {σ : Type} (s : Store) (visit : Visitor σ) (source destination : Nat) (acc : σ) :
    Store × Nat × σ :=
  if source < s.words.size then
    if s.word source = padding then s.compactFrom visit (source + 1) destination acc
    else
      let size := s.sizeAt source
      let old : Reference := { offset := source, epoch := s.epoch }
      let new : Reference := { offset := destination, epoch := nextEpoch s.epoch }
      let next := source + headerWords + size
      match visit acc old new (s.recordAt source) with
      | (none, acc) => s.compactFrom visit next destination acc
      | (some (c, n), acc) =>
        let n := max 3 (min n size)
        (s.keepAt source destination c n).compactFrom visit next (destination + headerWords + n) acc
  else (s, destination, acc)
termination_by s.words.size - source
decreasing_by
  · omega
  · simp only [headerWords]; omega
  · simp only [size_keepAt, headerWords]; omega

/-- Sweeps the store from a position on.  The words after the clauses that are kept are given up, and
the count of garbage is taken afresh. -/
def compact {σ : Type} (s : Store) (start : Nat) (visit : Visitor σ) (acc : σ) :
    Store × Relocation × σ :=
  let start := min start s.words.size
  let relocation := { start := start, oldEpoch := s.epoch, newEpoch := nextEpoch s.epoch }
  let (swept, stop, acc) := s.compactFrom visit start start acc
  let swept : Store :=
    { words := swept.words.take stop, epoch := relocation.newEpoch, garbage := 0 }
  ({ swept with garbage := swept.garbageFrom 0 }, relocation, acc)

/-- Sweeps the store from a position on by a rule. -/
def sweep {σ : Type} (s : Store) (start : Nat) (rule : SweepRule σ) (acc : σ) :
    Store × Relocation × σ :=
  s.compact start rule.visitor acc

end Store

end ClauseLearning
