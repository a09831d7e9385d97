/-!
# The Luby sequence

The sequence 1, 1, 2, 1, 1, 2, 4, 1, 1, 2, 1, 1, 2, 4, 8, … in which each block is the previous
block twice and then the next power of two.  It is produced by iterating a pair: the current
element, and the number of elements equal to one up to it.  The element doubles until it equals
the lowest set bit of that number, and then a further one begins.

* `Luby` — the pair, starting at the first element.
* `Luby.next?` — the current element and the pair of the next one.
* `Luby.take` — the first elements.
* `luby` — the sequence by recursion over its blocks.
-/

namespace ClauseLearning

/-- A position in the Luby sequence, in words of 64 bits. -/
structure Luby where
  /-- How many elements up to the current one are the first of a run of doublings. -/
  run : UInt64 := 1
  /-- The current element. -/
  value : UInt64 := 1
deriving DecidableEq, Repr, Inhabited

namespace Luby

/-- The greatest power of two that divides a nonzero word. -/
def lowestBit (u : UInt64) : UInt64 := u &&& (0 - u)

/-- The next position, or `none` where a word would overflow. -/
def advance? (l : Luby) : Option Luby :=
  if lowestBit l.run = l.value then
    if l.run = 18446744073709551615 then none else some { run := l.run + 1, value := 1 }
  else
    if 9223372036854775808 ≤ l.value then none else some { l with value := l.value + l.value }

/-- The current element, and the position after it. -/
def next? (l : Luby) : Option (UInt64 × Luby) :=
  l.advance?.map fun l' => (l.value, l')

/-- The next `n` elements, and the position after them. -/
def take : Nat → Luby → List UInt64 × Luby
  | 0, l => ([], l)
  | n + 1, l =>
    match l.next? with
    | none => ([], l)
    | some (v, l') =>
      let (vs, l'') := take n l'
      (v :: vs, l'')

end Luby

/-- The greatest power of two that is at most `n`, for a positive `n`. -/
def powerBelow (n : Nat) : Nat := 1 <<< n.log2

/-- The `n`-th element of the Luby sequence, counted from one: `2 ^ (k - 1)` at the end `2 ^ k - 1`
of a block, and inside a block the element at the same distance into the sequence. -/
def luby (n : Nat) : Nat :=
  if n = 0 then 0
  else if n + 1 = 2 * powerBelow n then powerBelow n
  else luby (n + 1 - powerBelow n)
termination_by n
decreasing_by
  have h : powerBelow n ≠ 1 := by
    intro h
    rename_i h₀ h₁
    have : n < 2 * powerBelow n := by
      have := Nat.lt_log2_self (n := n)
      simp only [powerBelow, Nat.one_shiftLeft]
      rw [Nat.pow_succ] at this
      omega
    rw [h] at this h₁
    omega
  have : 0 < powerBelow n := by
    rw [powerBelow, Nat.one_shiftLeft]
    exact Nat.two_pow_pos _
  omega

end ClauseLearning
