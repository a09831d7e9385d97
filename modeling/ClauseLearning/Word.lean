/-!
# The bounds of machine words

Counts and limits are natural numbers.  Where a number is kept in a word, these are the greatest
numbers that it can hold.

* `greatestWord` — for 32 bits.
* `greatestLong` — for 64 bits.
* `lowWord` — what is left of a number in a word of 32 bits: all of it, if it fits (`lowWord_eq_self`).
* `capped` — a number, or the greatest of 64 bits where it does not fit.
-/

namespace ClauseLearning

/-- The greatest number of 32 bits. -/
def greatestWord : Nat := 4294967295

/-- The greatest number of 64 bits. -/
def greatestLong : Nat := 18446744073709551615

/-- The low 32 bits of a number: what a word keeps of it. -/
def lowWord (n : Nat) : Nat := n % (greatestWord + 1)

/-- A word keeps all of a number that fits. -/
theorem lowWord_eq_self {n : Nat} (h : n ≤ greatestWord) : lowWord n = n :=
  Nat.mod_eq_of_lt (Nat.lt_succ_of_le h)

/-- A number that stays at the greatest of 64 bits instead of exceeding it. -/
def capped (n : Nat) : Nat := min n greatestLong

end ClauseLearning
