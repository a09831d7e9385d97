import ClauseLearning.Sorting

/-!
# Literals

A variable is a natural number, and a literal is a variable with a polarity.  The two are packed
into one number, the *code* of the literal: twice the variable, plus one if the literal is
negative.  So negation flips the lowest bit, and a table with one entry for each literal is an
array indexed by codes.

* `Literal` — a literal, by its code.
* `Literal.make` — the literal of a variable and a polarity.
* `Literal.var`, `Literal.positive` — the variable and the polarity of a literal.
* `Literal.negate` — the opposite literal, with `negate_negate`, `var_negate` and `positive_negate`.
* `Literal.invalid` — the code that stands for "no literal" where one is asked for.

Outside of a solver a literal is a nonzero integer, `v` or `-v`.  The correspondence between the
two is the business of `ClauseLearning.Numbering`.
-/

namespace ClauseLearning

/-- A variable with a polarity, as one number. -/
@[ext] structure Literal where
  /-- Twice the variable, plus one for the negative literal. -/
  code : Nat
deriving DecidableEq, Repr, Inhabited, Hashable

namespace Literal

/-- Codes are words of 32 bits, and the greatest of them is the code of no literal. -/
def invalid : Literal := ⟨4294967295⟩

/-- The literal on `v` which is true when `v` has the value `polarity`. -/
def make (v : Nat) (polarity : Bool) : Literal :=
  ⟨2 * v + if polarity then 0 else 1⟩

/-- The variable of a literal. -/
def var (l : Literal) : Nat := l.code / 2

/-- Whether a literal is the positive literal of its variable. -/
def positive (l : Literal) : Bool := l.code % 2 == 0

/-- The literal on the same variable with the opposite polarity. -/
def negate (l : Literal) : Literal :=
  ⟨if l.code % 2 = 0 then l.code + 1 else l.code - 1⟩

instance : Neg Literal := ⟨negate⟩

@[simp] theorem var_make (v : Nat) (p : Bool) : (make v p).var = v := by
  cases p
  · change (2 * v + 1) / 2 = v; omega
  · change (2 * v + 0) / 2 = v; omega

@[simp] theorem positive_make (v : Nat) (p : Bool) : (make v p).positive = p := by
  cases p
  · have : (2 * v + 1) % 2 = 1 := by omega
    simp [make, positive, this]
  · have : (2 * v + 0) % 2 = 0 := by omega
    simp [make, positive]

/-- A literal is determined by its variable and its polarity. -/
@[simp] theorem make_var_positive (l : Literal) : make l.var l.positive = l := by
  ext
  by_cases h : l.code % 2 = 0
  · simp only [make, var, positive, h, beq_self_eq_true, if_true]; omega
  · have : (l.code % 2 == 0) = false := by simpa using h
    simp only [make, var, positive, this]
    simp only [Bool.false_eq_true, if_false]
    omega

@[simp] theorem var_negate (l : Literal) : (-l).var = l.var := by
  change (if l.code % 2 = 0 then l.code + 1 else l.code - 1) / 2 = l.code / 2
  split <;> omega

@[simp] theorem positive_negate (l : Literal) : (-l).positive = !l.positive := by
  change (negate l).positive = !l.positive
  by_cases h : l.code % 2 = 0
  · simp only [negate, positive, h, if_true]
    have : (l.code + 1) % 2 = 1 := by omega
    simp [this]
  · simp only [negate, positive, h, if_false]
    have h₁ : (l.code - 1) % 2 = 0 := by omega
    have h₂ : l.code % 2 = 1 := by omega
    simp [h₁, h₂]

@[simp] theorem negate_negate (l : Literal) : -(-l) = l := by
  rw [← make_var_positive (- -l), ← make_var_positive l]
  simp

/-- Whether `l` comes before `m` in the order of codes. -/
def before (l m : Literal) : Bool := l.code < m.code

/-- The text of a literal: its variable, after a minus sign if the literal is negative. -/
def text (l : Literal) : String :=
  if l = invalid then "⊥" else (if l.positive then "" else "-") ++ toString l.var

instance : ToString Literal := ⟨text⟩

/-- The texts of some literals, with a space between one and the next. -/
def textOfList (ls : List Literal) : String :=
  " ".intercalate (ls.map text)

/-- The literals in ascending order of their codes. -/
def sorted (ls : List Literal) : List Literal :=
  sortBy (fun a b => a.code ≤ b.code) ls

end Literal

end ClauseLearning
