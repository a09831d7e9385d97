import ClauseLearning.Fault

/-!
# External and internal numbering

Outside of a solver a literal is a nonzero integer, whose magnitude is its external variable.
Inside, variables are numbered from zero.  An external variable is *imported* when it is first
mentioned, and with it every smaller one, so that the internal variable is one less than the
external one.  A variable may be *eliminated* later; its value is then not found by the search, and
what others say of it is ignored.

* `Numbering` — which variables are known, and which of them are eliminated.
* `Numbering.import?` — the literal of an external literal, known from then on.
* `Numbering.lookup?` — the literal of an external literal, if it is known and not eliminated.
* `Numbering.toExternal` — the external literal of a literal.
-/

namespace ClauseLearning

/-- The known variables. -/
structure Numbering where
  /-- Whether each known variable is eliminated. -/
  eliminated : Array Bool := #[]
deriving DecidableEq, Repr, Inhabited

namespace Numbering

/-- The greatest external variable. -/
def greatestExternal : Nat := 268435455

/-- The count of known variables, which is also the greatest external variable known. -/
def size (m : Numbering) : Nat := m.eliminated.size

/-- The literal of a nonzero external literal. -/
def toLiteral (e : Int) : Literal := .make (e.natAbs - 1) (0 < e)

/-- The external literal of a literal. -/
def toExternal (l : Literal) : Int :=
  if l.positive then (l.var : Int) + 1 else -((l.var : Int) + 1)

/-- Makes every external variable up to `n` known. -/
def growTo (m : Numbering) (n : Nat) : Numbering :=
  ⟨m.eliminated ++ Array.replicate (n - m.eliminated.size) false⟩

/-- Whether an external literal is one at all: zero is not, and magnitudes are bounded. -/
def check (e : Int) : Except Fault Unit :=
  if e = 0 then .error .zeroLiteral
  else if greatestExternal < e.natAbs then .error (.variableLimit e)
  else .ok ()

/-- The literal of an external literal.  Its variable and all before it are known from then on. -/
def import? (m : Numbering) (e : Int) : Except Fault (Literal × Numbering) :=
  (check e).map fun _ => (toLiteral e, m.growTo e.natAbs)

/-- Whether an external literal is on a known variable. -/
def knows (m : Numbering) (e : Int) : Bool := 0 < e.natAbs && e.natAbs ≤ m.size

/-- Whether a variable is eliminated. -/
def isEliminated (m : Numbering) (v : Nat) : Bool := m.eliminated.getD v false

/-- The literal of an external literal on a known variable that is not eliminated. -/
def lookup? (m : Numbering) (e : Int) : Option Literal :=
  if m.knows e && !m.isEliminated (e.natAbs - 1) then some (toLiteral e) else none

/-- Eliminates a variable. -/
def eliminate (m : Numbering) (v : Nat) : Numbering := ⟨m.eliminated.setIfInBounds v true⟩

@[simp] theorem toExternal_toLiteral {e : Int} (h : e ≠ 0) : toExternal (toLiteral e) = e := by
  simp only [toExternal, toLiteral, Literal.positive_make, Literal.var_make, decide_eq_true_eq]
  split <;> omega

@[simp] theorem toLiteral_toExternal (l : Literal) : toLiteral (toExternal l) = l := by
  rw [← Literal.make_var_positive l]
  simp only [toExternal, toLiteral, Literal.positive_make, Literal.var_make]
  cases l.positive
  · have : ¬ (0 : Int) < -((l.var : Int) + 1) := by omega
    simp only [Bool.false_eq_true, if_false, this, decide_false]
    congr 1
  · have : (0 : Int) < (l.var : Int) + 1 := by omega
    simp only [if_true, this, decide_true]
    congr 1

end Numbering

end ClauseLearning
