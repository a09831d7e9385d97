import ClauseLearning.Store.Reference
import ClauseLearning.Value

/-!
# The assignment

The value of every literal, and for every variable a record of the level on which it was assigned
and why.  The value of a literal and of its negation are written together, so either is one lookup.
The record of a variable is meaningful only while the variable is assigned.

* `Reason` — why a variable has its value.
* `Assigned` — the record of a variable, with the marks that analysis of a conflict uses.
* `Assignment` — the values and the records.
* `Assignment.fixed` — the value of a literal as far as it is settled for good.
-/

namespace ClauseLearning

/-- Why a literal is true. -/
inductive Reason where
  /-- It was decided. -/
  | decision
  /-- It is a clause of its own at the root. -/
  | unit
  /-- The other literal of a binary clause is false. -/
  | binary (other : Literal)
  /-- All other literals of a stored clause are false. -/
  | large (r : Reference)
deriving DecidableEq, Repr, Inhabited

/-- The record of a variable. -/
structure Assigned where
  /-- The level on which the variable was assigned. -/
  level : Nat := 0
  /-- Why it was assigned. -/
  reason : Reason := .decision
  /-- The variable was seen in the conflict under analysis. -/
  analyzed : Bool := false
  /-- The variable was found to follow from the learnt clause. -/
  removable : Bool := false
  /-- The variable was found not to follow from the learnt clause. -/
  poisoned : Bool := false
deriving DecidableEq, Repr, Inhabited

/-- Values of literals and records of variables. -/
structure Assignment where
  /-- The value of each literal, by its code. -/
  values : Array Value := #[]
  /-- The record of each variable. -/
  records : Array Assigned := #[]
deriving Repr, Inhabited

namespace Assignment

/-- The count of variables. -/
def size (a : Assignment) : Nat := a.records.size

/-- Adds variables, none of them assigned, until there are `n`. -/
def growTo (a : Assignment) (n : Nat) : Assignment :=
  if a.size < n then
    { values := a.values ++ Array.replicate (2 * n - a.values.size) .unassigned
      records := a.records ++ Array.replicate (n - a.records.size) {} }
  else a

/-- The value of a literal. -/
def value (a : Assignment) (l : Literal) : Value := a.values.getD l.code .unassigned

/-- The value of a variable. -/
def valueOf (a : Assignment) (v : Nat) : Value := a.value (.make v true)

/-- The record of a variable. -/
def record (a : Assignment) (v : Nat) : Assigned := a.records.getD v {}

/-- The level on which the variable of a literal was assigned. -/
def level (a : Assignment) (l : Literal) : Nat := (a.record l.var).level

/-- Why the variable of a literal was assigned. -/
def reason (a : Assignment) (l : Literal) : Reason := (a.record l.var).reason

/-- The value of a literal if it was assigned at the root. -/
def fixed (a : Assignment) (l : Literal) : Value :=
  if (a.value l).isAssigned && a.level l == 0 then a.value l else .unassigned

/-- Writes the value of a literal, and the opposite value of its negation. -/
def write (a : Assignment) (l : Literal) (v : Value) : Assignment :=
  { a with values := (a.values.setIfInBounds l.code v).setIfInBounds (-l).code (-v) }

/-- Makes a literal true, on a level and for a reason.  The marks of its variable are cleared. -/
def set (a : Assignment) (l : Literal) (level : Nat) (reason : Reason) : Assignment :=
  let a := a.write l .tt
  { a with records := a.records.setIfInBounds l.var { level, reason } }

/-- Takes the value of a literal back.  The record of its variable stays as it is. -/
def unset (a : Assignment) (l : Literal) : Assignment := a.write l .unassigned

/-- Changes the record of a variable. -/
def modify (a : Assignment) (v : Nat) (f : Assigned → Assigned) : Assignment :=
  { a with records := a.records.modify v f }

/-- Replaces the reason of the variable of a literal. -/
def setReason (a : Assignment) (l : Literal) (reason : Reason) : Assignment :=
  a.modify l.var fun r => { r with reason }

end Assignment

end ClauseLearning
