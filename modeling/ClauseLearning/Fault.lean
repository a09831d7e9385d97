import ClauseLearning.Store.Reference

/-!
# Faults

What may go wrong: misuse of a solver by its caller, and states in which a procedure of the solver
cannot go on.

* `Fault` — the causes, with `Fault.message`.
* `Fault.area?`, `Fault.name` — the part of a solver that meets a fault, and a short name of it.
-/

namespace ClauseLearning

/-- Why a procedure did not do what it was asked to. -/
inductive Fault where
  /-- A literal to be resolved has no reason. -/
  | missingReason
  /-- Analysis of a conflict found no literal to assert. -/
  | noAssertion
  /-- The magnitude of an external literal is above the greatest. -/
  | variableLimit (external : Int)
  /-- A zero stands where a literal was expected. -/
  | zeroLiteral
  /-- A clause was begun and not ended. -/
  | unterminatedClause
  /-- A second solve was asked for. -/
  | incrementalSolve
  /-- A clause was added after a solve. -/
  | addAfterSolve
  /-- A value was asked for where there is no model. -/
  | noModel
  /-- A procedure for level zero was called above it. -/
  | notAtRoot
  /-- A reference is from another epoch. -/
  | staleReference
  /-- A reference is not to a clause. -/
  | invalidReference
  /-- A clause for the store has fewer than three literals. -/
  | tooShort
  /-- The store has no room for a clause. -/
  | exhausted
  /-- A clause is false. -/
  | conflict (key : Key)
  /-- A watch is on a clause that is not there. -/
  | corruptWatch
  /-- Elimination of pure literals failed. -/
  | pureLiterals
  /-- A portfolio has no engine. -/
  | noEngines
  /-- An engine of a portfolio stopped without an outcome. -/
  | engineStopped
  /-- The state of a solver does not allow what was asked. -/
  | invalidState
deriving DecidableEq, Repr, Inhabited

namespace Fault

/-- The part of a solver which meets a fault, if it is one part. -/
def area? : Fault → Option String
  | missingReason | noAssertion => some "analysis"
  | variableLimit _ | zeroLiteral | unterminatedClause | incrementalSolve | addAfterSolve | noModel
  | notAtRoot => some "api"
  | staleReference | invalidReference | tooShort | exhausted => some "arena"
  | conflict _ | corruptWatch => some "propagation"
  | pureLiterals => some "preprocessing"
  | noEngines | engineStopped => some "sharing"
  | invalidState => none

/-- The name of a fault. -/
def name : Fault → String
  | missingReason => "MissingReason"
  | noAssertion => "NoAssertion"
  | variableLimit _ => "VariableLimit"
  | zeroLiteral => "ZeroLiteral"
  | unterminatedClause => "UnterminatedClause"
  | incrementalSolve => "IncrementalSolve"
  | addAfterSolve => "AddAfterSolve"
  | noModel => "NoModel"
  | notAtRoot => "NotAtRoot"
  | staleReference => "StaleReference"
  | invalidReference => "InvalidReference"
  | tooShort => "TooShort"
  | exhausted => "Exhausted"
  | conflict _ => "Conflict"
  | corruptWatch => "CorruptWatch"
  | pureLiterals => "Pure"
  | noEngines => "NoEngines"
  | engineStopped => "EnginePanic"
  | invalidState => "InvalidState"

/-- Every fault, with arguments for those that have one. -/
def all (external : Int) (key : Key) : List Fault :=
  [missingReason, noAssertion, variableLimit external, zeroLiteral, unterminatedClause,
    incrementalSolve, addAfterSolve, noModel, notAtRoot, staleReference, invalidReference, tooShort,
    exhausted, conflict key, corruptWatch, pureLiterals, noEngines, engineStopped, invalidState]

/-- The fault of a name, with an argument if it has one. -/
def ofName? (name : String) (external : Int) (key : Key) : Option Fault :=
  (all external key).find? fun e => e.name == name

/-- What is said of a fault: a sentence for misuse by a caller, and otherwise its name. -/
def cause : Fault → String
  | variableLimit external => "external variable " ++ toString external ++ " is out of range"
  | zeroLiteral => "zero literal within a clause"
  | unterminatedClause => "solve called with an unterminated clause"
  | incrementalSolve => "incremental solving is not supported"
  | addAfterSolve => "clauses may not be added after a solve"
  | noModel => "no satisfying assignment is available"
  | notAtRoot => "procedure requires decision level zero"
  | conflict key => "Conflict(" ++ key.details ++ ")"
  | invalidState => "invalid state"
  | e => e.name

/-- The text of a fault: the part of the solver that met it, and the cause. -/
def message (e : Fault) : String :=
  match e.area? with
  | some area => area ++ ": " ++ e.cause
  | none => e.cause

instance : ToString Fault := ⟨message⟩

end Fault

end ClauseLearning
