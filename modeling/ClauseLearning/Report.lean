/-!
# Reports

* `Status` — where a solver is in its life.
* `Report` — what a solve has to say about the formula, with `Status.report`.
-/

namespace ClauseLearning

/-- Where a solver is in its life. -/
inductive Status where
  /-- Nothing has been added yet. -/
  | configuration
  /-- Clauses are being added. -/
  | input
  /-- A solve is under way. -/
  | solving
  /-- A solve ended with a satisfying assignment. -/
  | satisfiable
  /-- A solve ended with the formula refuted. -/
  | unsatisfiable
  /-- A solve ended without an answer. -/
  | unknown
deriving DecidableEq, Repr, Inhabited

/-- The name of a status. -/
def Status.text : Status → String
  | configuration => "Configuration"
  | input => "Input"
  | solving => "Solving"
  | satisfiable => "Satisfiable"
  | unsatisfiable => "Unsatisfiable"
  | unknown => "Unknown"

instance : ToString Status := ⟨Status.text⟩

/-- The status of a name. -/
def Status.ofName? (s : String) : Option Status :=
  [configuration, input, solving, satisfiable, unsatisfiable, unknown].find? fun t => t.text == s

/-- What a solve has to say about the formula. -/
inductive Report where
  /-- Some assignment satisfies the formula. -/
  | satisfiable
  /-- No assignment satisfies the formula. -/
  | unsatisfiable
  /-- It is not known. -/
  | unknown
deriving DecidableEq, Repr, Inhabited

/-- The name of a report. -/
def Report.text : Report → String
  | satisfiable => "Satisfiable"
  | unsatisfiable => "Unsatisfiable"
  | unknown => "Unknown"

instance : ToString Report := ⟨Report.text⟩

/-- What is known of the formula in a status. -/
def Status.report : Status → Report
  | satisfiable => .satisfiable
  | unsatisfiable => .unsatisfiable
  | _ => .unknown

end ClauseLearning
