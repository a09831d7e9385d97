import ClauseLearning.Sharing.Endpoint
import ClauseLearning.Solver.Search

/-!
# Engines

An engine is a solver whose outside is an endpoint.  It works in small steps, so that what happens at
the other side of the endpoint may come between any two of them.

* `Engine` — a solver and how far it has come.
* `Engine.start`, `Engine.pass` — the steps.
* `Engine.run` — steps without anything in between.
-/

namespace ClauseLearning

/-- How far an engine has come. -/
inductive Stage where
  /-- It has not begun. -/
  | waiting
  /-- It searches. -/
  | searching
  /-- It has ended with a report. -/
  | done (report : Report)
  /-- It has met a fault. -/
  | failed (fault : Fault)
deriving DecidableEq, Repr, Inhabited

/-- A solver with an endpoint, and how far it has come. -/
structure Engine where
  /-- The solver. -/
  solver : Solver Endpoint
  /-- How far it has come. -/
  stage : Stage := .waiting

namespace Engine

/-- An engine which has not begun. -/
def ofSettings (c : Settings) (endpoint : Endpoint) : Engine :=
  { solver := { Solver.ofSettings c endpoint with hooks := Endpoint.hooks } }

instance : Inhabited Engine := ⟨ofSettings {} default⟩

/-- The endpoint of an engine. -/
def endpoint : Part Engine Endpoint where
  get e := e.solver.outside
  set endpoint e := { e with solver.outside := endpoint }
  get_set _ _ := rfl

/-- Adds every clause of a formula, and prepares the search. -/
def begin (clauses : List (List Int)) : SolverM Endpoint (Option Report) := do
  clauses.forM Solver.addClause
  Solver.startSolve

/-- The engine after a part of a solve. -/
def after (x : SolverM Endpoint (Option Report)) (s : Solver Endpoint) : Engine :=
  match x s with
  | .ok none solver => { solver, stage := .searching }
  | .ok (some report) solver => { solver, stage := .done report }
  | .error fault solver => { solver, stage := .failed fault }

/-- Begins, if the engine is waiting. -/
def start (clauses : List (List Int)) (e : Engine) : Engine :=
  match e with
  | { solver, stage := .waiting } => after (begin clauses) solver
  | e => e

/-- Does one pass of the search, if the engine searches. -/
def pass (e : Engine) : Engine :=
  match e with
  | { solver, stage := .searching } => after (Solver.ending Solver.pass) solver
  | e => e

/-- Does at most `n` passes. -/
def passes : Nat → Engine → Engine
  | 0, e => e
  | n + 1, e =>
    match e with
    | { solver, stage := .searching } => passes n (pass { solver, stage := .searching })
    | e => e

/-- Begins, and does at most `n` passes. -/
def run (clauses : List (List Int)) (n : Nat) (e : Engine) : Engine :=
  (e.start clauses).passes n

/-- Asks an engine to stop. -/
def interrupt (e : Engine) : Engine := { e with solver.stopped := true }

/-- The report of an engine, if it is one that settles the matter. -/
def answer? (e : Engine) : Option Report :=
  match e.stage with
  | .done .satisfiable => some .satisfiable
  | .done .unsatisfiable => some .unsatisfiable
  | _ => none

/-- The model of an engine which found one. -/
def model? (e : Engine) : Option (List Int) := e.solver.modelLiterals.toOption

end Engine

end ClauseLearning
