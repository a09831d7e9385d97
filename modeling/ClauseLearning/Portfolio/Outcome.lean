import ClauseLearning.Portfolio.Team

/-!
# The outcome of a portfolio

The answer of a portfolio is that of an engine which has found one.  Engines cannot find opposite
answers, so it does not matter which of them is first, nor what has happened in which order.  So one
order is as good as another, and a portfolio may be run engine by engine.

* `Outcome` — an answer, and where it comes from.
* `Team.outcome` — the outcome of a team of which every engine has ended.
* `Portfolio.solve` — the outcome of the engines, run one after another until there is an answer.
-/

namespace ClauseLearning

/-- What a portfolio has to say about a formula. -/
structure Outcome where
  /-- The report. -/
  report : Report
  /-- The engine with an answer, if there is one. -/
  engine : Option Nat := none
  /-- The model, if there is one: a literal for each variable from one on. -/
  model : Option (List Int) := none
deriving DecidableEq, Repr, Inhabited

namespace Outcome

/-- The outcome of an engine, if it has found an answer. -/
def ofEngine? (i : Nat) (e : Engine) : Option Outcome :=
  e.answer?.map fun report =>
    { report, engine := some i, model := if report = .satisfiable then e.model? else none }

end Outcome

namespace Team

/-- The outcome of the first engine that has found an answer. -/
def answer? (t : Team) : Option Outcome :=
  t.members.toList.zipIdx.findSome? fun (e, i) => Outcome.ofEngine? i e

/-- The fault of the first engine that met one. -/
def fault? (t : Team) : Option Fault :=
  t.members.toList.findSome? fun e =>
    match e.stage with
    | .failed fault => some fault
    | _ => none

/-- The outcome of a team of which every engine has ended: an answer if there is one, or else a fault
if there is one. -/
def outcome (t : Team) : Except Fault Outcome :=
  match t.answer?, t.fault? with
  | some outcome, _ => .ok outcome
  | none, some fault => .error fault
  | none, none => .ok { report := .unknown }

/-- Runs engines one after another from a number on, each with at most `n` passes, until one finds an
answer. -/
def runEngines (clauses : List (List Int)) (n : Nat) (t : Team) : List Nat → Team
  | [] => t
  | i :: rest =>
    let t : Team := Exchange.modify t i (Engine.run clauses n)
    if t.answered then t else runEngines clauses n t rest

end Team

namespace Portfolio

/-- Solves a formula, with at most `n` passes for each engine.  Without an engine there is nothing to
run. -/
def solve (p : Portfolio) (clauses : List (List Int)) (n : Nat) : Except Fault Outcome :=
  if p.settings.isEmpty then .error .noEngines
  else (Team.runEngines clauses n p.team (List.range p.settings.length)).outcome

end Portfolio

end ClauseLearning
