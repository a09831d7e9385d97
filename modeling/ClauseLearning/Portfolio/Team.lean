import ClauseLearning.Portfolio.Basic
import ClauseLearning.Portfolio.Engine
import ClauseLearning.Sharing.Exchange

/-!
# A portfolio at work

Engines and the sharer work at the same time.  What they do is cut into actions, each of which is done
as a whole, and a history of a portfolio is a list of actions in any order.

* `Team` — the engines, with a sharer between them.
* `Action` — what may happen.
* `Team.act`, `Team.run` — the team after an action, and after several.
* `Portfolio.team` — the team before anything has happened.
-/

namespace ClauseLearning

/-- Engines with a sharer between them. -/
abbrev Team := Exchange Engine

/-- Something that may happen. -/
inductive Action where
  /-- An engine begins. -/
  | start (engine : Nat)
  /-- An engine does a pass of its search. -/
  | pass (engine : Nat)
  /-- An engine is asked to stop, as some engine has found an answer. -/
  | interrupt (engine : Nat)
  /-- The sharer does a step. -/
  | share (step : SharerStep)
deriving DecidableEq, Repr

namespace Team

/-- Whether some engine has found an answer. -/
def answered (t : Team) : Bool := t.members.any fun e => e.answer?.isSome

/-- The team after an action. -/
def act (clauses : List (List Int)) (t : Team) : Action → Team
  | .start i => t.modify i (Engine.start clauses)
  | .pass i => t.modify i Engine.pass
  | .interrupt i => if t.answered then t.modify i Engine.interrupt else t
  | .share step => Exchange.act Engine.endpoint t step

/-- The team after some actions. -/
def run (clauses : List (List Int)) (t : Team) (actions : List Action) : Team :=
  actions.foldl (act clauses) t

end Team

/-- The team of a portfolio before anything has happened.  Engines have the numbers from zero. -/
def Portfolio.team (p : Portfolio) : Team :=
  { members := (p.settings.zipIdx.map fun (c, i) =>
      Engine.ofSettings c { id := i, glueLimit := p.glueLimit }).toArray
    sharer := .ofLimits p.maxSize p.literalLimit }

end ClauseLearning
