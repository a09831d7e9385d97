import ClauseLearning.Solver.Basic

/-!
# Assigning and unassigning

* `Solver.assign`, `Solver.decideLiteral`, `Solver.decide` — one more literal on the trail.
* `Solver.backtrack` — the literals above a level taken back.
* `Solver.updatePhases` — phases noted before literals are taken back.
-/

namespace ClauseLearning

namespace Solver

variable {ε : Type}

/-- Makes a literal true on the current level.  At the root the reason does not matter any more. -/
def assign (s : Solver ε) (l : Literal) (reason : Reason) : Solver ε :=
  let level := s.trail.level
  if level = 0 then
    { s with
      unflushed := s.unflushed + 1
      assignment := s.assignment.set l 0 .unit
      trail := s.trail.push l }
  else
    { s with
      assignment := s.assignment.set l level reason
      trail := s.trail.push l }

/-- Makes a literal true as the decision of a new level. -/
def decideLiteral (s : Solver ε) (l : Literal) : Solver ε :=
  let level := s.trail.level + 1
  { s with
    trail := s.trail.pushDecision l
    assignment := s.assignment.set l level .decision }

/-- Decides the next variable of the active order, if there is one which is not assigned. -/
def decide (s : Solver ε) : Option Literal × Solver ε :=
  let assignment := s.assignment
  match s.onOrders fun o => o.next? assignment with
  | (none, s) => (none, s)
  | (some v, s) =>
    let l := Literal.make v (s.decisionPhase v)
    let s := s.count fun c => { c with decisions := c.decisions + 1 }
    (some l, s.decideLiteral l)

/-- The current value of every variable. -/
def currentValues (s : Solver ε) : Array Value :=
  (Array.range s.phases.saved.size).map s.assignment.valueOf

/-- Notes the current values as target or best phases, if the part of the trail below the current
level is larger than what was noted before.  That part is free of conflicts. -/
def updatePhases (s : Solver ε) : Solver ε :=
  let consistent := s.trail.levelStart s.trail.level
  let target := s.orders.stable && s.settings.phase.target.value &&
    s.phases.targetAssigned < consistent
  let best := s.phases.bestAssigned < consistent
  let s :=
    if target then
      { s with phases.target := s.currentValues, phases.targetAssigned := consistent }
    else s
  if best then { s with phases.best := s.currentValues, phases.bestAssigned := consistent } else s

/-- Takes back one literal: its variable keeps the value as its saved phase, and may be decided
again. -/
def unassign (s : Solver ε) (l : Literal) : Solver ε :=
  { s with
    assignment := s.assignment.unset l
    phases := s.phases.setSaved l.var (.ofBool l.positive)
    orders := s.orders.reinsert l.var }

/-- Takes back every literal above a level. -/
def backtrack (s : Solver ε) (level : Nat) : Solver ε :=
  if s.trail.level ≤ level then s
  else
    let s := s.updatePhases
    let s := (s.trail.above level).foldl unassign s
    { s with trail := s.trail.truncate level }

end Solver

end ClauseLearning
