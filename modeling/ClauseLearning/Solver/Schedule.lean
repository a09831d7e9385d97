import ClauseLearning.Solver.Assign

/-!
# Restarts, resets of phases, and modes

Three things are done from time to time during a search, each on a schedule of its own.

* A *restart* goes back to the root.  In focused mode it is due when the glue of recent clauses is above
  the usual one by a margin; in stable mode by reluctant doubling.
* A *rephase* overwrites the saved phases, with one kind of phases after another in a cycle.
* A *switch* changes from focused mode to stable mode and back.  The time from one switch to the next
  grows with the square of their count.

`Solver.restarting`, `Solver.rephasing` and `Solver.switching` say whether each is due, and
`Solver.restart`, `Solver.rephase` and `Solver.switchMode` do it.
-/

namespace ClauseLearning

/-- What saved phases are overwritten with. -/
inductive Rephase where
  /-- The best phases, where there are any. -/
  | best
  /-- The initial phase. -/
  | initial
  /-- The opposite of the initial phase. -/
  | inverted
  /-- Random phases. -/
  | random
deriving DecidableEq, Repr, Inhabited

namespace Rephase

/-- The name of a kind of phases. -/
def text : Rephase → String
  | best => "Best"
  | initial => "Original"
  | inverted => "Inverted"
  | random => "Random"

instance : ToString Rephase := ⟨text⟩

/-- The kinds of phases, in the order in which they follow on one another. -/
def cycle : Array Rephase := #[best, initial, best, inverted, best, random]

/-- The kind of phases after a count of others. -/
def ofCount (n : Nat) : Rephase := cycle.getD (n % cycle.size) best

end Rephase

namespace Solver

variable {ε : Type}

/-! ## Modes -/

/-- Enters a mode at the root.  The order of the mode is brought up to date, its restarts begin afresh,
and old target phases are forgotten. -/
def enterMode (s : Solver ε) (stable : Bool) : Solver ε :=
  let free := s.free
  let ((), s) := s.onOrders fun o => ((), o.switch stable free)
  let s :=
    if stable then
      let c := s.settings.restart
      { s with reluctant := .start c.reluctantPeriod.value c.reluctantMax.value }
    else { s with limits.restart := s.counters.conflicts }
  { s with phases.targetAssigned := 0 }

/-- Whether a change of mode is due. -/
def switching (s : Solver ε) : Bool :=
  s.settings.mode.value = .switching && s.limits.mode ≤ s.counters.conflicts

/-- Changes the mode. -/
def switchMode (s : Solver ε) : Solver ε :=
  let stable := !s.orders.stable
  let s := s.count fun c => { c with modeSwitches := c.modeSwitches + 1 }
  let s := (s.backtrack 0).enterMode stable
  let next := s.counters.modeSwitches + 1
  { s with limits.mode := s.counters.conflicts + s.settings.modeInit.value * next * next }

/-! ## Restarts -/

/-- Whether a restart is due. -/
def restarting (s : Solver ε) : Bool :=
  if !s.settings.restart.restart.value || s.trail.level == 0 then false
  else if s.orders.stable then s.reluctant.triggered
  else
    s.limits.restart ≤ s.counters.conflicts &&
      s.fastGlue.value > s.settings.restart.margin.value * s.slowGlue.value

/-- Goes back to the root. -/
def restart (s : Solver ε) : Solver ε :=
  let s := s.count fun c => { c with restarts := c.restarts + 1 }
  let s := s.backtrack 0
  if s.orders.stable then
    { s with reluctant := s.reluctant.take.2, phases.targetAssigned := 0 }
  else
    { s with limits.restart := s.counters.conflicts + s.settings.restart.interval.value }

/-! ## Resets of phases -/

/-- Whether saved phases are to be reset. -/
def rephasing (s : Solver ε) : Bool :=
  s.settings.phase.rephase.value && s.limits.rephase ≤ s.counters.conflicts

/-- The saved phases, with the best ones over them. -/
def bestPhases (s : Solver ε) : Array Value :=
  s.phases.saved.mapIdx fun v saved =>
    let best := s.phases.best.getD v .unassigned
    if best.isAssigned then best else saved

/-- Overwrites the saved phases. -/
def resetPhases (s : Solver ε) (kind : Rephase) : Solver ε :=
  let n := s.phases.saved.size
  let initial := s.settings.phase.initial.value
  match kind with
  | .best => { s with phases.saved := s.bestPhases }
  | .initial => { s with phases.saved := Array.replicate n (.ofBool initial) }
  | .inverted => { s with phases.saved := Array.replicate n (.ofBool !initial) }
  | .random =>
    let (bs, random) := s.random.bools n
    { s with random, phases.saved := (bs.map Value.ofBool).toArray }

/-- Overwrites the saved phases with the next kind of phases, and forgets which assignments were
largest. -/
def rephase (s : Solver ε) : Rephase × Solver ε :=
  let kind := Rephase.ofCount s.counters.rephases
  let s := s.count fun c => { c with rephases := c.rephases + 1 }
  let s := s.resetPhases kind
  let s := { s with phases.bestAssigned := 0, phases.targetAssigned := 0 }
  let delta := s.settings.phase.rephaseInterval.value * s.counters.rephases
  (kind, { s with limits.rephase := s.counters.conflicts + delta })

end Solver

end ClauseLearning
