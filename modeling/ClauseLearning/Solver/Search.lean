import ClauseLearning.Solver.Analysis
import ClauseLearning.Solver.Import
import ClauseLearning.Solver.Pure
import ClauseLearning.Solver.Reduce
import ClauseLearning.Solver.Schedule
import ClauseLearning.Solver.Simplify

/-!
# The search

The search goes on in passes.  A pass propagates, and then does one thing: it learns from a conflict,
ends the search, does something that is due, or decides a literal.  At the root, it first takes over
what there is outside.

A search may go on for ever only if passes may; how many it is given is its one argument.

* `Solver.pass` — one pass.
* `Solver.search` — passes until there is a report.
* `Solver.solve` — the search with what comes before and after it.
-/

namespace ClauseLearning

namespace Solver

variable {ε : Type}

/-- Learns from a conflict.  The report is there if it means that there is no model. -/
def resolveConflict (key : Key) : SolverM ε (Option Report) := do
  modify fun s => s.count fun c => { c with conflicts := c.conflicts + 1 }
  match ← analyze key with
  | .fundamental =>
    modify refute
    return some .unsatisfiable
  | .asserting jump glue =>
    learn jump glue
    return none

/-- Whether a count has reached a limit. -/
def reached (limit : Option Nat) (n : Nat) : Bool :=
  match limit with
  | some limit => limit ≤ n
  | none => false

/-- Simplifies.  The report is there if it turns out that there is no model. -/
def simplifyPass : SolverM ε (Option Report) := do
  simplify
  return if (← get).inconsistent then some .unsatisfiable else none

/-- Decides a literal. -/
def decidePass : SolverM ε (Option Report) := do
  match ← modifyGet decide with
  | some _ => return none
  | none => throw .invalidState

/-- Does the first thing that is due among those which need no conflict. -/
def proceed : SolverM ε (Option Report) := do
  let s ← get
  if reached s.limits.conflicts s.counters.conflicts then return some .unknown
  else if s.reducing then
    reduce
    return none
  else if s.restarting then
    modify restart
    return none
  else if s.rephasing then
    modify fun s => s.rephase.2
    return none
  else if s.switching then
    modify switchMode
    return none
  else if s.trail.level = 0 ∧ 0 < s.unflushed then simplifyPass
  else if reached s.limits.decisions s.counters.decisions then return some .unknown
  else decidePass

/-- Goes on after propagation without a conflict. -/
def advance : SolverM ε (Option Report) := do
  let s ← get
  if s.iterating then simplifyPass
  else if s.unassigned = 0 then return some .satisfiable
  else if ← modifyGet isTerminated then return some .unknown
  else proceed

/-- Takes over what there is outside, if the level is zero. -/
def importPass : SolverM ε Unit := do
  if (← get).trail.level = 0 then
    importUnits
    importClauses

/-- The conflict that propagation ends in, if it ends in one. -/
def propagatePass : SolverM ε (Option Key) := fun s =>
  match propagate s with
  | .ok _ s => .ok none s
  | .error (.conflict key) s => .ok (some key) s
  | .error e s => .error e s

/-- One pass of the search.  The report is there if the search ends with it. -/
def pass : SolverM ε (Option Report) := do
  modify fun s => s.count fun c => { c with iterations := c.iterations + 1 }
  importPass
  let s ← get
  if s.trail.level = 0 ∧ s.inconsistent then return some .unsatisfiable
  match ← propagatePass with
  | some key => resolveConflict key
  | none => advance

/-- At most `n` passes, up to a report. -/
def search : Nat → SolverM ε (Option Report)
  | 0 => return none
  | n + 1 => do
    match ← pass with
    | some report => return some report
    | none => search n

/-! ## Before and after the search -/

/-- Sets the limits of a solve, as counted from now. -/
def initialLimits (s : Solver ε) : Solver ε :=
  let conflicts := s.counters.conflicts
  let c := s.settings
  { s with
    limits.conflicts := s.limits.conflictBudget.map (conflicts + ·)
    limits.decisions := s.limits.decisionBudget.map (s.counters.decisions + ·)
    limits.reduce := conflicts + c.keep.reduceInterval.value
    limits.rephase := conflicts + c.phase.rephaseInterval.value
    limits.mode := conflicts + c.modeInit.value
    limits.restart := conflicts + c.restart.interval.value }

/-- The value of every literal, with unassigned variables made false. -/
def totalValues (s : Solver ε) : Array Value :=
  (Array.range (2 * s.assignment.size)).map fun code =>
    let l : Literal := ⟨code⟩
    match s.val l with
    | .unassigned => .ofBool !l.positive
    | v => v

/-- Makes a model from the assignment and the extension stack. -/
def buildModel (s : Solver ε) : Solver ε :=
  { s with model := s.extension.extend s.totalValues }

/-- Prepares the search.  The report is there if there is no need for one. -/
def prepare : SolverM ε (Option Report) := do
  if (← get).inconsistent then return some .unsatisfiable
  modify initialLimits
  if (← get).settings.mode.value = .stable then modify fun s => s.enterMode true
  if (← get).settings.preprocessing.value then
    preprocess
    if (← get).inconsistent then return some .unsatisfiable
  return none

/-- The status after a report. -/
def statusOf : Report → Status
  | .satisfiable => .satisfiable
  | .unsatisfiable => .unsatisfiable
  | .unknown => .unknown

/-- Ends a solve with a report. -/
def conclude (report : Report) (s : Solver ε) : Solver ε :=
  let s := if report = .satisfiable then s.buildModel else s
  { s with status := statusOf report }

/-- Begins a solve, which may be done only once and with no clause begun. -/
def beginSolve : SolverM ε Unit := do
  let s ← get
  if !s.pending.isEmpty then throw .unterminatedClause
  match s.status with
  | .configuration | .input => modify fun s => { s with status := .solving }
  | _ => throw .incrementalSolve

/-- A part of a solve.  The solve ends if it has a report or meets a fault, and after a fault nothing is
known of the formula. -/
def ending (x : SolverM ε (Option Report)) : SolverM ε (Option Report) := fun s =>
  match x s with
  | .ok none s => .ok none s
  | .ok (some report) s => .ok (some report) (conclude report s)
  | .error e s => .error e { s with status := .unknown }

/-- Begins a solve and prepares the search. -/
def startSolve : SolverM ε (Option Report) := do
  beginSolve
  ending prepare

/-- Solves, with at most `n` passes.  There is no report if these are not enough. -/
def solve (n : Nat) : SolverM ε (Option Report) := do
  match ← startSolve with
  | some report => return some report
  | none => ending (search n)

end Solver

end ClauseLearning
