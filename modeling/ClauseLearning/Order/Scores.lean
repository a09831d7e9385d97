import ClauseLearning.Average
import ClauseLearning.IndexedHeap
import ClauseLearning.Order.Decision
import ClauseLearning.Settings

/-!
# Scores of variables

Variables on a heap by their scores.  A variable leaves the heap when it is found to be assigned,
and comes back when it is unassigned.

There are two kinds of score.  One adds an increment for each conflict that a variable was in, and
lets the increment grow, which is the same as letting all scores decay.  The other is a running
average of rewards, and a conflict is rewarded the more the sooner it follows on the previous one.

* `Scores` — the heap and the parameters of both kinds of score.
* `Scores.bump` — takes note that variables were in a conflict.
* `Scores.next?` — the unassigned variable with the greatest score.
-/

namespace ClauseLearning

/-- The float of a count. -/
def floatOfCount (n : Nat) : Float := (UInt64.ofNat n).toFloat

/-- A heap of variables by their scores. -/
structure Scores where
  /-- The scores, and the variables on the heap. -/
  heap : IndexedHeap Float := {}
  /-- The kind of score. -/
  kind : Score
  /-- What the next conflict adds to a score of the first kind. -/
  increment : Float := 1.0
  /-- The factor by which scores of the first kind decay from one conflict to the next. -/
  decay : Float
  /-- The weight of a reward in a score of the second kind. -/
  step : Float
  /-- The amount by which the weight shrinks with each conflict. -/
  stepDecay : Float
  /-- The least weight. -/
  stepMin : Float
  /-- The last conflict that each variable was in. -/
  lastConflict : Array Nat := #[]
deriving Inhabited

namespace Scores

/-- The score above which all scores of the first kind are made smaller by the same factor. -/
def rescaleLimit : Float := 1e150

/-- No variables, and the parameters of the settings. -/
def ofSettings (c : ScoreSettings) : Scores :=
  { kind := c.score.value
    decay := c.vsidsDecay.value
    step := c.chbStep.value
    stepDecay := c.chbStepDecay.value
    stepMin := c.chbStepMin.value }

/-- The score of a variable. -/
def score (s : Scores) (v : Nat) : Float := s.heap.value v

/-- Puts a variable on the heap. -/
def reinsert (s : Scores) (v : Nat) : Scores := { s with heap := s.heap.insert v }

/-- Adds variables with the score zero until there are `n`, and puts them on the heap. -/
def growTo (s : Scores) (n : Nat) : Scores :=
  let known := s.heap.count
  let s := { s with
    heap := s.heap.growTo n 0.0
    lastConflict := s.lastConflict ++ Array.replicate (n - s.lastConflict.size) 0 }
  (List.range' known (n - known)).foldl reinsert s

/-- Pops at most `steps` assigned variables, until one that is not assigned has the greatest score. -/
def popAssigned (s : Scores) (a : Assignment) : Nat → Option Nat × Scores
  | 0 => (none, s)
  | steps + 1 =>
    match s.heap.max? with
    | none => (none, s)
    | some v =>
      if a.valueOf v = .unassigned then (some v, s)
      else popAssigned { s with heap := s.heap.popMax.2 } a steps

/-- The unassigned variable with the greatest score.  Assigned variables above it leave the heap. -/
def next? (s : Scores) (a : Assignment) : Option Nat × Scores :=
  s.popAssigned a (s.heap.size + 1)

/-- Adds the increment to the score of a variable. -/
def bumpSum (s : Scores) (v : Nat) : Scores :=
  let score := s.score v + s.increment
  let s := { s with heap := s.heap.setValue v score }
  if score > rescaleLimit then
    let factor := 1.0 / rescaleLimit
    { s with heap := s.heap.mapValues (· * factor), increment := s.increment * factor }
  else s

/-- Moves the score of a variable towards the reward for a conflict. -/
def bumpAverage (conflicts : Nat) (s : Scores) (v : Nat) : Scores :=
  let age := conflicts - s.lastConflict.getD v 0 + 1
  let reward := 1.0 / floatOfCount age
  let score := (1.0 - s.step) * s.score v + s.step * reward
  { s with
    heap := s.heap.setValue v score
    lastConflict := s.lastConflict.setIfInBounds v conflicts }

/-- Takes note that variables were in the conflict with a given number. -/
def bump (s : Scores) (vs : List Nat) (conflicts : Nat) : Scores :=
  match s.kind with
  | .vsids =>
    let s := vs.foldl bumpSum s
    { s with increment := s.increment / s.decay }
  | .chb =>
    let s := vs.foldl (bumpAverage conflicts) s
    { s with step := greaterFloat (s.step - s.stepDecay) s.stepMin }

/-- Puts the given variables on the heap. -/
def reconcile (s : Scores) (unassigned : List Nat) : Scores := unassigned.foldl reinsert s

/-- Takes a variable off the heap. -/
def deactivate (s : Scores) (v : Nat) : Scores := { s with heap := s.heap.erase v }

/-- Whether a variable is on the heap. -/
def represents (s : Scores) (v : Nat) : Bool := s.heap.contains v

instance : DecisionOrder Scores where
  growTo := growTo
  reinsert := reinsert
  next? := next?
  bump s _ vs conflicts := (vs, s.bump vs conflicts)
  reconcile := reconcile
  deactivate := deactivate
  represents := represents

end Scores

end ClauseLearning
