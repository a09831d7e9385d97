import ClauseLearning.Order.Queue
import ClauseLearning.Order.Scores

/-!
# Orders of decision

Two orders of the variables are kept, one for each way to search: the queue for focused mode, and
the scores for stable mode.  Only the order of the current mode is told of what happens during the
search, so when the mode changes the other one is *reconciled* with the assignment.  After that every
variable that may be decided is represented in it.

* `Orders` — both orders, and which one is active.
* `Orders.switch` — makes an order the active one.
* `Orders.next?`, `Orders.bump`, `Orders.reinsert`, `Orders.represents` — the active order.
-/

namespace ClauseLearning

/-- The orders from which variables are decided. -/
structure Orders where
  /-- The order of stable mode. -/
  scores : Scores
  /-- The order of focused mode. -/
  queue : VarQueue := {}
  /-- Whether the mode is stable. -/
  stable : Bool := false
deriving Inhabited

namespace Orders

/-- No variables, and focused mode. -/
def ofSettings (c : Settings) : Orders := { scores := .ofSettings c.score }

/-- Adds variables to both orders until there are `n`. -/
def growTo (o : Orders) (n : Nat) : Orders :=
  { o with scores := o.scores.growTo n, queue := o.queue.growTo n }

/-- Takes note that a variable has become unassigned. -/
def reinsert (o : Orders) (v : Nat) : Orders :=
  if o.stable then { o with scores := o.scores.reinsert v }
  else { o with queue := o.queue.reinsert v }

/-- The unassigned variable to decide. -/
def next? (o : Orders) (a : Assignment) : Option Nat × Orders :=
  if o.stable then
    let (v, scores) := o.scores.next? a
    (v, { o with scores })
  else
    let (v, queue) := o.queue.next? a
    (v, { o with queue })

/-- Takes note that variables were in the conflict with a given number.  The answer also has the
variables in the order in which that was done. -/
def bump (o : Orders) (a : Assignment) (vs : List Nat) (conflicts : Nat) : List Nat × Orders :=
  if o.stable then (vs, { o with scores := o.scores.bump vs conflicts })
  else
    let vs := o.queue.sorted vs
    (vs, { o with queue := o.queue.bumpAll a vs })

/-- Brings the active order up to date, given the variables that may be decided. -/
def reconcile (o : Orders) (unassigned : List Nat) : Orders :=
  if o.stable then { o with scores := o.scores.reconcile unassigned }
  else { o with queue := o.queue.reconcile }

/-- Whether a variable would be found when all other ones are assigned. -/
def represents (o : Orders) (v : Nat) : Bool :=
  if o.stable then o.scores.represents v else o.queue.represents v

/-- Makes an order the active one, and brings it up to date. -/
def switch (o : Orders) (stable : Bool) (unassigned : List Nat) : Orders :=
  { o with stable }.reconcile unassigned

/-- Takes a variable out of both orders for good. -/
def deactivate (o : Orders) (v : Nat) : Orders :=
  { o with scores := o.scores.deactivate v, queue := o.queue.deactivate v }

instance : DecisionOrder Orders where
  growTo := growTo
  reinsert := reinsert
  next? := next?
  bump := bump
  reconcile := reconcile
  deactivate := deactivate
  represents := represents

end Orders

end ClauseLearning
