import ClauseLearning.Order.Decision
import ClauseLearning.Sorting

/-!
# The queue of variables

Variables in the order in which they were last bumped, as a doubly linked list.  Each variable has a
stamp, and stamps increase along the list.  A search for an unassigned variable goes from the end
towards the front, and starts from a place behind which every variable is assigned.

* `VarQueue` — the list and the place where a search starts.
* `VarQueue.bump` — moves variables to the end.
* `VarQueue.next?` — the unassigned variable that was bumped last.
* `VarQueue.toList` — the variables in order.
-/

namespace ClauseLearning

/-- The place of a variable in the queue. -/
structure Link where
  /-- The variable before it. -/
  before : Option Nat := none
  /-- The variable after it. -/
  after : Option Nat := none
  /-- When it was last put at the end. -/
  stamp : Nat := 0
  /-- Whether it is in the queue. -/
  enqueued : Bool := false
deriving DecidableEq, Repr, Inhabited

/-- A queue of variables. -/
structure VarQueue where
  /-- The place of each variable. -/
  links : Array Link := #[]
  /-- The first variable. -/
  first : Option Nat := none
  /-- The last variable. -/
  last : Option Nat := none
  /-- Where the search for an unassigned variable starts. -/
  search : Option Nat := none
  /-- The greatest stamp given. -/
  stamp : Nat := 0
deriving DecidableEq, Repr, Inhabited

namespace VarQueue

/-- The place of a variable. -/
def link (q : VarQueue) (v : Nat) : Link := q.links.getD v {}

/-- The stamp of a variable. -/
def stampOf (q : VarQueue) (v : Nat) : Nat := (q.link v).stamp

/-- Whether a variable is in the queue. -/
def contains (q : VarQueue) (v : Nat) : Bool := (q.link v).enqueued

/-- Changes the place of a variable. -/
def modify (q : VarQueue) (v : Nat) (f : Link → Link) : VarQueue :=
  { q with links := q.links.modify v f }

/-- Makes `after` follow on a variable, or come first if there is no such variable. -/
def setAfter (q : VarQueue) (v after : Option Nat) : VarQueue :=
  match v with
  | some v => q.modify v fun k => { k with after }
  | none => { q with first := after }

/-- Makes `before` precede a variable, or come last if there is no such variable. -/
def setBefore (q : VarQueue) (v before : Option Nat) : VarQueue :=
  match v with
  | some v => q.modify v fun k => { k with before }
  | none => { q with last := before }

/-- Lets searches that would start at a variable start at another one. -/
def replaceSearch (q : VarQueue) (v : Nat) (other : Option Nat) : VarQueue :=
  if q.search = some v then { q with search := other } else q

/-- Puts a variable at the end, with a new stamp. -/
def enqueue (q : VarQueue) (v : Nat) : VarQueue :=
  let stamp := q.stamp + 1
  let last := q.last
  let q := q.modify v fun _ => { before := last, after := none, stamp, enqueued := true }
  { q.setAfter last (some v) with last := some v, stamp }

/-- Takes a variable out.  A search that would start there starts before it, or else after it. -/
def dequeue (q : VarQueue) (v : Nat) : VarQueue :=
  let k := q.link v
  let q := (q.setAfter k.before k.after).setBefore k.after k.before
  let q := q.replaceSearch v (k.before <|> k.after)
  q.modify v fun k => { k with before := none, after := none, enqueued := false }

/-- Starts searches at a variable, if it comes after the place where they start now. -/
def advanceSearch (q : VarQueue) (v : Nat) : VarQueue :=
  match q.search with
  | some s => if q.stampOf s < q.stampOf v then { q with search := some v } else q
  | none => { q with search := some v }

/-- Adds variables at the end until there are `n`.  Searches then start at the end. -/
def growTo (q : VarQueue) (n : Nat) : VarQueue :=
  let known := q.links.size
  if n ≤ known then q
  else
    let q := { q with links := q.links ++ Array.replicate (n - known) {} }
    let q := (List.range' known (n - known)).foldl enqueue q
    { q with search := q.last }

/-- Takes note that a variable has become unassigned. -/
def reinsert (q : VarQueue) (v : Nat) : VarQueue :=
  if q.contains v then q.advanceSearch v else q

/-- Goes back from a place for at most `steps` steps, to a variable that is not assigned. -/
def searchBack (q : VarQueue) (a : Assignment) : Nat → Option Nat → Option Nat
  | 0, _ => none
  | _ + 1, none => none
  | steps + 1, some v =>
    if a.valueOf v = .unassigned then some v else q.searchBack a steps (q.link v).before

/-- The unassigned variable that comes last, from where later searches then start.  The list has no
more steps than there are variables. -/
def next? (q : VarQueue) (a : Assignment) : Option Nat × VarQueue :=
  match q.searchBack a (q.links.size + 1) q.search with
  | some v => (some v, { q with search := some v })
  | none => (none, q)

/-- Moves a variable to the end, unless it is there or not in the queue. -/
def bumpOne (a : Assignment) (q : VarQueue) (v : Nat) : VarQueue :=
  if !q.contains v || q.last = some v then q
  else
    let q := (q.dequeue v).enqueue v
    if a.valueOf v = .unassigned then q.advanceSearch v else q

/-- The variables in the order of their stamps. -/
def sorted (q : VarQueue) (vs : List Nat) : List Nat :=
  sortBy (fun v w => q.stampOf v ≤ q.stampOf w) vs

/-- Moves variables to the end, one after another. -/
def bumpAll (q : VarQueue) (a : Assignment) (vs : List Nat) : VarQueue := vs.foldl (bumpOne a) q

/-- Moves variables to the end, in their order.  The answer also has the variables in that order. -/
def bump (q : VarQueue) (a : Assignment) (vs : List Nat) : List Nat × VarQueue :=
  let vs := q.sorted vs
  (vs, q.bumpAll a vs)

/-- Makes searches start at the end.  Variables stay in the queue while they are assigned, so nothing
else can be out of date. -/
def reconcile (q : VarQueue) : VarQueue := { q with search := q.last }

/-- Takes a variable out for good, if it is in the queue. -/
def deactivate (q : VarQueue) (v : Nat) : VarQueue :=
  if q.contains v then q.dequeue v else q

/-- Whether a search would come across a variable. -/
def represents (q : VarQueue) (v : Nat) : Bool :=
  q.contains v &&
    match q.search with
    | some s => q.stampOf v ≤ q.stampOf s
    | none => false

/-- The variables from a place on, for at most `steps` steps. -/
def follow (q : VarQueue) : Nat → Option Nat → List Nat
  | 0, _ => []
  | _ + 1, none => []
  | steps + 1, some v => v :: q.follow steps (q.link v).after

/-- The variables from first to last. -/
def toList (q : VarQueue) : List Nat := q.follow q.links.size q.first

instance : DecisionOrder VarQueue where
  growTo := growTo
  reinsert := reinsert
  next? := next?
  bump q a vs _ := q.bump a vs
  reconcile q _ := q.reconcile
  deactivate := deactivate
  represents := represents

end VarQueue

end ClauseLearning
