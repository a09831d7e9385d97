import ClauseLearning.Sharing.Sharer

/-!
# The exchange of clauses

The sharer works on its own, at the same time as the members whose endpoints it serves.  Its rounds are
cut into steps, each of which touches one queue once, so that anything may happen between two of them.

* `Exchange` — members, the sharer, and the clauses on their way from it.
* `SharerStep` — what the sharer may do.
* `Exchange.act` — a step.
* `Exchange.round` — a whole round with nothing in between.
-/

namespace ClauseLearning

/-- Members with a sharer between them.  The endpoint of a member is a part of it. -/
structure Exchange (τ : Type) where
  /-- The members, by the numbers of their endpoints. -/
  members : Array τ
  /-- The sharer. -/
  sharer : Sharer
  /-- What the sharer has still to deliver, each clause with the number of a member. -/
  deliveries : List (Nat × SharedClause) := []
deriving Inhabited

/-- Something that the sharer may do. -/
inductive SharerStep where
  /-- Takes one clause which a member exported. -/
  | gather (member : Nat)
  /-- Selects clauses to deliver, once everything selected before is delivered. -/
  | select
  /-- Delivers one clause. -/
  | deliver
deriving DecidableEq, Repr

namespace Exchange

variable {τ : Type}

/-- Changes one of the members. -/
def modify (x : Exchange τ) (i : Nat) (f : τ → τ) : Exchange τ :=
  { x with members := x.members.modify i f }

/-- Takes one clause which a member exported, if there is one. -/
def gather (p : Part τ Endpoint) (x : Exchange τ) (i : Nat) : Exchange τ :=
  match x.members[i]?.map fun t => (p.get t).takeExported with
  | some (some c, e) => { x.modify i (p.set e) with sharer := x.sharer.receive c }
  | _ => x

/-- The deliveries of a selection: one clause after another, each to every member but the one it comes from. -/
def addressed (members : Nat) (selection : List SharedClause) : List (Nat × SharedClause) :=
  selection.flatMap fun c => ((List.range members).filter fun i => c.source ≠ i).map fun i => (i, c)

/-- Selects clauses to deliver, if none are on their way. -/
def select (x : Exchange τ) : Exchange τ :=
  if x.deliveries.isEmpty then
    let (selection, sharer) := x.sharer.select
    { x with sharer, deliveries := addressed x.members.size selection }
  else x

/-- Delivers one clause, if there is one on its way. -/
def deliver (p : Part τ Endpoint) (x : Exchange τ) : Exchange τ :=
  match x.deliveries with
  | [] => x
  | (i, c) :: deliveries => { x.modify i (p.modify fun e => e.deliver c) with deliveries }

/-- The exchange after a step of the sharer. -/
def act (p : Part τ Endpoint) (x : Exchange τ) : SharerStep → Exchange τ
  | .gather i => x.gather p i
  | .select => x.select
  | .deliver => x.deliver p

/-- A round with nothing in between.  The answer is the count of clauses selected. -/
def round (p : Part τ Endpoint) (x : Exchange τ) : Nat × Exchange τ :=
  let ts := x.members.toList
  let (n, sharer, es) := x.sharer.round (ts.map p.get)
  (n, { x with sharer, members := (es.zipWith p.set ts).toArray })

end Exchange

end ClauseLearning
