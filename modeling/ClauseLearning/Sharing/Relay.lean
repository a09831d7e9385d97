import ClauseLearning.Sharing.Sharer

/-!
# Rounds of the sharer, cut into steps

Engines export and import while a round of the sharer is under way.  Here everything that the engines and the
sharer do is cut into pieces, each of which touches one queue or one counter once, so that what happens at the
same time is some list of such pieces.

* `Port` — an endpoint whose count of accepted clauses may lag behind its queue.
* `Phase` — how far the sharer has come in a round.
* `Relay` — ports, and the sharer between them.
* `Relay.sharerStep` — the next piece of a round.
* `Relay.Action`, `Relay.step`, `Relay.run` — what engines and the sharer do.
* `Relay.Seen` — what the engines see of it.
-/

namespace ClauseLearning

/-- An endpoint.  A clause is put into the queue before it is counted as accepted. -/
structure Port where
  /-- The endpoint. -/
  endpoint : Endpoint
  /-- How many clauses are in the queue, or were, but are not counted yet. -/
  uncounted : Nat := 0
deriving DecidableEq, Repr, Inhabited

namespace Port

/-- The number of the engine. -/
def id (p : Port) : Nat := p.endpoint.id

/-- The first half of an export: a clause is rejected, or put into the queue.  The answer is whether it was
accepted. -/
def offer (p : Port) (literals : List Int) (glue : Nat) : Bool × Port :=
  let (accepted, e) := p.endpoint.offer literals glue
  if accepted then
    (true, { endpoint := { e with accepted := p.endpoint.accepted }, uncounted := p.uncounted + 1 })
  else (false, { p with endpoint := e })

/-- The second half of an export: a clause in the queue is counted as accepted. -/
def count (p : Port) : Port :=
  match p.uncounted with
  | 0 => p
  | n + 1 => { endpoint := { p.endpoint with accepted := p.endpoint.accepted + 1 }, uncounted := n }

end Port

/-- How far the sharer has come in a round. -/
inductive Phase where
  /-- No round is under way. -/
  | idle
  /-- The exports of the ports before the `n`-th were taken. -/
  | gathering (n : Nat)
  /-- A clause was taken from the `n`-th port and is not in the pool yet. -/
  | storing (c : SharedClause) (n : Nat)
  /-- Of `count` clauses that were selected these are left.  The first of them was handed to the ports before the
  `n`-th. -/
  | delivering (count : Nat) (selection : List SharedClause) (n : Nat)
deriving DecidableEq, Repr, Inhabited

/-- Ports with a sharer between them. -/
structure Relay where
  /-- The ports. -/
  ports : List Port
  /-- The sharer. -/
  sharer : Sharer
  /-- How far it has come in a round. -/
  phase : Phase := .idle
deriving DecidableEq, Repr, Inhabited

namespace Relay

/-- Ports with the given numbers and limits of glue, and a sharer of clauses of at most `maxSize` literals. -/
def start (members : List (Nat × Nat)) (maxSize literalLimit : Nat) : Relay :=
  { ports := members.map fun m => { endpoint := { id := m.1, glueLimit := m.2 } }
    sharer := .ofLimits maxSize literalLimit }

/-- The next piece of a round. -/
def sharerStep (x : Relay) : Relay :=
  match x.phase with
  | .idle => { x with phase := .gathering 0 }
  | .gathering n =>
    match x.ports[n]? with
    | some p =>
      match p.endpoint.takeExported with
      | (some c, e) => { x with ports := x.ports.set n { p with endpoint := e }, phase := .storing c n }
      | (none, _) => { x with phase := .gathering (n + 1) }
    | none =>
      let (selection, pool) := x.sharer.pool.give x.sharer.literalLimit
      { x with sharer := { x.sharer with pool }, phase := .delivering selection.length selection 0 }
  | .storing c n => { x with sharer := x.sharer.receive c, phase := .gathering n }
  | .delivering count [] _ =>
    { x with
      sharer := { x.sharer with rounds := x.sharer.rounds + 1, shared := x.sharer.shared + count }
      phase := .idle }
  | .delivering count (c :: cs) n =>
    match x.ports[n]? with
    | some p =>
      { x with
        ports := x.ports.set n { p with endpoint := Sharer.deliverTo c p.endpoint }
        phase := .delivering count (c :: cs) (n + 1) }
    | none => { x with phase := .delivering count cs 0 }

/-- Something that an engine or the sharer does.  Engines are known by the positions of their ports. -/
inductive Action where
  /-- An engine offers a clause. -/
  | offer (a : Nat) (literals : List Int) (glue : Nat)
  /-- A clause that an engine exported is counted. -/
  | count (a : Nat)
  /-- An engine asks for a unit. -/
  | nextUnit (a : Nat)
  /-- An engine asks for another clause. -/
  | nextClause (a : Nat)
  /-- The sharer does the next piece of a round. -/
  | sharer
deriving DecidableEq, Repr

/-- What an engine sees. -/
inductive Seen where
  /-- A clause was offered, and accepted or not. -/
  | offered (id : Nat) (literals : List Int) (glue : Nat) (accepted : Bool)
  /-- A unit was imported. -/
  | unit (id : Nat) (u : Int)
  /-- Another clause was imported. -/
  | clause (id : Nat) (c : SharedClause)
deriving DecidableEq, Repr

/-- What happens, and what is seen of it. -/
def step (x : Relay) : Action → List Seen × Relay
  | .offer a literals glue =>
    match x.ports[a]? with
    | some p =>
      let (accepted, q) := p.offer literals glue
      ([.offered p.id literals glue accepted], { x with ports := x.ports.set a q })
    | none => ([], x)
  | .count a =>
    match x.ports[a]? with
    | some p => ([], { x with ports := x.ports.set a p.count })
    | none => ([], x)
  | .nextUnit a =>
    match x.ports[a]? with
    | some p =>
      match p.endpoint.nextUnit with
      | (some u, e) => ([.unit p.id u], { x with ports := x.ports.set a { p with endpoint := e } })
      | (none, _) => ([], x)
    | none => ([], x)
  | .nextClause a =>
    match x.ports[a]? with
    | some p =>
      match p.endpoint.nextClause with
      | (some c, e) => ([.clause p.id c], { x with ports := x.ports.set a { p with endpoint := e } })
      | (none, _) => ([], x)
    | none => ([], x)
  | .sharer => ([], x.sharerStep)

/-- What happens in a list of actions, and what is seen of it, in order. -/
def run (x : Relay) : List Action → List Seen × Relay
  | [] => ([], x)
  | action :: actions =>
    let (seen, y) := x.step action
    let (rest, z) := y.run actions
    (seen ++ rest, z)

end Relay

end ClauseLearning
