import ClauseLearning.Sharing.Endpoint
import ClauseLearning.Sharing.Pool

/-!
# The sharer

The sharer gathers what the engines export, keeps it in a pool, and delivers a selection to every
engine but the one a clause comes from.

* `Sharer.gather`, `Sharer.distribute` — the two halves of a round.
* `Sharer.round` — a whole round.
-/

namespace ClauseLearning

/-- A pool of clauses, and counts of what was done with them. -/
structure Sharer where
  /-- The clauses that wait to be delivered. -/
  pool : Pool
  /-- The limit on the literals of a selection. -/
  literalLimit : Nat
  /-- The count of rounds. -/
  rounds : Nat := 0
  /-- The count of clauses delivered. -/
  shared : Nat := 0
  /-- The count of clauses for which the pool had no room. -/
  dropped : Nat := 0
deriving DecidableEq, Repr, Inhabited

namespace Sharer

/-- A sharer of clauses of at most `maxSize` literals. -/
def ofLimits (maxSize literalLimit : Nat) : Sharer := { pool := .ofMaxSize maxSize, literalLimit }

/-- Puts a clause into the pool, or drops it. -/
def receive (s : Sharer) (c : SharedClause) : Sharer :=
  match s.pool.add c with
  | (true, pool) => { s with pool }
  | (false, pool) => { s with pool, dropped := s.dropped + 1 }

/-- Takes everything that an engine exported. -/
def gather (s : Sharer) (e : Endpoint) : Sharer × Endpoint :=
  (e.exported.toList.foldl receive s, { e with exported := {} })

/-- Takes everything that the engines exported, engine by engine. -/
def gatherAll (s : Sharer) : List Endpoint → Sharer × List Endpoint
  | [] => (s, [])
  | e :: es =>
    let (s, e) := s.gather e
    let (s, es) := s.gatherAll es
    (s, e :: es)

/-- Delivers a clause to an engine, unless it comes from there. -/
def deliverTo (c : SharedClause) (e : Endpoint) : Endpoint :=
  if e.id = c.source then e else e.deliver c

/-- Takes a selection out of the pool, which ends a round as far as the pool is concerned. -/
def select (s : Sharer) : List SharedClause × Sharer :=
  let (selection, pool) := s.pool.give s.literalLimit
  (selection, { s with pool, rounds := s.rounds + 1, shared := s.shared + selection.length })

/-- Delivers a selection of the pool to the engines.  The answer is the count of clauses. -/
def distribute (s : Sharer) (es : List Endpoint) : Nat × Sharer × List Endpoint :=
  let (selection, s) := s.select
  (selection.length, s, es.map fun e => selection.foldl (fun e c => deliverTo c e) e)

/-- A round: everything is gathered, and a selection is delivered. -/
def round (s : Sharer) (es : List Endpoint) : Nat × Sharer × List Endpoint :=
  let (s, es) := s.gatherAll es
  s.distribute es

end Sharer

end ClauseLearning
