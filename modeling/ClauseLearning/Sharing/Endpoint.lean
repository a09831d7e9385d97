import ClauseLearning.Hooks
import ClauseLearning.Sharing.Fifo

/-!
# Endpoints

What stands between an engine and the sharer: the clauses that the engine exported and the sharer
has not taken yet, and the units and clauses that were delivered and the engine has not imported
yet.

* `Endpoint.offer`, `Endpoint.nextUnit`, `Endpoint.nextClause` — the side of the engine.
* `Endpoint.takeExported`, `Endpoint.deliver` — the side of the sharer.
* `Endpoint.hooks` — the side of the engine, as hooks of its solver.
-/

namespace ClauseLearning

/-- The queues between an engine and the sharer. -/
structure Endpoint where
  /-- The number of the engine. -/
  id : Nat
  /-- The greatest glue with which a clause is accepted for export. -/
  glueLimit : Nat
  /-- Clauses from the engine. -/
  exported : Fifo SharedClause := {}
  /-- Units for the engine. -/
  units : Fifo Int := {}
  /-- Other clauses for the engine. -/
  clauses : Fifo SharedClause := {}
  /-- The count of clauses which were accepted for export. -/
  accepted : Nat := 0
  /-- The count of clauses which were not. -/
  rejected : Nat := 0
deriving DecidableEq, Repr, Inhabited

namespace Endpoint

/-- Accepts a clause for export unless its glue is too great, which it never is for a unit.  The
answer is whether the clause was accepted. -/
def offer (e : Endpoint) (literals : List Int) (glue : Nat) : Bool × Endpoint :=
  if 1 < literals.length ∧ e.glueLimit < glue then (false, { e with rejected := e.rejected + 1 })
  else
    let c : SharedClause := { literals, glue, source := e.id }
    (true, { e with exported := e.exported.push c, accepted := e.accepted + 1 })

/-- Takes the clause which was accepted first. -/
def takeExported (e : Endpoint) : Option SharedClause × Endpoint :=
  let (c, exported) := e.exported.take
  (c, { e with exported })

/-- Delivers a clause to the engine. -/
def deliver (e : Endpoint) (c : SharedClause) : Endpoint :=
  match c.literals with
  | [unit] => { e with units := e.units.push unit }
  | _ => { e with clauses := e.clauses.push c }

/-- Takes the unit which was delivered first. -/
def nextUnit (e : Endpoint) : Option Int × Endpoint :=
  let (u, units) := e.units.take
  (u, { e with units })

/-- Takes the clause which was delivered first. -/
def nextClause (e : Endpoint) : Option SharedClause × Endpoint :=
  let (c, clauses) := e.clauses.take
  (c, { e with clauses })

/-- The units, as a source. -/
def unitSource : Source Endpoint Int where
  next := nextUnit
  size e := e.units.size
  size_lt := by
    intro e e' u h
    simp only [nextUnit, Prod.mk.injEq] at h
    obtain ⟨hu, rfl⟩ := h
    exact Fifo.size_take_lt hu

/-- The clauses, as a source. -/
def clauseSource : Source Endpoint SharedClause where
  next := nextClause
  size e := e.clauses.size
  size_lt := by
    intro e e' c h
    simp only [nextClause, Prod.mk.injEq] at h
    obtain ⟨hc, rfl⟩ := h
    exact Fifo.size_take_lt hc

/-- An endpoint as what is outside of a solver. -/
def hooks : Hooks Endpoint where
  exportClause := some fun literals glue e => e.offer literals glue
  units := some unitSource
  clauses := some clauseSource

end Endpoint

end ClauseLearning
