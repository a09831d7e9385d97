import ClauseLearning.Hooks

/-!
# A peer with a script

Something outside of a solver whose behaviour is laid down beforehand: it hands out given units and
clauses one after another, accepts clauses up to a size and a glue, and asks the solver to stop when it
was polled often enough.  It keeps a log of the clauses that it was offered.

* `Peer` — the script and the log.
* `Peer.poll`, `Peer.offer`, `Peer.unitSource`, `Peer.clauseSource` — what it does.
* `Peer.hooks` — a peer as what is outside of a solver.
-/

namespace ClauseLearning

/-- A clause which was offered. -/
structure Offer where
  /-- The external literals of the clause. -/
  literals : List Int
  /-- Its glue. -/
  glue : Nat
  /-- Whether it was accepted. -/
  accepted : Bool
deriving DecidableEq, Repr, Inhabited

/-- A peer with a script. -/
structure Peer where
  /-- How often it was asked whether to stop. -/
  polls : Nat := 0
  /-- How often it may be asked before it says so. -/
  patience : Nat := 0
  /-- The units to hand out.  Where there is none, it has no more for once. -/
  units : List (Option Int) := []
  /-- The clauses to hand out.  Where there is none, it has no more for once. -/
  clauses : List (Option SharedClause) := []
  /-- The most literals that a clause may have to be accepted. -/
  sizeLimit : Nat := 0
  /-- The greatest glue that a clause may have to be accepted. -/
  glueLimit : Nat := 0
  /-- The clauses which were offered, the last one first. -/
  log : List Offer := []
deriving DecidableEq, Repr, Inhabited

namespace Peer

/-- Is asked whether to stop. -/
def poll (p : Peer) : Bool × Peer :=
  let p := { p with polls := p.polls + 1 }
  (p.patience < p.polls, p)

/-- Is offered a clause. -/
def offer (literals : List Int) (glue : Nat) (p : Peer) : Bool × Peer :=
  let accepted := literals.length ≤ p.sizeLimit && glue ≤ p.glueLimit
  (accepted, { p with log := { literals, glue, accepted } :: p.log })

/-- The offers in order, and a peer with an empty log. -/
def takeLog (p : Peer) : List Offer × Peer := (p.log.reverse, { p with log := [] })

/-- Hands out the next unit of the script. -/
def nextUnit (p : Peer) : Option Int × Peer :=
  match p.units with
  | [] => (none, p)
  | u :: units => (u, { p with units })

/-- Hands out the next clause of the script. -/
def nextClause (p : Peer) : Option SharedClause × Peer :=
  match p.clauses with
  | [] => (none, p)
  | c :: clauses => (c, { p with clauses })

/-- The units of the script, as a source. -/
def unitSource : Source Peer Int where
  next := nextUnit
  size p := p.units.length
  size_lt := by
    intro p p' u h
    unfold nextUnit at h
    split at h
    · simp at h
    · next hu =>
      simp only [Prod.mk.injEq] at h
      obtain ⟨-, rfl⟩ := h
      simp [hu]

/-- The clauses of the script, as a source. -/
def clauseSource : Source Peer SharedClause where
  next := nextClause
  size p := p.clauses.length
  size_lt := by
    intro p p' c h
    unfold nextClause at h
    split at h
    · simp at h
    · next hc =>
      simp only [Prod.mk.injEq] at h
      obtain ⟨-, rfl⟩ := h
      simp [hc]

/-- A peer as what is outside of a solver. -/
def hooks : Hooks Peer where
  terminate := some poll
  exportClause := some offer
  units := some unitSource
  clauses := some clauseSource

end Peer

end ClauseLearning
