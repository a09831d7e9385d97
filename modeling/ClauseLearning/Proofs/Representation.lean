import ClauseLearning.Proofs.Ordering

/-!
# No variable is lost

Only the active order is kept up to date, and each of the two is so in a way of its own.  The heap of scores drops
assigned variables when they come up, and the queue only moves the place where its searches begin.  Still every
variable that may be decided is found, whatever the scores are and in whatever order calls are made.

* `Solver.Shift` — a call, or a change of the active order between calls.
* `Solver.Stands.order`, `Solver.Shift.stands` — what holds at a moment does not depend on the order of decision.
* `Solver.Stir`, `Solver.Stir.shaped` — decisions, propagation and the like at any time.
* `Solver.Finds` — what the active order has to offer.
* `Solver.orders_find` — it has to offer that much in every state.
-/

namespace ClauseLearning

namespace Solver

variable {ε : Type}

/-! ## Between calls -/

/-- Variables are bumped. -/
def bumped (s : Solver ε) (vs : List Nat) (conflicts : Nat) : Solver ε :=
  { s with orders := (s.orders.bump s.assignment vs conflicts).2 }

/-- A score turns out to be some number, or none at all. -/
def scored (s : Solver ε) (v : Nat) (score : Float) : Solver ε :=
  { s with orders.scores.heap := s.orders.scores.heap.setValue v score }

/-- A call at a moment at which it may be made, or a change of the active order at any moment. -/
inductive Shift : Moment × Solver ε → Moment × Solver ε → Prop
  /-- A call. -/
  | move {x y} : Move x y → Shift x y
  /-- Variables are bumped. -/
  | bump {moment s} (vs : List Nat) (conflicts : Nat) : Shift (moment, s) (moment, s.bumped vs conflicts)
  /-- A score changes. -/
  | score {moment s} (v : Nat) (score : Float) : Shift (moment, s) (moment, s.scored v score)

variable {lags : Prop} {s s' : Solver ε} {x y : Moment × Solver ε} {moment : Moment} {orders : Orders}

theorem Frame.bump (h : s.Frame) (vs : List Nat) (conflicts : Nat) :
    (s.bumped vs conflicts).orders.Valid s.numbering.size s.numbering.Usable ∧
      (s.bumped vs conflicts).orders.Covers s.Free := by
  have hiff : ∀ v, s.Free v ↔ s.numbering.Usable v ∧ s.assignment.valueOf v = .unassigned := fun _ => Iff.rfl
  obtain ⟨ho, hc, -⟩ := h.orders.bump hiff h.covers vs conflicts
  exact ⟨ho, hc⟩

theorem Frame.score (h : s.Frame) (v : Nat) (score : Float) :
    (s.scored v score).orders.Valid s.numbering.size s.numbering.Usable ∧ (s.scored v score).orders.Covers s.Free :=
  h.orders.rescored h.covers (Scores.rescored_setValue h.orders.heap v score)

section Order

variable (ho : orders.Valid s.numbering.size s.numbering.Usable) (hc : orders.Covers s.Free)
include ho hc

theorem Inv.order {p : Nat} (h : s.Inv lags p) : Inv lags { s with orders } p :=
  { h with
    toFrame := { h.toFrame with orders := ho, covers := hc }
    toWired := { h.toWired with }
    toClean := { h.toClean with } }

theorem Conflicted.order {key : Key} (h : Conflicted lags s key) : Conflicted lags { s with orders } key := by
  obtain ⟨⟨p, hp, hle, hlev⟩, hconf⟩ := h
  exact ⟨⟨p, hp.order ho hc, hle, hlev⟩, { hconf with }⟩

theorem Loaded.order {F : List (List Literal)} (h : s.Loaded lags F) : Loaded lags F { s with orders } := by
  obtain ⟨p, hp, hfull⟩ := h.settled
  exact
    { h with
      settled := ⟨p, hp.order ho hc, hfull⟩
      holds := fun v hv => { h.holds v hv with }
      base := fun hi v hv => h.base hi v { hv with } }

theorem Analyzed.order {S : Solver ε} {jump glue : Nat} (h : Analyzed lags S s jump glue) :
    Analyzed lags S { s with orders } jump glue := by
  obtain ⟨a, rest, hl, hass, hsat⟩ := h.learned
  exact
    { h with
      inv := fun p hp => (h.inv p hp).order ho hc
      refines := h.refines.trans
        ⟨rfl, rfl, rfl, rfl, rfl, rfl, rfl, id, fun v hv => { hv with }, fun v hv => { hv with }⟩
      learned := ⟨a, rest, hl, { hass with }, hsat⟩ }

/-- What holds at a moment holds with another order of decision that covers as much. -/
theorem Stands.order (h : Stands (moment, s)) : Stands (moment, { s with orders }) := by
  cases moment with
  | adding =>
    obtain ⟨F, hF⟩ := h
    exact ⟨F, Loaded.order ho hc hF⟩
  | underway => exact ⟨h.inv.order ho hc, h.consistent⟩
  | quiet => exact ⟨h.1.order ho hc, h.2⟩
  | conflicted key => exact ⟨Conflicted.order ho hc h.1, h.2⟩
  | analyzed jump glue =>
    obtain ⟨hi, key, S, hconf, ha⟩ := h
    exact ⟨hi, key, S, hconf, ha.order ho hc⟩
  | closed =>
    obtain ⟨p, hp, hfull⟩ := h
    exact ⟨p, hp.order ho hc, hfull⟩

end Order

/-- Calls and changes of the active order keep what holds. -/
theorem Shift.stands (h : Shift x y) (hx : Stands x) : Stands y := by
  cases h with
  | move h => exact h.stands hx
  | @bump moment s vs conflicts =>
    obtain ⟨ho, hc⟩ := hx.intact.frame.bump vs conflicts
    exact hx.order ho hc
  | @score moment s v score =>
    obtain ⟨ho, hc⟩ := hx.intact.frame.score v score
    exact hx.order ho hc

/-! ## At any time -/

/-- Decisions, propagation and the like, made at any time. -/
inductive Stir : Solver ε → Solver ε → Prop
  /-- The next variable is decided, if there is one. -/
  | decide {s : Solver ε} : Stir s s.decide.2
  /-- A literal that may be decided is. -/
  | decideLiteral {s : Solver ε} {l : Literal} : s.Free l.var → Stir s (s.decideLiteral l)
  /-- Everything is propagated. -/
  | propagate {s s' : Solver ε} : propagate s = .ok () s' → Stir s s'
  /-- Not everything can be. -/
  | conflict {s s' : Solver ε} {e : Fault} : Solver.propagate s = .error e s' → Stir s s'
  /-- Variables are bumped. -/
  | bump {s : Solver ε} (vs : List Nat) (conflicts : Nat) : Stir s (s.bumped vs conflicts)
  /-- A score changes. -/
  | score {s : Solver ε} (v : Nat) (score : Float) : Stir s (s.scored v score)
  /-- Levels are taken back. -/
  | backtrack {s : Solver ε} (k : Nat) : Stir s (s.backtrack k)
  /-- A restart. -/
  | restart {s : Solver ε} : Stir s s.restart
  /-- A reset of phases. -/
  | rephase {s : Solver ε} : Stir s s.rephase.2
  /-- A mode is entered. -/
  | enterMode {s : Solver ε} (stable : Bool) : Stir s (s.enterMode stable)
  /-- A change of the mode. -/
  | switchMode {s : Solver ε} : Stir s s.switchMode

theorem Stir.shaped (h : Stir s s') (hs : s.Shaped) : s'.Shaped := by
  cases h with
  | decide => exact hs.decides.1
  | @decideLiteral l hfree =>
    have hval := (hs.frame.val_make l.var l.positive).2 hfree.2
    rw [Literal.make_var_positive] at hval
    exact hs.decideLiteral hfree.1 hval
  | propagate he => exact hs.ends_propagate.of_ok he
  | conflict he => exact hs.ends_propagate.of_error he
  | bump vs conflicts =>
    obtain ⟨ho, hc⟩ := hs.frame.bump vs conflicts
    exact hs.order ho hc
  | score v score =>
    obtain ⟨ho, hc⟩ := hs.frame.score v score
    exact hs.order ho hc
  | backtrack k => exact hs.backtrack k
  | restart => exact hs.restart
  | rephase => exact hs.aside (aside_rephase s)
  | enterMode stable => exact (hs.enterMode stable).1
  | switchMode => exact hs.switchMode.1

/-! ## What is found -/

/-- What the active order has to offer: every variable that may be decided, in either mode. -/
structure Finds (s : Solver ε) : Prop where
  /-- Every variable that is neither assigned nor eliminated is represented. -/
  represents : ∀ v, s.Free v → s.orders.represents v = true
  /-- A decision finds nothing where all variables are assigned, and only there. -/
  none_iff : s.decide.1 = none ↔ s.unassigned = 0
  /-- What it finds is neither assigned nor eliminated. -/
  free : ∀ l, s.decide.1 = some l → s.Free l.var
  /-- After a mode was entered, the order is that of the mode. -/
  entered : ∀ stable, (s.enterMode stable).orders.stable = stable ∧
    ∀ v, (s.enterMode stable).Free v → (s.enterMode stable).orders.represents v = true
  /-- After a change of the mode, it is that of the other mode. -/
  switched : s.switchMode.orders.stable = (!s.orders.stable) ∧
    ∀ v, s.switchMode.Free v → s.switchMode.orders.represents v = true

theorem Shaped.represents (h : s.Shaped) (v : Nat) (hv : s.Free v) : s.orders.represents v = true := by
  have hcovers : s.orders.Covers s.Free := h.frame.covers
  exact h.frame.orders.represents hcovers (fun _ hw => hw.1) hv

theorem Shaped.finds (h : s.Shaped) : s.Finds where
  represents := h.represents
  none_iff := h.decides.2.2
  free := h.decides.2.1
  entered stable :=
    have hs := h.enterMode stable
    ⟨hs.2, hs.1.represents⟩
  switched := ⟨h.switchMode.2, h.switchMode.1.represents⟩

variable {C : Settings} {hooks : Hooks ε} {limits : Limits} {stopped : Bool} {outside : ε}

theorem stands_of_shifts {x : Moment × Solver ε}
    (h : Relation.ReflTransGen Shift (.adding, fresh C hooks limits stopped outside) x) : Stands x := by
  induction h with
  | refl => exact Reached.stands .refl
  | tail _ hshift ih => exact hshift.stands ih

theorem Shaped.stirred (h : s.Shaped) (hs : Relation.ReflTransGen Stir s s') : s'.Shaped := by
  induction hs with
  | refl => exact h
  | tail _ hstir ih => exact hstir.shaped ih

/-- No variable is ever lost by the active order: not by calls, nor by changes of the order between them, nor by
decisions and the like at any time after that. -/
theorem orders_find (hx : Relation.ReflTransGen Shift (.adding, fresh C hooks limits stopped outside) (moment, s))
    (hs : Relation.ReflTransGen Stir s s') : s'.Finds := by
  obtain ⟨p, hp⟩ := (stands_of_shifts hx).intact
  exact (hp.shaped.stirred hs).finds

/-- Two clauses on three variables, with one level begun.  Variables are bumped, the score of one is set, the level is
taken back, and the mode is changed. -/
theorem orders_find_switched : ∃ (moment : Moment) (s s' : Solver Unit),
    Relation.ReflTransGen Shift (.adding, fresh {} {} {} false ()) (moment, s) ∧ 0 < s.trail.level ∧
      Relation.ReflTransGen Stir s s' ∧ s'.Finds := by
  obtain ⟨s₀, place, s, hload, hrun, htest⟩ := exists_trial (fresh {} {} {} false ())
    [.clause [1, 2, 3], .clause [-1, -2]] 1 (fun _ s => 0 < s.trail.level) (by decide +kernel)
  have hmoves : Relation.ReflTransGen Shift (.adding, fresh {} {} {} false ()) (place.moment, s) :=
    (Run.reached hload hrun).lift id fun _ _ => .move
  have hbump : Relation.ReflTransGen Shift (.adding, fresh {} {} {} false ()) (place.moment, s.bumped [2, 0] 7) :=
    hmoves.tail (.bump [2, 0] 7)
  have hstirs : Relation.ReflTransGen Stir (s.bumped [2, 0] 7)
      (((s.bumped [2, 0] 7).scored 1 2.5).backtrack 0).switchMode :=
    ((Relation.ReflTransGen.single (.score 1 2.5)).tail (.backtrack 0)).tail .switchMode
  exact ⟨_, _, _, hbump, of_decide_eq_true htest, hstirs, orders_find hbump hstirs⟩

end Solver

end ClauseLearning
