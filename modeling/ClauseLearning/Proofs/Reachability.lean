import ClauseLearning.Proofs.Lasting

/-!
# Reachable states

A solve calls the procedures of a solver in an order of its own.  Much of what holds in a solve does not depend on
that order, but only on what each procedure is called on.  So a state is reachable if some calls lead there, of which
each is made at a moment at which it may be made.  All that a run comes to is reachable.

* `Moment`, `Solver.Move`, `Solver.Reached` — moments, calls, and reachable states.
* `Solver.calls_induct`, `Solver.Run.reached` — where calls that add something come to, and a run.
* `Solver.Stands`, `Solver.Move.stands` — what holds at a moment, and that calls keep it.
* `Solver.Reached.stands`, `Solver.Reached.saved` — what holds of every reachable state.
* `Solver.Reached.lasting` — what lasts from one reachable state to a later one.
-/

namespace ClauseLearning

/-- What may be done with a solver next. -/
inductive Moment where
  /-- Clauses may be added. -/
  | adding
  /-- Literals may be left to be propagated. -/
  | underway
  /-- Propagation came to its end, and nothing was assigned since. -/
  | quiet
  /-- Propagation ended in a conflict. -/
  | conflicted (key : Key)
  /-- A conflict was analyzed. -/
  | analyzed (jump glue : Nat)
  /-- Nothing. -/
  | closed
deriving DecidableEq, Repr

/-- The moment at a place of a run. -/
def Place.moment : Place → Moment
  | .loaded => .adding
  | .ready => .underway
  | .imported => .underway
  | .propagated => .quiet
  | .conflicted key => .conflicted key
  | .analyzed jump glue => .analyzed jump glue
  | .ended _ => .closed
  | .failed _ => .closed

namespace Solver

variable {ε : Type}

/-- The moment after something was taken over, which may have been a refutation. -/
def moment (s : Solver ε) : Moment := if s.inconsistent then .closed else .underway

/-- One call at a moment at which it may be made. -/
inductive Move : Moment × Solver ε → Moment × Solver ε → Prop
  /-- A step of a solve.  No solve is under way after a refutation. -/
  | step {x y} : Step false x y → (x.1 = .propagated → x.2.inconsistent = false) →
      Move (x.1.moment, x.2) (y.1.moment, y.2)
  /-- Something is added to the formula. -/
  | add {s s' c} : Call.run c s = .ok () s' → Move (.adding, s) (.adding, s')
  /-- It cannot be added. -/
  | refuse {s s' c e} : Call.run c s = .error e s' → Move (.adding, s) (.adding, s')
  /-- The formula is complete. -/
  | settle {s} : s.inconsistent = false → Move (.adding, s) (.underway, s)
  /-- What is outside changes. -/
  | outside {s} (e) : Move (.underway, s) (.underway, { s with outside := e })
  /-- A unit is taken over. -/
  | importUnit {s} (e) : s.trail.level = 0 → Move (.underway, s) ((s.importUnit e).moment, s.importUnit e)
  /-- A clause is taken over. -/
  | importClause {s s' clause glue} : s.trail.level = 0 → importClause clause glue s = .ok () s' →
      Move (.underway, s) (s'.moment, s')
  /-- All units that are handed out are taken over. -/
  | importUnits {s s'} : s.trail.level = 0 → importUnits s = .ok () s' → Move (.underway, s) (s'.moment, s')
  /-- All clauses that are handed out are taken over. -/
  | importClauses {s s'} : s.trail.level = 0 → importClauses s = .ok () s' → Move (.underway, s) (s'.moment, s')
  /-- Pure literals are eliminated. -/
  | preprocess {s s'} : s.trail.level = 0 → preprocess s = .ok () s' → Move (.underway, s) (s'.moment, s')
  /-- The next literal is propagated. -/
  | next {s s' l trail} : s.trail.next? = some (l, trail) → propagateLiteral l { s with trail } = .ok () s' →
      Move (.underway, s) (.underway, s')
  /-- It cannot be, since a clause is false. -/
  | clash {s s' l trail key} : s.trail.next? = some (l, trail) →
      propagateLiteral l { s with trail } = .error (.conflict key) s' → Move (.underway, s) (.conflicted key, s')
  /-- Every literal is propagated. -/
  | propagate {s s'} : propagate s = .ok () s' → Move (.underway, s) (.quiet, s')
  /-- Not every literal can be. -/
  | conflict {s s' key} : Solver.propagate s = .error (.conflict key) s' → Move (.underway, s) (.conflicted key, s')
  /-- Levels are taken back in the middle of a propagation. -/
  | backtrack {s} (k) : Move (.underway, s) (.underway, s.backtrack k)
  /-- Levels are taken back after a propagation. -/
  | unwind {s} (k) : Move (.quiet, s) (.quiet, s.backtrack k)
  /-- Levels are taken back after a conflict. -/
  | flee {s key} {k : Nat} : k < s.trail.level → Move (.conflicted key, s) (.underway, s.backtrack k)
  /-- Levels are taken back after an analysis. -/
  | forgo {s jump glue} {k : Nat} : k < s.trail.level → Move (.analyzed jump glue, s) (.underway, s.backtrack k)
  /-- Something is to be assigned again. -/
  | resume {s} : s.inconsistent = false → Move (.quiet, s) (.underway, s)
  /-- A literal is decided. -/
  | decide {s} : s.inconsistent = false → s.iterating = false → s.unassigned ≠ 0 →
      Move (.quiet, s) (.underway, s.decide.2)
  /-- A refutation is noted. -/
  | refute {s} : Move (.quiet, s) (.quiet, s.refute)
  /-- What is added after that makes room for variables and no more. -/
  | grow {s n} (status pending) : n ≤ Numbering.greatestExternal →
      Move (.quiet, s) (.quiet, ensureVariables { s with numbering := s.numbering.growTo n, status, pending })
  /-- A restart. -/
  | restart {s} : Move (.quiet, s) (.quiet, s.restart)
  /-- A reset of phases. -/
  | rephase {s} : Move (.quiet, s) (.quiet, s.rephase.2)
  /-- A change of the mode. -/
  | switchMode {s} : Move (.quiet, s) (.quiet, s.switchMode)
  /-- A mode is entered. -/
  | enterMode {s} (stable) : Move (.quiet, s) (.quiet, s.enterMode stable)
  /-- Clauses are marked as garbage, or something else is noted about them. -/
  | mark {s store} : Store.Alike s.store store → (∀ o ∈ s.store.offsets,
      (store.flagsAt o).redundant = (s.store.flagsAt o).redundant ∧
        (store.flagsAt o).reason = (s.store.flagsAt o).reason) →
      Move (.quiet, s) (.quiet, { s with store })
  /-- A reduction. -/
  | reduce {s s'} : reduce s = .ok () s' → Move (.quiet, s) (.quiet, s')
  /-- A simplification. -/
  | simplify {s s'} : s.trail.level = 0 → s.inconsistent = false → simplify s = .ok () s' →
      Move (.quiet, s) (.quiet, s')
  /-- A round of the elimination of pure literals. -/
  | eliminatePure {s s' n} : s.trail.level = 0 → eliminatePure s = .ok n s' → Move (.quiet, s) (.quiet, s')
  /-- A collection. -/
  | collect {s s' start mode} : s.store.Stop start → collect start mode s = .ok () s' → Move (.quiet, s) (.quiet, s')

/-- A state can be reached from a solver before any clause was added. -/
abbrev Reached (C : Settings) (hooks : Hooks ε) (limits : Limits) (stopped : Bool) (outside : ε)
    (x : Moment × Solver ε) : Prop :=
  Relation.ReflTransGen Move (.adding, fresh C hooks limits stopped outside) x

variable {s s' : Solver ε} {x y : Moment × Solver ε} {place : Place} {moment : Moment}

/-! ## What holds at a moment -/

/-- What holds at a moment. -/
def Stands : Moment × Solver ε → Prop
  | (.adding, s) => ∃ F, At false F (.loaded, s)
  | (.underway, s) => s.Live (false = false)
  | (.quiet, s) => s.Inv (false = false) s.trail.size ∧ s.trail.propagated = s.trail.size
  | (.conflicted key, s) => At false [] (.conflicted key, s)
  | (.analyzed jump glue, s) => At false [] (.analyzed jump glue, s)
  | (.closed, s) => s.Settled (false = false)

theorem At.stands {F : List (List Literal)} (h : At false F (place, s)) : Stands (place.moment, s) := by
  cases place with
  | loaded => exact ⟨F, h⟩
  | propagated => exact ⟨h.inv, h.full⟩
  | ended r =>
    obtain ⟨s₁, ha, rfl⟩ := h
    exact ha.settled.conclude r
  | failed e => exact h.2
  | ready | imported | conflicted key | analyzed jump glue => exact h

/-- What holds at the moment before a step holds at its place. -/
theorem Step.exists_at {x y : Place × Solver ε} (h : Step false x y)
    (hc : x.1 = .propagated → x.2.inconsistent = false) (hx : Stands (x.1.moment, x.2)) : ∃ F, At false F x := by
  obtain ⟨place, s⟩ := x
  cases place with
  | loaded => exact hx
  | propagated => exact ⟨[], hx.1, hx.2, hc rfl⟩
  | ended r => cases h
  | failed e => cases h
  | ready | imported | conflicted key | analyzed jump glue => exact ⟨[], hx⟩

theorem Step.stands {x y : Place × Solver ε} (h : Step false x y)
    (hc : x.1 = .propagated → x.2.inconsistent = false) (hx : Stands (x.1.moment, x.2)) :
    Stands (y.1.moment, y.2) := by
  obtain ⟨F, hF⟩ := h.exists_at hc hx
  exact (h.at hF).1.stands

theorem Settled.stands (h : s.Settled (false = false)) : Stands (s.moment, s) := by
  unfold Solver.moment
  split
  · exact h
  · next hi => exact h.live (Bool.not_eq_true _ ▸ hi)

theorem Stands.intact (h : Stands (moment, s)) : s.Intact (false = false) := by
  cases moment with
  | adding => exact h.choose_spec.intact
  | underway => exact h.inv.intact
  | quiet => exact h.1.intact
  | conflicted key => exact (show At false [] (.conflicted key, s) from h).intact
  | analyzed jump glue => exact (show At false [] (.analyzed jump glue, s) from h).intact
  | closed => exact Settled.intact h

/-- At the root propagation may go on, unless it found a conflict or there was a refutation. -/
theorem Stands.live (h : Stands (moment, s)) (hm : ∀ key, moment ≠ .conflicted key) (h0 : s.trail.level = 0)
    (hi : s.inconsistent = false) : s.Live (false = false) := by
  cases moment with
  | adding =>
    obtain ⟨F, hF⟩ := h
    exact hF.settled.live hi
  | underway => exact h
  | quiet => exact Quiet.live ⟨h.1, h.2, hi⟩
  | conflicted key => exact absurd rfl (hm key)
  | analyzed jump glue =>
    -- what is learnt from a conflict at the root is a refutation
    obtain ⟨-, key, S, -, ha⟩ := h
    obtain ⟨a, rest, -, hass, -⟩ := ha.learned
    exact absurd hass.below (by omega)
  | closed => exact Settled.live h hi

/-- Levels are taken back where the levels below the current one were gone through. -/
theorem Inv.live_backtrack {p k : Nat} (h : s.Inv (false = false) p) (hk : k < s.trail.level)
    (hp : s.trail.levelStart s.trail.level ≤ p) (hi : s.inconsistent = false) :
    (s.backtrack k).Live (false = false) := by
  obtain ⟨-, -, hprop, -⟩ := h.toFrame.backtrack_trail hk
  exact ⟨hprop ▸ h.backtrack hk hp, (backtrack_same s k).1.trans hi⟩

/-- One literal is propagated. -/
theorem Inv.ends_next {lags : Prop} {l : Literal} {trail : Trail} (h : s.Inv lags s.trail.propagated)
    (hn : s.trail.next? = some (l, trail)) :
    Ends (propagateLiteral l) { s with trail }
      (fun _ s' => s'.Inv lags s'.trail.propagated ∧ Kept { s with trail } s')
      (fun e s' => ∃ key, e = .conflict key ∧ Conflicted lags s' key ∧ Kept { s with trail } s') := by
  by_cases hlt : s.trail.propagated < s.trail.size
  · rw [Trail.next?_of_lt hlt, Option.some.injEq, Prod.mk.injEq] at hn
    obtain ⟨rfl, rfl⟩ := hn
    have h₁ : Inv lags { s with trail := { s.trail with propagated := s.trail.propagated + 1 } }
        s.trail.propagated :=
      { h with trail := h.trail.step hlt, guarded := h.guarded.of_literals rfl }
    refine (ends_propagateLiteral h₁ hlt rfl h.trail.below).imp (fun _ s' h' => ?_) fun _ _ h' => h'
    obtain ⟨hinv, hk, hp⟩ := h'
    exact ⟨hp.symm ▸ hinv, hk⟩
  · rw [Trail.next?_of_le (Nat.le_of_not_lt hlt)] at hn
    exact absurd hn (by simp)

/-- What a collection or the like leaves behind. -/
theorem Trimmed.stands {lags : Prop} (h : Trimmed lags s s') (hfull : s.trail.propagated = s.trail.size) :
    s'.Inv lags s'.trail.size ∧ s'.trail.propagated = s'.trail.size := by
  have hfull' : s'.trail.propagated = s'.trail.size := by rw [h.trail, hfull]
  exact ⟨hfull' ▸ h.inv, hfull'⟩

/-- A call keeps what holds. -/
theorem Move.stands (h : Move x y) (hx : Stands x) : Stands y := by
  cases h with
  | step h hc => exact h.stands hc hx
  | add he =>
    obtain ⟨F, hF⟩ := hx
    exact (hF.ends_call _).of_ok he |>.1
  | refuse he =>
    obtain ⟨F, hF⟩ := hx
    exact ⟨F, ((hF.ends_call _).of_error he).1⟩
  | settle hi =>
    obtain ⟨F, hF⟩ := hx
    exact hF.settled.live hi
  | outside e => exact (hx.settled.outside e).live hx.consistent
  | importUnit e h0 => exact (taken_importUnit hx.inv h0 e).settled.stands
  | importClause h0 he => exact ((ends_importClause hx.inv h0 _ _).of_ok he).settled.stands
  | importUnits h0 he => exact ((ends_importUnits hx.settled h0).of_ok he).settled.stands
  | importClauses h0 he => exact ((ends_importClauses hx.settled h0).of_ok he).settled.stands
  | preprocess h0 he => exact ((ends_preprocess hx.inv h0).of_ok he).1.stands
  | next hn he =>
    obtain ⟨hinv, hk⟩ := (hx.inv.ends_next hn).of_ok he
    exact ⟨hinv, hk.inconsistent.trans hx.consistent⟩
  | clash hn he =>
    obtain ⟨key, hkey, hc, hk⟩ := (hx.inv.ends_next hn).of_error he
    obtain rfl := Fault.conflict.inj hkey
    exact ⟨hc, hk.inconsistent.trans hx.consistent⟩
  | propagate he =>
    obtain ⟨hinv, hfull, -⟩ := (ends_propagate hx.inv).of_ok he
    exact ⟨hfull ▸ hinv, hfull⟩
  | conflict he =>
    obtain ⟨key, hkey, hc, hk⟩ := (ends_propagate hx.inv).of_error he
    obtain rfl := Fault.conflict.inj hkey
    exact ⟨hc, hk.inconsistent.trans hx.consistent⟩
  | @backtrack s k =>
    by_cases hk : k < s.trail.level
    · exact hx.inv.live_backtrack hk hx.inv.trail.below hx.consistent
    · rw [backtrack_of_le s (Nat.le_of_not_lt hk)]
      exact hx
  | @unwind s k =>
    by_cases hk : k < s.trail.level
    · obtain ⟨-, -, hprop, -⟩ := hx.1.toFrame.backtrack_trail hk
      exact ⟨hx.1.backtrack hk (hx.2 ▸ hx.1.trail.below), hprop⟩
    · rw [backtrack_of_le s (Nat.le_of_not_lt hk)]
      exact hx
  | flee hk =>
    obtain ⟨p, hp, -, hlev⟩ := hx.1.inv
    exact hp.live_backtrack hk hlev hx.2
  | forgo hk =>
    obtain ⟨hi, key, S, hc, ha⟩ := hx
    obtain ⟨p, hp, -, hlev⟩ := hc.inv
    exact (ha.inv p hp).live_backtrack hk (by rw [ha.trail]; exact hlev) hi
  | resume hi => exact ⟨hx.2.symm ▸ hx.1, hi⟩
  | decide hi hit hu =>
    obtain ⟨l, o, c, he, -, -, hinv, -⟩ := hx.1.decide (Nat.le_refl _) hx.2 hit hu
    rw [he]
    exact ⟨hx.2.symm ▸ hinv, hi⟩
  | refute => exact ⟨hx.1.refute, hx.2⟩
  | @grow s n status pending hn =>
    obtain ⟨hinv, hfull⟩ := hx
    have h₁ : Inv (false = false) { s with status, pending } s.trail.size :=
      { hinv with toFrame := { hinv.toFrame with }, toWired := { hinv.toWired with }, toClean := { hinv.toClean with } }
    have h₂ := h₁.ensureVariables hn
    obtain ⟨a, w, ph, o, m, k, he⟩ :=
      ensureVariables_eq { s with numbering := s.numbering.growTo n, status, pending }
    rw [he] at h₂ ⊢
    exact ⟨h₂, hfull⟩
  | restart =>
    have h := hx.1.restart hx.2
    exact ⟨h.inv, h.full⟩
  | @rephase s =>
    have ha := aside_rephase s
    exact ⟨by rw [ha.trail]; exact ha.inv hx.1, by rw [ha.trail]; exact hx.2⟩
  | switchMode =>
    have h := hx.1.switchMode hx.2
    exact ⟨h.inv, h.full⟩
  | @enterMode s stable =>
    have h := (hx.1.enterMode stable).1
    obtain ⟨r, l, ph, he⟩ := enterMode_eq s stable
    rw [he] at h ⊢
    exact ⟨h, hx.2⟩
  | mark ha hflags =>
    obtain ⟨hinv, hfull⟩ := hx
    refine ⟨{ hinv with
      toFrame := { hinv.toFrame with }
      toWired := hinv.toWired.alike ha fun o ho hr => (hflags o ho).1.trans hr
      toClean := { hinv.toClean with unpinned := fun o ho => ?_ } }, hfull⟩
    have ho := ha.offsets ▸ ho
    exact (hflags o ho).2.trans (hinv.unpinned o ho)
  | reduce he => exact ((ends_reduce hx.1 hx.2).of_ok he).stands hx.2
  | simplify h0 hi he => exact ((ends_simplify hx.1 hx.2 h0 hi).of_ok he).stands hx.2
  | eliminatePure h0 he =>
    have h := (ends_eliminatePure hx.1 hx.2 h0).of_ok he
    exact ⟨h.inv, h.full⟩
  | collect hq he =>
    have h := (ends_collect (hx.1.collectable hx.2 hq) (fun _ => hx.1.watched) hx.1.toClean hx.1.stored).of_ok he
    exact h.trimmed.stands hx.2

/-! ## What lasts -/

theorem lasting_propagateLiteral (l : Literal) : Keeps Lasting (propagateLiteral l : SolverM ε Unit) :=
  lasting_forward (forward_propagateLiteral l)

theorem Move.lasting (h : Move x y) : Lasting x.2 y.2 := by
  cases h with
  | step h hc => exact h.lasting
  | add he => exact (Call.lasting _).of_ok he
  | refuse he => exact (Call.lasting _ _).of_error he
  | settle hi => exact .refl _
  | outside e => exact .refl _
  | importUnit e h0 => exact (timed_importUnit _ e).lasting
  | importClause h0 he => exact ((timed_importClause _ _).of_ok he).lasting
  | importUnits h0 he => exact (timed_importUnits.of_ok he).lasting
  | importClauses h0 he => exact (timed_importClauses.of_ok he).lasting
  | preprocess h0 he => exact (lasting_forward forward_preprocess).of_ok he
  | next hn he =>
    have h := (lasting_propagateLiteral _).of_ok he
    exact h
  | clash hn he =>
    have h := (lasting_propagateLiteral _ _).of_error he
    exact h
  | propagate he => exact (lasting_forward forward_propagate).of_ok he
  | conflict he => exact (lasting_forward forward_propagate _).of_error he
  | backtrack k | unwind k | flee hk | forgo hk => exact lasting_backtrack _ _
  | resume hi => exact .refl _
  | decide hi hit hu => exact lasting_decide _
  | refute => exact .refl _
  | grow status pending hn => exact (Lasting.refl _).trans (still_ensureVariables _).lasting
  | restart => exact lasting_restart _
  | rephase => exact lasting_rephase _
  | switchMode => exact lasting_switchMode _
  | enterMode stable => exact lasting_enterMode _ stable
  | mark ha hflags => exact (still_store _ ha.epoch).lasting
  | reduce he => exact lasting_reduce.of_ok he
  | simplify h0 hi he => exact (timed_simplify.of_ok he).lasting
  | eliminatePure h0 he => exact (lasting_still still_eliminatePure).of_ok he
  | collect hq he => exact (lasting_still (still_collect _ _)).of_ok he

/-! ## Reachable states -/

section Reached

variable {C : Settings} {hooks : Hooks ε} {limits : Limits} {stopped : Bool} {outside : ε}

theorem Reached.lasting (h : Relation.ReflTransGen Move x y) : Lasting x.2 y.2 := by
  induction h with
  | refl => exact .refl _
  | tail _ hmove ih => exact ih.trans hmove.lasting

theorem Reached.stands (h : Reached C hooks limits stopped outside x) : Stands x := by
  induction h with
  | refl => exact ⟨[], (loaded_ofSettings C outside).configure hooks limits stopped⟩
  | tail _ hmove ih => exact hmove.stands ih

/-- Every variable has a saved phase, or none. -/
theorem Reached.saved (h : Reached C hooks limits stopped outside x) :
    x.2.phases.saved.size = x.2.assignment.size :=
  (Reached.lasting h).2 rfl

/-- What every call keeps that adds something is kept by calls that all succeed. -/
theorem calls_induct {P : Solver ε → Prop} {calls : List Call}
    (hcall : ∀ c s s', P s → Call.run c s = .ok () s' → P s') (h : P s) (hload : calls.forM Call.run s = .ok () s') :
    P s' := by
  induction calls generalizing s with
  | nil =>
    obtain rfl := (EStateM.Result.ok.inj hload).2
    exact h
  | cons c calls ih =>
    rw [List.forM] at hload
    cases hx : c.run s with
    | error e s₁ =>
      simp only [bind, EStateM.bind, hx] at hload
      cases hload
    | ok u s₁ =>
      simp only [bind, EStateM.bind, hx] at hload
      exact ih (hcall c s s₁ h hx) hload

theorem reached_calls {calls : List Call} (hload : calls.forM Call.run s = .ok () s') :
    Relation.ReflTransGen Move (.adding, s) (.adding, s') := by
  refine calls_induct (P := fun t => Relation.ReflTransGen Move (.adding, s) (.adding, t)) ?_ .refl hload
  intro c t t' h hrun
  exact h.tail (.add hrun)

/-- After propagation there was no refutation. -/
theorem Run.consistent {F : List (List Literal)} {s₀ : Solver ε} {y : Place × Solver ε}
    (hrun : Run false (.loaded, s₀) y) (h₀ : s₀.Loaded (false = false) F) (hp : y.1 = .propagated) :
    y.2.inconsistent = false := by
  have hat := (Run.at hrun h₀).1
  obtain ⟨place, s⟩ := y
  obtain rfl : place = .propagated := hp
  exact hat.consistent

/-- Wherever a run comes to is reachable. -/
theorem Run.reached_place {calls : List Call} {s₀ : Solver ε} {y : Place × Solver ε}
    (hload : calls.forM Call.run (fresh C hooks limits stopped outside) = .ok () s₀)
    (hrun : Run false (.loaded, s₀) y) : Reached C hooks limits stopped outside (y.1.moment, y.2) := by
  have h₀ : s₀.Loaded (false = false) (Call.formula calls) := loaded_run hload
  induction hrun with
  | refl => exact reached_calls hload
  | tail hy hstep ih => exact ih.tail (.step hstep (Run.consistent hy h₀))

theorem Run.reached {calls : List Call} {s₀ : Solver ε}
    (hload : calls.forM Call.run (fresh C hooks limits stopped outside) = .ok () s₀)
    (hrun : Run false (.loaded, s₀) (place, s)) : Reached C hooks limits stopped outside (place.moment, s) :=
  Run.reached_place hload hrun

end Reached

end Solver

end ClauseLearning
