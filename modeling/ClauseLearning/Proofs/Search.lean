import ClauseLearning.Proofs.Importing
import ClauseLearning.Proofs.Pure
import ClauseLearning.Proofs.Reduction
import ClauseLearning.Proofs.Scheduling
import ClauseLearning.Proofs.Simplification
import ClauseLearning.Solver.Search

/-!
# The search keeps the invariant

Each pass of a search begins with the invariant for what was propagated, and without a refutation.  If it does not
end the search it leaves the solver so; and if it does, the report is right about whether there was a refutation.
The only fault that a pass can meet is that the store has no room.

* `Solver.Live` — what holds between two passes.
* `Solver.After` — what holds after a part of a search, by its report.
* `Solver.goes_pass`, `Solver.goes_search` — one pass, and several.
* `Solver.Loaded.ends_startSolve`, `Solver.Loaded.ends_solve` — a solve of a solver that clauses were added to.
-/

namespace ClauseLearning

namespace Solver

variable {ε : Type} {lags : Prop} {s s' : Solver ε} {p : Nat} {key : Key}

/-- What holds of a solver between two passes of its search. -/
structure Live (lags : Prop) (s : Solver ε) : Prop where
  /-- The invariant. -/
  inv : s.Inv lags s.trail.propagated
  /-- Nothing is refuted. -/
  consistent : s.inconsistent = false

/-- What holds after everything was propagated without a conflict. -/
structure Quiet (lags : Prop) (s : Solver ε) : Prop where
  /-- The invariant. -/
  inv : s.Inv lags s.trail.size
  /-- Nothing is left to be propagated. -/
  full : s.trail.propagated = s.trail.size
  /-- Nothing is refuted. -/
  consistent : s.inconsistent = false

theorem Quiet.live (h : s.Quiet lags) : s.Live lags := ⟨h.full ▸ h.inv, h.consistent⟩

/-- What holds after a part of a search, by its report. -/
def After (lags : Prop) (report : Option Report) (s : Solver ε) : Prop :=
  match report with
  | none => s.Live lags
  | some .satisfiable => s.Quiet lags ∧ s.unassigned = 0
  | some .unsatisfiable => s.Intact lags ∧ s.inconsistent = true
  | some .unknown => s.Quiet lags

/-- A part of a search goes on from a state. -/
abbrev Goes (lags : Prop) (x : SolverM ε (Option Report)) (s : Solver ε) : Prop :=
  Ends x s (fun report s' => After lags report s' ∧ Advances s s')
    fun e s' => e = .exhausted ∧ s'.Settled lags ∧ Advances s s'

theorem Goes.trans {x : SolverM ε (Option Report)} (h : Goes lags x s') (ha : Advances s s') :
    Ends x s' (fun report s'' => After lags report s'' ∧ Advances s s'')
      fun e s'' => e = .exhausted ∧ s''.Settled lags ∧ Advances s s'' :=
  h.imp (fun _ _ h' => ⟨h'.1, ha.trans h'.2⟩) fun _ _ h' => ⟨h'.1, h'.2.1, ha.trans h'.2.2⟩

theorem Live.aside (h : s.Live lags) (ha : Aside s s') : s'.Live lags ∧ Advances s s' :=
  ⟨⟨by rw [ha.trail]; exact ha.inv h.inv, ha.inconsistent.trans h.consistent⟩,
    ha.refines.advances ha.learned⟩

theorem Quiet.aside (h : s.Quiet lags) (ha : Aside s s') : s'.Quiet lags ∧ Advances s s' :=
  ⟨⟨by rw [ha.trail]; exact ha.inv h.inv, by rw [ha.trail, h.full], ha.inconsistent.trans h.consistent⟩,
    ha.refines.advances ha.learned⟩

/-! ## Conflicts -/

/-- Analysis keeps every contract, and what it learns is satisfied under each. -/
theorem Analyzed.advances {jump glue : Nat} (h : Analyzed lags s s' jump glue) : Advances s s' where
  settings := h.refines.settings
  hooks := h.refines.hooks
  numbering := h.refines.numbering
  extension := h.refines.extension
  status := h.refines.status
  pending := h.refines.pending
  inconsistent := h.refines.inconsistent
  told K hk := by
    obtain ⟨a, rest, hl, -, hsat⟩ := h.learned
    refine ⟨h.refines.hooks.trans hk.hooks, ?_, fun ht => ?_, fun ht => ?_⟩
    · rw [h.refines.outside]
      exact hk.sound
    · rw [h.refines.outside] at ht
      exact h.refines.holds _ (hk.holds ht)
    · rw [h.refines.outside] at ht
      exact .inr (hl ▸ hsat _ (hk.holds ht))
  base := h.refines.base

theorem Conflicted.aside (h : Conflicted lags s key) (ha : Aside s s') : Conflicted lags s' key := by
  obtain ⟨p, hp, hle, hlev⟩ := h.inv
  have hc := h.conflict
  refine ⟨⟨p, ha.inv hp, by rw [ha.trail]; exact hle, by rw [ha.trail]; exact hlev⟩, ?_⟩
  obtain ⟨_, _, _, _, _, _, _, _, rfl⟩ := ha
  exact { hc with }

/-- A conflict is resolved by a learnt clause, or it is a refutation. -/
theorem goes_resolveConflict (hlags : lags) (h : Conflicted lags s key) (hi : s.inconsistent = false) :
    Goes lags (resolveConflict key) s := by
  have hcount := aside_count s fun c => { c with conflicts := c.conflicts + 1 }
  have h₁ := h.aside hcount
  have hadv₁ := hcount.refines.advances hcount.learned
  have hi₁ := hcount.inconsistent.trans hi
  unfold Goes resolveConflict
  simp only [ends_bind, ends_modify]
  generalize s.count (fun c => { c with conflicts := c.conflicts + 1 }) = s₁ at h₁ hadv₁ hi₁
  refine (ends_analyze h₁).imp (fun out s₂ h₂ => ?_) fun _ _ hf => hf.elim
  cases out with
  | fundamental =>
    obtain ⟨rfl, h0⟩ := h₂
    obtain ⟨p, hp, -, -⟩ := h₁.inv
    have href := refines_refute fun v => h₁.conflict.not_holds hp.toFrame h0 v
    simp only [ends_bind, ends_modify, ends_pure]
    exact ⟨⟨hp.refute.intact, rfl⟩, hadv₁.trans (href.advances rfl)⟩
  | asserting jump glue =>
    obtain ⟨p, hp, hle, hlev⟩ := h₁.inv
    obtain ⟨a, rest, hl, hass, -⟩ := h₂.learned
    have hinv := h₂.inv p hp
    simp only [ends_bind, ends_pure]
    refine (ends_learn hinv (by rw [h₂.trail]; exact hlev) hass hl fun _ _ => hlags).imp (fun _ s₃ h₃ => ?_)
      fun e s₃ h₃ => ?_
    · exact ⟨⟨h₃.1, h₃.2.2.trans (h₂.inconsistent.trans hi₁)⟩, hadv₁.trans (h₂.advances.trans h₃.2.1)⟩
    · exact ⟨h₃.1, ⟨_, h₃.2.1, fun _ => rfl⟩, hadv₁.trans (h₂.advances.trans h₃.2.2.1)⟩

/-! ## Without a conflict -/

theorem Trimmed.quiet (h : Trimmed lags s s') (hq : s.Quiet lags) : s'.Quiet lags ∧ Advances s s' := by
  have hfull : s'.trail.propagated = s'.trail.size := by rw [h.trail, hq.full]
  exact ⟨⟨hfull ▸ h.inv, hfull, h.inconsistent.trans hq.consistent⟩, h.refines.advances h.learned⟩

theorem goes_simplifyPass (h : s.Quiet lags) (h0 : s.trail.level = 0) : Goes lags simplifyPass s := by
  unfold Goes simplifyPass
  simp only [ends_bind, ends_get, ends_pure]
  refine (ends_simplify h.inv h.full h0 h.consistent).imp (fun _ s₁ h₁ => ?_) fun _ _ hf => hf.elim
  obtain ⟨hq, hadv⟩ := h₁.quiet h
  rw [hq.consistent]
  exact ⟨hq.live, hadv⟩

theorem goes_decidePass (h : s.Quiet lags) (hi : s.iterating = false) (hu : s.unassigned ≠ 0) :
    Goes lags decidePass s := by
  obtain ⟨l, o, c, he, -, -, hinv, href⟩ := h.inv.decide (Nat.le_refl _) h.full hi hu
  unfold Goes decidePass
  simp only [ends_bind, ends_modifyGet, he, ends_pure]
  exact ⟨⟨h.full.symm ▸ hinv, h.consistent⟩, href.advances rfl⟩

theorem Restarted.quiet (h : Restarted lags s s') (hq : s.Quiet lags) : s'.Quiet lags ∧ Advances s s' :=
  ⟨⟨h.inv, h.full, h.inconsistent.trans hq.consistent⟩, h.refines.advances h.learned⟩

theorem Quiet.outside (h : s.Quiet lags) (outside : ε) : Quiet lags { s with outside } :=
  ⟨{ h.inv with
    toFrame := { h.inv.toFrame with }
    toWired := { h.inv.toWired with }
    toClean := { h.inv.toClean with } }, h.full, h.consistent⟩

/-- A search goes on as it is. -/
theorem Quiet.goes_report (h : s.Quiet lags) : Goes lags (pure (some .unknown)) s := ⟨h, .refl s⟩

/-- What is due is done, or else a literal is decided. -/
theorem goes_proceed (h : s.Quiet lags) (hi : s.iterating = false) (hu : s.unassigned ≠ 0) :
    Goes lags proceed s := by
  have hlive : ∀ {s'}, s'.Quiet lags ∧ Advances s s' → After lags none s' ∧ Advances s s' := fun h' =>
    ⟨h'.1.live, h'.2⟩
  unfold Goes proceed
  simp only [ends_bind, ends_get, ends_ite, ends_pure, ends_modify]
  refine ⟨fun _ => h.goes_report, fun _ => ⟨fun _ => ?_, fun _ => ⟨fun _ => ?_, fun _ => ⟨fun _ => ?_,
    fun _ => ⟨fun _ => ?_, fun _ => ⟨fun h0 => ?_, fun _ => ⟨fun _ => h.goes_report, fun _ => ?_⟩⟩⟩⟩⟩⟩⟩
  · exact (ends_reduce h.inv h.full).imp (fun _ s' h' => hlive (h'.quiet h)) fun _ _ hf => hf.elim
  · exact hlive ((h.inv.restart h.full).quiet h)
  · exact hlive (h.aside (aside_rephase s))
  · exact hlive ((h.inv.switchMode h.full).quiet h)
  · exact goes_simplifyPass h h0.1
  · exact goes_decidePass h hi hu

/-- A pass goes on after propagation without a conflict. -/
theorem goes_advance (h : s.Quiet lags) : Goes lags advance s := by
  unfold Goes advance
  simp only [ends_bind, ends_get, ends_ite, ends_pure, ends_modifyGet]
  refine ⟨fun hi => goes_simplifyPass h (h.inv.iterating hi), fun hi => ⟨fun hu => ⟨⟨h, hu⟩, .refl s⟩,
    fun hu => ?_⟩⟩
  have hadv := advances_isTerminated s
  obtain ⟨outside, he⟩ := isTerminated_eq s
  rw [he] at hadv ⊢
  have h₁ := h.outside outside
  refine ⟨fun _ => h₁.goes_report.trans hadv, fun _ => ?_⟩
  exact (goes_proceed h₁ (Bool.not_eq_true _ ▸ hi) hu).trans hadv

/-! ## Passes -/

theorem Settled.live (h : s.Settled lags) (hi : s.inconsistent = false) : s.Live lags := by
  obtain ⟨p, hp, hfull⟩ := h
  obtain rfl := hfull hi
  exact ⟨hp, hi⟩

theorem Live.settled (h : s.Live lags) : s.Settled lags := ⟨_, h.inv, fun _ => rfl⟩

/-- After a refutation it does not matter how far propagation has come. -/
theorem Intact.settled (h : s.Intact lags) (hi : s.inconsistent = true) : s.Settled lags := by
  obtain ⟨p, hp⟩ := h
  refine ⟨p, hp, fun hn => ?_⟩
  rw [hi] at hn
  cases hn

/-- The status does not matter for the invariant. -/
theorem Settled.setStatus (h : s.Settled lags) (status : Status) : Settled lags { s with status } := by
  obtain ⟨p, hp, hfull⟩ := h
  exact ⟨p, { hp with
    toFrame := { hp.toFrame with }
    toWired := { hp.toWired with }
    toClean := { hp.toClean with } }, hfull⟩

/-- Taking over meets no fault but that there is no room.  Only at the root may it find that there is no model. -/
theorem ends_importPass (h : s.Live lags) :
    Ends importPass s
      (fun _ s' => s'.Settled lags ∧ s'.trail.level = s.trail.level ∧ Advances s s' ∧
        (s.trail.level ≠ 0 → s'.inconsistent = false))
      fun e s' => e = .exhausted ∧ s'.Settled lags ∧ Advances s s' := by
  unfold importPass
  simp only [ends_bind, ends_get, ends_ite, ends_pure]
  refine ⟨fun h0 => ?_, fun h0 => ⟨h.settled, trivial, .refl s, fun _ => h.consistent⟩⟩
  refine (ends_importUnits h.settled h0).imp (fun _ s₁ h₁ => ?_) fun _ _ h₁ =>
    ⟨h₁.1, h₁.2.settled, h₁.2.advances⟩
  refine (ends_importClauses h₁.settled h₁.level).imp (fun _ s₂ h₂ => ?_)
    fun _ _ h₂ => ⟨h₂.1, h₂.2.settled, h₁.advances.trans h₂.2.advances⟩
  exact ⟨h₂.settled, h₂.level.trans h0.symm, h₁.advances.trans h₂.advances, fun hn => absurd h0 hn⟩

/-- What propagation ends in: a conflict, or nothing is left to be propagated. -/
theorem ends_propagatePass (h : s.Live lags) :
    Ends propagatePass s
      (fun out s' => s'.inconsistent = false ∧ s'.trail.level = s.trail.level ∧ Advances s s' ∧
        match out with
        | some key => Conflicted lags s' key
        | none => s'.Quiet lags)
      fun _ _ => False := by
  have hp := ends_propagate h.inv
  unfold Ends propagatePass
  cases hx : propagate s with
  | ok _ s' =>
    obtain ⟨hinv, hfull, hk⟩ := hp.of_ok hx
    have hi := hk.inconsistent.trans h.consistent
    exact ⟨hi, hk.level, hk.refines.advances hk.learned, hfull ▸ hinv, hfull, hi⟩
  | error e s' =>
    obtain ⟨key, rfl, hc, hk⟩ := hp.of_error hx
    exact ⟨hk.inconsistent.trans h.consistent, hk.level, hk.refines.advances hk.learned, hc⟩

/-- One pass of a search. -/
theorem goes_pass (hlags : lags) (h : s.Live lags) : Goes lags pass s := by
  have hcount := aside_count s fun c => { c with iterations := c.iterations + 1 }
  obtain ⟨h₁, hadv₁⟩ := h.aside hcount
  unfold Goes pass
  simp only [ends_bind, ends_modify, ends_get, ends_ite, ends_pure]
  generalize s.count (fun c => { c with iterations := c.iterations + 1 }) = s₁ at h₁ hadv₁
  refine (ends_importPass h₁).imp (fun _ s₂ h₂ => ?_) fun _ _ h₂ => ⟨h₂.1, h₂.2.1, hadv₁.trans h₂.2.2⟩
  obtain ⟨hset, hlev, hadv₂, hcons⟩ := h₂
  refine ⟨fun hr => ⟨⟨hset.intact, hr.2⟩, hadv₁.trans hadv₂⟩, fun hn => ?_⟩
  have hi : s₂.inconsistent = false := by
    by_cases h0 : s₂.trail.level = 0
    · exact Bool.not_eq_true _ ▸ fun ht => hn ⟨h0, ht⟩
    · exact hcons (hlev ▸ h0)
  refine (ends_propagatePass (hset.live hi)).imp (fun out s₃ h₃ => ?_) fun _ _ hf => hf.elim
  obtain ⟨hi₃, -, hadv₃, hout⟩ := h₃
  have hadv := hadv₁.trans (hadv₂.trans hadv₃)
  cases out with
  | some key => exact (goes_resolveConflict hlags hout hi₃).trans hadv
  | none => exact (goes_advance hout).trans hadv

/-- Passes up to a report, or until as many as there may be were done. -/
theorem goes_search (n : Nat) (hlags : lags) (h : s.Live lags) : Goes lags (search n) s := by
  induction n generalizing s with
  | zero => exact ⟨h, .refl s⟩
  | succ n ih =>
    unfold Goes search
    simp only [ends_bind]
    refine (goes_pass hlags h).imp (fun report s₁ h₁ => ?_) fun _ _ he => he
    obtain ⟨ha, hadv⟩ := h₁
    cases report with
    | some report => exact ⟨ha, hadv⟩
    | none => exact (ih ha).trans hadv

/-! ## A whole solve -/

variable {F : List (List Literal)}

/-- The status does not matter for what is known. -/
theorem evolves_status (s : Solver ε) (status : Status) : Evolves s { s with status } where
  settings := rfl
  hooks := rfl
  size := rfl
  eliminated _ := id
  pending := rfl
  inconsistent := id
  told _ hk := ⟨hk.hooks, hk.sound, fun ht => { hk.holds ht with }, hk.learned⟩
  stack := ⟨[], rfl, by simp, fun _ hv => { hv with }⟩

/-- What holds once a search is prepared. -/
structure Prepared (lags : Prop) (report : Option Report) (s : Solver ε) : Prop where
  /-- The level is zero. -/
  level : s.trail.level = 0
  /-- There is a report only if there is no model. -/
  outcome : report = none ∧ s.Live lags ∨ report = some .unsatisfiable ∧ s.Intact lags ∧ s.inconsistent = true

/-- A search is prepared without a fault. -/
theorem ends_prepare (h : s.Settled lags) (h0 : s.trail.level = 0) :
    Ends prepare s (fun report s' => Prepared lags report s' ∧ Evolves s s') fun _ _ => False := by
  -- what is so after the limits were set and the mode was entered
  have hgo : ∀ s', s'.Live lags → s'.trail.level = 0 → Evolves s s' →
      Ends (do
          if (← get).settings.preprocessing.value then
            preprocess
            if (← get).inconsistent then return some Report.unsatisfiable
          return none) s' (fun report s' => Prepared lags report s' ∧ Evolves s s') fun _ _ => False := by
    intro s' hl h0 hev
    simp only [ends_bind, ends_get, ends_ite, ends_pure]
    refine ⟨fun _ => ?_, fun _ => ⟨⟨h0, .inl ⟨rfl, hl⟩⟩, hev⟩⟩
    refine (ends_preprocess hl.inv h0).imp (fun _ s₂ h₂ => ?_) fun _ _ hf => hf
    refine ⟨fun hi => ⟨⟨h₂.2.1, .inr ⟨rfl, h₂.1.intact, hi⟩⟩, hev.trans h₂.2.2⟩, fun hi => ?_⟩
    exact ⟨⟨h₂.2.1, .inl ⟨rfl, h₂.1.live (Bool.not_eq_true _ ▸ hi)⟩⟩, hev.trans h₂.2.2⟩
  unfold prepare
  simp only [ends_bind, ends_get, ends_ite, ends_pure, ends_modify] at hgo ⊢
  refine ⟨fun hi => ⟨⟨h0, .inr ⟨rfl, h.intact, hi⟩⟩, (Advances.refl s).evolves⟩, fun hi => ?_⟩
  have hlimits : Aside s s.initialLimits := ⟨_, _, _, _, _, _, _, _, rfl⟩
  obtain ⟨h₁, hadv⟩ := (h.live (Bool.not_eq_true _ ▸ hi)).aside hlimits
  have h0₁ : s.initialLimits.trail.level = 0 := by rw [hlimits.trail, h0]
  generalize s.initialLimits = s₁ at h₁ hadv h0₁
  refine ⟨fun _ => ?_, fun _ => hgo s₁ h₁ h0₁ hadv.evolves⟩
  obtain ⟨hinv, href⟩ := h₁.inv.enterMode true
  obtain ⟨r, l, ph, he⟩ := enterMode_eq s₁ true
  rw [he] at hinv href ⊢
  exact hgo _ ⟨hinv, h₁.consistent⟩ h0₁ (hadv.trans (href.advances rfl)).evolves

/-- What holds after a part of a solve, by its report.  With a report the solve is over. -/
def Concluded (lags : Prop) (s : Solver ε) (report : Option Report) (s' : Solver ε) : Prop :=
  match report with
  | none => s'.Live lags ∧ Evolves s s'
  | some report => ∃ s₁, After lags (some report) s₁ ∧ Evolves s s₁ ∧ s' = conclude report s₁

/-- A part of a solve ends as what it consists of, but for what is noted at its end. -/
theorem ends_ending {x : SolverM ε (Option Report)} {Q : Option Report → Solver ε → Prop}
    {E : Fault → Solver ε → Prop} :
    Ends (ending x) s Q E ↔
      Ends x s (fun report s' => Q report (report.elim s' fun r => conclude r s'))
        fun e s' => E e { s' with status := .unknown } := by
  simp only [Ends, ending]
  cases x s with
  | ok report s' => cases report <;> rfl
  | error e s' => rfl

/-- What is concluded from a part of a solve. -/
theorem concluded_elim {report : Option Report} (ha : After lags report s') (hev : Evolves s s') :
    Concluded lags s report (report.elim s' fun r => conclude r s') := by
  cases report with
  | none => exact ⟨ha, hev⟩
  | some r => exact ⟨s', ha, hev, rfl⟩

/-- A solve begins, unless a clause was begun. -/
theorem Loaded.ends_beginSolve (h : s.Loaded lags F) :
    Ends beginSolve s (fun _ s' => s.pending = #[] ∧ s' = { s with status := .solving })
      fun e s' => e = .unterminatedClause ∧ s.pending ≠ #[] ∧ s' = s := by
  unfold beginSolve
  simp only [ends_bind, ends_get, ends_ite, ends_throw]
  refine ⟨fun hp => ⟨trivial, fun h0 => by simp [h0] at hp, trivial⟩, fun hp => ?_⟩
  have hp : s.pending = #[] := by simpa using hp
  rcases h.status with hs | hs <;> rw [hs] <;> exact ⟨hp, rfl⟩

/-- A solve is begun with the invariant, and without a clause that was begun. -/
theorem Loaded.ends_startSolve (h : s.Loaded lags F) :
    Ends startSolve s
      (fun report s' => s.pending = #[] ∧ Concluded lags s report s' ∧
        (report = none ∧ s'.trail.level = 0 ∨ report = some .unsatisfiable))
      fun e s' => e = .unterminatedClause ∧ s.pending ≠ #[] ∧ s' = s := by
  unfold startSolve
  simp only [ends_bind]
  refine h.ends_beginSolve.imp (fun _ s₁ h₁ => ?_) fun _ _ he => he
  obtain ⟨hp, rfl⟩ := h₁
  have hset := h.settled.setStatus .solving
  have hev := evolves_status s .solving
  rw [ends_ending]
  refine (ends_prepare hset h.level).imp (fun report s₂ h₂ => ?_) fun _ _ hf => hf.elim
  obtain ⟨hpre, hev'⟩ := h₂
  rcases hpre.outcome with ⟨rfl, hl⟩ | ⟨rfl, hi⟩
  · exact ⟨hp, ⟨hl, hev.trans hev'⟩, .inl ⟨rfl, hpre.level⟩⟩
  · exact ⟨hp, ⟨s₂, hi, hev.trans hev', rfl⟩, .inr rfl⟩

/-- A solve of a solver without a clause that was begun meets no fault but that there is no room. -/
theorem Loaded.ends_solve (hlags : lags) (h : s.Loaded lags F) (n : Nat) :
    Ends (solve n) s (fun report s' => s.pending = #[] ∧ Concluded lags s report s')
      fun e _ => e = .exhausted ∨ e = .unterminatedClause ∧ s.pending ≠ #[] := by
  unfold solve
  simp only [ends_bind]
  refine h.ends_startSolve.imp (fun report s₁ h₁ => ?_) fun _ _ he => .inr ⟨he.1, he.2.1⟩
  obtain ⟨hp, hc, -⟩ := h₁
  cases report with
  | some report => exact ⟨hp, hc⟩
  | none =>
    rw [ends_ending]
    refine (goes_search n hlags hc.1).imp (fun report s₂ h₂ => ⟨hp, ?_⟩) fun e _ he => .inl he.1
    exact concluded_elim h₂.1 (hc.2.trans h₂.2.evolves)

end Solver

end ClauseLearning
