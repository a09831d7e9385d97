import ClauseLearning.Proofs.Decision
import ClauseLearning.Proofs.Errands

/-!
# No search goes on for long without a conflict

Where nothing is handed in, the passes up to the next conflict or the end of the search are few: their number is
bounded by the count of variables alone, whatever the settings are, within their bounds, and whatever the averages of
glue are.

* `Solver.timed_learn`, `Solver.ends_resolveConflict_conflicts` — a conflict is counted once.
* `Solver.pass_cases` — a pass meets a conflict, or propagates all there is and does one thing more.
* `Solver.Live.propagate_spends` — propagation makes nothing due.
* `Solver.Lull` — how much is done in passes without a conflict.
* `Solver.lull_of_search` — no more than that is ever done.
-/

namespace ClauseLearning

namespace Solver

variable {ε : Type} {lags : Prop} {s s' q s₀ : Solver ε} {F : List (List Literal)} {key : Key}

/-! ## Conflicts are counted -/

/-- A conflict is counted, and nothing else that is done about it is. -/
theorem ends_resolveConflict_conflicts (key : Key) (s : Solver ε) :
    Ends (resolveConflict key) s (fun _ s' => s'.counters.conflicts = s.counters.conflicts + 1) fun _ _ => True := by
  unfold resolveConflict
  simp only [ends_bind, ends_modify]
  refine (timed_analyze key s.noteConflict).imp (fun out s₁ h₁ => ?_) fun _ _ _ => trivial
  cases out with
  | fundamental =>
    simp only [ends_bind, ends_modify, ends_pure]
    exact h₁.conflicts
  | asserting jump glue =>
    simp only [ends_bind, ends_pure]
    exact (timed_learn jump glue s₁).imp (fun _ _ h₂ => h₂.conflicts.trans h₁.conflicts) fun _ _ _ => trivial

/-- A pass to which nothing is handed in meets a conflict, or propagates all there is and does one thing more. -/
theorem pass_cases (hunits : s.hooks.units = none) (hclauses : s.hooks.clauses = none) (h : pass s = .ok none s') :
    s.counters.conflicts < s'.counters.conflicts ∨
      ∃ q, Run false (.ready, s) (.propagated, q) ∧ propagatePass s.beginPass = .ok none q ∧
        advance q = .ok none s' := by
  have himport : importPass s.beginPass = .ok () s.beginPass := importPass_of_none hunits hclauses
  have hpass : Ends pass s (fun report s' => report = none → s.counters.conflicts < s'.counters.conflicts ∨
      ∃ q, Run false (.ready, s) (.propagated, q) ∧ propagatePass s.beginPass = .ok none q ∧
        advance q = .ok none s') fun _ _ => True := by
    unfold pass
    simp only [ends_bind, ends_modify, ends_get, ends_ite, ends_pure]
    refine (ends_of_ok himport).2 ⟨fun _ hr => absurd hr (Option.some_ne_none _), fun hn => ?_⟩
    refine (ends_self propagatePass s.beginPass).imp (fun out q hq => ?_) fun _ _ _ => trivial
    cases out with
    | some key =>
      have hconflicts : q.counters.conflicts = s.counters.conflicts := (forward_propagatePass.of_ok hq).conflicts
      refine (ends_resolveConflict_conflicts key q).imp (fun _ s' h' _ => .inl ?_) fun _ _ _ => trivial
      rw [h', hconflicts]
      exact Nat.lt_succ_self _
    | none =>
      refine (ends_self advance q).imp (fun report s' h' hr => .inr ⟨q, ?_, hq, hr ▸ h'⟩) fun _ _ _ => trivial
      exact (Relation.ReflTransGen.single (.take himport hn)).tail (.propagate hq)
  exact hpass.of_ok h rfl

/-! ## Passes without a conflict -/

theorem clausal_propagatePass (hq : propagatePass s.beginPass = .ok none q) :
    Clausal { s with counters.iterations := s.counters.iterations + 1 } q :=
  (keeps_clausal fun t => blind_propagatePass t).of_ok hq

/-- Propagation makes nothing due, if nothing is left to be propagated at the root. -/
theorem Live.propagate_spends (h : s.Live lags) (hcalm : s.trail.propagated = s.trail.size ∨ s.trail.level ≠ 0)
    (hq : propagatePass s.beginPass = .ok none q) :
    Spends s q ∧ q.counters.errands = s.counters.errands := by
  obtain ⟨hl, -⟩ := h.aside (aside_beginPass s)
  obtain ⟨-, hlevel, hadv, -⟩ := (ends_propagatePass hl).of_ok hq
  have hforward := forward_propagatePass.of_ok hq
  have hclausal := clausal_propagatePass hq
  have hs : Scheduled s q :=
    have h := hclausal.scheduled hadv.settings
    ⟨h.settings, h.limits, h.conflicts, h.stable, h.reluctant⟩
  have hactive : q.active = s.active := hclausal.active
  have hiterating : q.iterating = s.iterating := (congrArg Solver.iterating hclausal).trans rfl
  have hunassigned : q.unassigned ≤ s.unassigned := by
    have hsize : s.trail.size ≤ q.trail.size := hforward.size
    simp only [unassigned, hactive]
    omega
  have hflushing : q.flushing.toNat ≤ s.flushing.toNat := by
    rcases hcalm with hfull | hlevel0
    · rw [propagatePass_full (s := s.beginPass) hfull] at hq
      obtain ⟨-, rfl⟩ := EStateM.Result.ok.inj hq
      exact Nat.le_refl _
    · have hlevel' : q.trail.level = s.trail.level := hlevel
      have hnot : q.flushing = false := decide_eq_false fun h0 => hlevel0 (hlevel' ▸ h0.1)
      rw [hnot]
      exact Nat.zero_le _
  have hstale : q.stale.toNat ≤ s.stale.toNat := by
    unfold stale
    rw [hiterating]
    cases s.iterating with
    | true => exact Nat.le_refl _
    | false => simpa using hflushing
  exact ⟨hs.spends hactive hunassigned hstale (hclausal.counter (f := Counters.reductions) fun _ _ _ _ => rfl)
    (hclausal.counter (f := Counters.rephases) fun _ _ _ _ => rfl)
    (hclausal.counter (f := Counters.modeSwitches) fun _ _ _ _ => rfl)
    (hclausal.counter (f := Counters.restarts) fun _ _ _ _ => rfl)
    (hclausal.counter (f := Counters.simplifications) fun _ _ _ _ => rfl)
    (hclausal.counter (f := Counters.decisions) fun _ _ _ _ => rfl),
    hclausal.counter (f := Counters.errands) fun _ _ _ _ => rfl⟩

/-- A run to which nothing is handed in, with time between the things that are due on schedules. -/
structure Secluded (s₀ : Solver ε) : Prop where
  /-- The settings. -/
  paced : s₀.settings.Paced
  /-- There are no units to be taken over. -/
  units : s₀.hooks.units = none
  /-- There are no clauses to be taken over. -/
  clauses : s₀.hooks.clauses = none
  /-- The time from a reduction that is due to the next one. -/
  long : ∀ s, Run false (.loaded, s₀) (.propagated, s) → s.reducing = true →
    1 ≤ (s.count fun c => { c with reductions := c.reductions + 1 }).reduceDelta

/-- A search of one pass and more, that has no report, is that pass and the rest of the search. -/
theorem search_succ {k : Nat} (h : search (k + 1) s = .ok none s') :
    ∃ s₁, pass s = .ok none s₁ ∧ search k s₁ = .ok none s' := by
  simp only [search, bind, EStateM.bind] at h
  cases hp : Solver.pass s with
  | error e s₁ => simp [hp] at h
  | ok out s₁ =>
    rw [hp] at h
    cases out with
    | some r => simp [pure, EStateM.pure] at h
    | none => exact ⟨s₁, rfl, h⟩

/-- A pass that has no report leads to where the next one is to begin. -/
theorem Run.again (hrun : Run false (.loaded, s₀) (.ready, s)) (h : pass s = .ok none s') :
    Run false (.loaded, s₀) (.ready, s') :=
  hrun.trans ((run_pass s).of_ok h).to_reflTransGen

section Run

variable (h₀ : s₀.Loaded (false = false) F) (hsecluded : Secluded s₀)
include h₀ hsecluded

/-- What a pass that meets no conflict does, after propagation. -/
theorem Run.errand (hrun : Run false (.loaded, s₀) (.ready, s)) (h : pass s = .ok none s') :
    s.counters.conflicts < s'.counters.conflicts ∨
      ∃ q, Run false (.loaded, s₀) (.propagated, q) ∧ propagatePass s.beginPass = .ok none q ∧ Errand q s' := by
  obtain ⟨-, hev⟩ := hrun.at h₀
  have hunits : s.hooks.units = none := hev.hooks ▸ hsecluded.units
  have hclauses : s.hooks.clauses = none := hev.hooks ▸ hsecluded.clauses
  refine (pass_cases hunits hclauses h).imp_right ?_
  rintro ⟨q, hq, hp, hadv⟩
  have hrunq : Run false (.loaded, s₀) (.propagated, q) := hrun.trans hq
  obtain ⟨hquiet, hevq⟩ := hrunq.at h₀
  refine ⟨q, hrunq, hp, (hquiet.advance_errand (by rw [hevq.settings]; exact hsecluded.paced) ?_).of_ok hadv rfl⟩
  exact hsecluded.long q hrunq

/-- The count of conflicts only grows, and stays in a pass that meets none. -/
theorem Run.conflicts_le_pass (hrun : Run false (.loaded, s₀) (.ready, s)) (h : pass s = .ok none s') :
    s.counters.conflicts ≤ s'.counters.conflicts := by
  rcases hrun.errand h₀ hsecluded h with hlt | ⟨q, -, hp, he⟩
  · exact Nat.le_of_lt hlt
  · have hq : q.counters.conflicts = s.counters.conflicts := (forward_propagatePass.of_ok hp).conflicts
    rw [he.conflicts, hq]

/-- The count of conflicts only grows. -/
theorem Run.conflicts_le_search {k : Nat} (hrun : Run false (.loaded, s₀) (.ready, s))
    (h : search k s = .ok none s') : s.counters.conflicts ≤ s'.counters.conflicts := by
  induction k generalizing s with
  | zero =>
    obtain ⟨-, rfl⟩ := EStateM.Result.ok.inj h
    exact Nat.le_refl _
  | succ k ih =>
    obtain ⟨s₁, hpass, hrest⟩ := search_succ h
    exact (hrun.conflicts_le_pass h₀ hsecluded hpass).trans (ih (hrun.again hpass) hrest)

/-- Passes without a conflict, of which the first one propagates nothing at the root, do one thing each. -/
theorem Run.search_spends {k : Nat} (hrun : Run false (.loaded, s₀) (.ready, s))
    (hcalm : s.trail.propagated = s.trail.size ∨ s.trail.level ≠ 0) (h : search k s = .ok none s')
    (hnone : s'.counters.conflicts = s.counters.conflicts) :
    Spends s s' ∧ s'.counters.errands = s.counters.errands + k := by
  induction k generalizing s with
  | zero =>
    obtain ⟨-, rfl⟩ := EStateM.Result.ok.inj h
    exact ⟨.refl s, rfl⟩
  | succ k ih =>
    obtain ⟨s₁, hpass, hrest⟩ := search_succ h
    have hle := (hrun.again hpass).conflicts_le_search h₀ hsecluded hrest
    rcases hrun.errand h₀ hsecluded hpass with hlt | ⟨q, hrunq, hp, he⟩
    · omega
    obtain ⟨hspends, herrands⟩ := (hrun.at h₀).1.propagate_spends hcalm hp
    have hconflicts := he.conflicts.trans hspends.conflicts
    obtain ⟨hrestSpends, hrestErrands⟩ := ih (hrun.again hpass) he.calm hrest (hnone.trans hconflicts.symm)
    refine ⟨(hspends.trans he.toSpends).trans hrestSpends, ?_⟩
    rw [hrestErrands, he.errands, herrands]
    omega

end Run

/-- What `k` passes without a conflict amount to. -/
structure Lull (k : Nat) (s s' : Solver ε) : Prop where
  /-- The passes. -/
  passes : k ≤ 4 * s.active + 9
  /-- The reductions. -/
  reductions : s'.counters.reductions ≤ s.counters.reductions + 1
  /-- The resets of phases. -/
  rephases : s'.counters.rephases ≤ s.counters.rephases + 1
  /-- The changes of mode. -/
  switches : s'.counters.modeSwitches ≤ s.counters.modeSwitches + 1
  /-- The restarts. -/
  restarts : s'.counters.restarts ≤ s.counters.restarts + 2
  /-- The simplifications. -/
  simplifications : s'.counters.simplifications ≤ s.counters.simplifications + 4
  /-- The decisions. -/
  decisions : s'.counters.decisions ≤ s.counters.decisions + 4 * s.active

theorem Spends.lull {k : Nat} (h : Spends s s') (he : s'.counters.errands = s.counters.errands + k) : Lull k s s' := by
  have hreducing := s.reducing.toNat_le
  have hrephasing := s.rephasing.toNat_le
  have hswitching := s.switching.toNat_le
  have hripe := s.ripe.toNat_le
  have hstale := s.stale.toNat_le
  have hreturns := s.returns_le
  have hun := s.unassigned_le
  have hmul : s.returns * s.active ≤ 3 * s.active := Nat.mul_le_mul_right _ hreturns
  have h1 := h.reductions
  have h2 := h.rephases
  have h3 := h.switches
  have h4 := h.restarts
  have h5 := h.simplifications
  have h6 := h.decisions
  simp only [Counters.errands] at he
  constructor <;> omega

/-- What was counted after propagation was counted before it. -/
theorem Lull.before {k : Nat} (h : Lull k q s') (hq : propagatePass s.beginPass = .ok none q) : Lull k s s' := by
  have hclausal := clausal_propagatePass hq
  have hactive : q.active = s.active := hclausal.active
  have hcounter : ∀ f : Counters → Nat, (∀ c n p l y, f { c with
      iterations := n, propagations := p, collections := l, hyperBinaries := y } = f c) →
      f q.counters = f s.counters := fun f hf =>
    (hclausal.counter fun c p l y => (hf c c.iterations p l y)).trans
      (hf s.counters (s.counters.iterations + 1) s.counters.propagations s.counters.collections
        s.counters.hyperBinaries)
  exact {
    passes := hactive ▸ h.passes
    reductions := hcounter Counters.reductions (fun _ _ _ _ _ => rfl) ▸ h.reductions
    rephases := hcounter Counters.rephases (fun _ _ _ _ _ => rfl) ▸ h.rephases
    switches := hcounter Counters.modeSwitches (fun _ _ _ _ _ => rfl) ▸ h.switches
    restarts := hcounter Counters.restarts (fun _ _ _ _ _ => rfl) ▸ h.restarts
    simplifications := hcounter Counters.simplifications (fun _ _ _ _ _ => rfl) ▸ h.simplifications
    decisions := hactive ▸ hcounter Counters.decisions (fun _ _ _ _ _ => rfl) ▸ h.decisions }

/-- Passes without a conflict, from any place of a run where a pass is to begin. -/
theorem Run.lull {k : Nat} (h₀ : s₀.Loaded (false = false) F) (hsecluded : Secluded s₀)
    (hrun : Run false (.loaded, s₀) (.ready, s)) (h : search k s = .ok none s')
    (hnone : s'.counters.conflicts = s.counters.conflicts) : Lull k s s' := by
  cases k with
  | zero =>
    obtain ⟨-, rfl⟩ := EStateM.Result.ok.inj h
    exact (Spends.refl s).lull rfl
  | succ k =>
    obtain ⟨s₁, hpass, hrest⟩ := search_succ h
    have hle := (hrun.again hpass).conflicts_le_search h₀ hsecluded hrest
    rcases hrun.errand h₀ hsecluded hpass with hlt | ⟨q, hrunq, hp, he⟩
    · omega
    have hq : q.counters.conflicts = s.counters.conflicts := (forward_propagatePass.of_ok hp).conflicts
    obtain ⟨hspends, herrands⟩ := (hrun.again hpass).search_spends h₀ hsecluded he.calm hrest
      (hnone.trans (he.conflicts.trans hq).symm)
    refine ((he.toSpends.trans hspends).lull ?_).before hp
    rw [herrands, he.errands]
    omega

variable {C : Settings} {hooks : Hooks ε} {limits : Limits} {stopped : Bool} {outside : ε} {calls : List Call}

/-- Where nothing is handed in, a search goes on for at most so many passes without a conflict, from any place of its
run where a pass is to begin.  Nothing more is assumed than that the settings are within their bounds, and that the
time from a reduction to the next one is positive whenever one is due. -/
theorem lull_of_search (hload : calls.forM Call.run (fresh C hooks limits stopped outside) = .ok () s₀)
    (hbounds : ∀ k, (({} : Settings).number k).allows (C.number k).value = true)
    (hunits : hooks.units = none) (hclauses : hooks.clauses = none)
    (hlong : ∀ s, Run false (.loaded, s₀) (.propagated, s) → s.reducing = true →
      1 ≤ (s.count fun c => { c with reductions := c.reductions + 1 }).reduceDelta)
    (hrun : Run false (.loaded, s₀) (.ready, s)) {k : Nat} (h : search k s = .ok none s')
    (hnone : s'.counters.conflicts = s.counters.conflicts) : Lull k s s' := by
  have hapart := apart_run hload
  have hpaced : s₀.settings.Paced := by
    rw [hapart.settings]
    exact Settings.paced_of_allows hbounds
  have hhooks : s₀.hooks = hooks := hapart.hooks
  exact hrun.lull (loaded_run hload) ⟨hpaced, hhooks ▸ hunits, hhooks ▸ hclauses, hlong⟩ h hnone

/-- From the place after the first decision on, the search of a formula with a model goes on for two passes more
without a conflict. -/
theorem lull_of_search_pairs : ∃ s₀ s s' : Solver Unit,
    [Call.clause [1, 2], .clause [3, 4], .clause [5, 6]].forM Call.run (fresh {} {} {} false ()) = .ok () s₀ ∧
    Run false (.loaded, s₀) (.ready, s) ∧ s.trail.level = 1 ∧ search 2 s = .ok none s' ∧
    s'.counters.conflicts = s.counters.conflicts ∧ Lull 2 s s' := by
  obtain ⟨⟨⟨⟩, s₀⟩, hload, htest⟩ := (Option.any_eq_true (fun x : Unit × Solver Unit =>
      throughout (fun place s => place = .propagated → s.reducing = false) 30 (.loaded, x.2) &&
        (unreported? startSolve x.2).any fun s₁ => (unreported? (search 1) s₁).any fun s => s.trail.level = 1 &&
          (unreported? (search 2) s).any fun s' => s'.counters.conflicts = s.counters.conflicts)
    (result? ([Call.clause [1, 2], .clause [3, 4], .clause [5, 6]].forM Call.run) (fresh {} {} {} false ()))).1
    (by decide +kernel)
  rw [result?_eq_some] at hload
  obtain ⟨hplaces, htest⟩ := Bool.and_eq_true_iff.1 htest
  obtain ⟨s₁, hstart, htest⟩ := (Option.any_eq_true _ _).1 htest
  obtain ⟨s, hfirst, htest⟩ := (Option.any_eq_true _ _).1 htest
  obtain ⟨hlevel, htest⟩ := Bool.and_eq_true_iff.1 htest
  obtain ⟨s', hsearch, hnone⟩ := (Option.any_eq_true _ _).1 htest
  rw [unreported?_eq_some] at hstart hfirst hsearch
  have hrun : Run false (.loaded, s₀) (.ready, s) :=
    (Relation.ReflTransGen.single (.start hstart)).trans ((run_search 1 s₁).of_ok hfirst)
  refine ⟨s₀, s, s', hload, hrun, of_decide_eq_true hlevel, hsearch, of_decide_eq_true hnone,
    lull_of_search hload (fun k => by cases k <;> rfl) rfl rfl (fun q hq hdue => ?_) hrun hsearch
      (of_decide_eq_true hnone)⟩
  have hidle := of_decide_eq_true (hq.throughout hplaces) rfl
  rw [hdue] at hidle
  exact Bool.noConfusion hidle

end Solver

end ClauseLearning
