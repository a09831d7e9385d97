import ClauseLearning.Proofs.Progress

/-!
# A search comes to its end

Without restarts and changes of mode, a search makes progress with each decision and each learnt clause.  In between
it does what is due, and nothing of that makes something else due.  So each step of a run takes from one number, and
a search with more passes than that ends with a report.

* `Settings.Plain`, `Hooks.Aloof`, `Solver.Undisturbed` — nothing ends a search but an answer.
* `Solver.due` — how many things are due.
* `Solver.remaining` — how much is left of a search at a place of its run.
* `Solver.Step.shorter` — each step takes from it.
* `Solver.ends_search_report` — a search of more passes ends with a report.
-/

namespace ClauseLearning

variable {ε : Type}

/-- Settings with which a search never starts over, and with a positive time between resets of phases. -/
structure Settings.Plain (c : Settings) : Prop where
  /-- There are no restarts. -/
  restart : c.restart.restart.value = false
  /-- The mode does not change. -/
  mode : c.mode.value ≠ .switching
  /-- The time between resets of phases is not below its least value. -/
  rephase : 1 ≤ c.phase.rephaseInterval.value

/-- Hooks that hand nothing in and never ask to stop. -/
structure Hooks.Aloof (h : Hooks ε) : Prop where
  /-- There are no units to be taken over. -/
  units : h.units = none
  /-- There are no clauses to be taken over. -/
  clauses : h.clauses = none
  /-- It is never asked to stop. -/
  terminate : ∀ f, h.terminate = some f → ∀ e, (f e).1 = false

/-- Whether a solve is over at a place. -/
def Place.over : Place → Bool
  | .ended _ => true
  | .failed _ => true
  | _ => false

namespace Solver

variable {lags : Prop} {prompt : Bool} {s s' s₀ : Solver ε} {F : List (List Literal)} {x y : Place × Solver ε}

/-- A search has no limits, and was not asked to stop. -/
structure Unlimited (s : Solver ε) : Prop where
  /-- It was not asked to stop. -/
  stopped : s.stopped = false
  /-- There is no limit on conflicts. -/
  conflicts : s.limits.conflicts = none
  /-- There is no limit on decisions. -/
  decisions : s.limits.decisions = none

/-- Nothing ends a search but an answer. -/
structure Undisturbed (s : Solver ε) : Prop extends Unlimited s where
  /-- The settings. -/
  plain : s.settings.Plain
  /-- The hooks. -/
  aloof : s.hooks.Aloof

theorem Unlimited.timed (h : s.Unlimited) (ht : Timed s s') : s'.Unlimited :=
  ⟨ht.stopped.trans h.stopped, by rw [ht.limits, h.conflicts], by rw [ht.limits, h.decisions]⟩

theorem Undisturbed.advances (h : s.Undisturbed) (hl : s'.Unlimited) (ha : Advances s s') : s'.Undisturbed :=
  ⟨hl, ha.settings ▸ h.plain, ha.hooks ▸ h.aloof⟩

theorem Undisturbed.not_terminated (h : s.Undisturbed) : s.isTerminated.1 = false := by
  unfold isTerminated
  rw [if_neg (by simp [h.stopped])]
  split
  · rfl
  · next f hf => exact h.aloof.terminate f hf s.outside

theorem Undisturbed.not_restarting (h : s.Undisturbed) : s.restarting = false := by
  simp [restarting, h.plain.restart]

theorem Undisturbed.not_switching (h : s.Undisturbed) : s.switching = false := by
  simp [switching, h.plain.mode]

/-- Nothing is taken over where nothing is handed in. -/
theorem importPass_of_none (hu : s.hooks.units = none) (hc : s.hooks.clauses = none) : importPass s = .ok () s := by
  have hsame : Ends importPass s (fun _ s' => s' = s) fun _ _ => False := by
    unfold importPass importUnits importClauses
    simp only [ends_bind, ends_get, ends_ite, ends_throw, hu, ends_pure, hc, imp_self, implies_true,
      and_true]
    exact fun h0 hn => hn h0
  obtain ⟨⟨⟩, s', he, rfl⟩ := hsame.exists_ok
  exact he

/-! ## What is due -/

/-- Whether root literals were assigned since the last simplification, at the root. -/
def flushing (s : Solver ε) : Bool := s.trail.level = 0 ∧ 0 < s.unflushed

/-- How many things are due that need no conflict. -/
def due (s : Solver ε) : Nat := s.iterating.toNat + s.reducing.toNat + s.rephasing.toNat + s.flushing.toNat

theorem due_le (s : Solver ε) : s.due ≤ 4 := by
  have h1 := s.iterating.toNat_le
  have h2 := s.reducing.toNat_le
  have h3 := s.rephasing.toNat_le
  have h4 := s.flushing.toNat_le
  unfold due
  omega

/-- Once it was simplified, less is due. -/
theorem Flushed.due_lt (h : Flushed s s') (hset : s'.settings = s.settings)
    (hdue : s.iterating = true ∨ s.flushing = true) : s'.due < s.due := by
  have hreducing : s'.reducing = s.reducing := by simp only [reducing, h.limits, h.conflicts]
  have hrephasing : s'.rephasing = s.rephasing := by simp only [rephasing, h.limits, h.conflicts, hset]
  have hflushing : s'.flushing = false := by simp [flushing, h.unflushed]
  unfold due
  rw [hreducing, hrephasing, hflushing, h.iterating]
  rcases hdue with hd | hd <;> rw [hd, Bool.toNat_true, Bool.toNat_false] <;> omega

/-- Once it was reduced, less is due, if the time to the next reduction is positive. -/
theorem Still.due_lt {t : Solver ε} (h : Still (s.count fun c => { c with reductions := c.reductions + 1 }) t)
    (hset : t.settings = s.settings)
    (hlong : 1 ≤ (s.count fun c => { c with reductions := c.reductions + 1 }).reduceDelta) (hdue : s.reducing = true) :
    due { t with limits.reduce := t.counters.conflicts + t.reduceDelta } < s.due := by
  have hdelta : t.reduceDelta = (s.count fun c => { c with reductions := c.reductions + 1 }).reduceDelta := by
    simp only [reduceDelta, h.reductions, hset]
    rfl
  have hreducing : reducing { t with limits.reduce := t.counters.conflicts + t.reduceDelta } = false := by
    simp only [reducing, hdelta, decide_eq_false_iff_not]
    omega
  have hrephasing : rephasing { t with limits.reduce := t.counters.conflicts + t.reduceDelta } = s.rephasing := by
    simp only [rephasing, h.limits, h.conflicts, hset]
    rfl
  have hflushing : flushing { t with limits.reduce := t.counters.conflicts + t.reduceDelta } = s.flushing := by
    simp only [flushing, h.trail, h.unflushed]
    rfl
  have hiterating : t.iterating = s.iterating := h.iterating
  unfold due
  rw [hreducing, hrephasing, hflushing, hdue, hiterating, Bool.toNat_true, Bool.toNat_false]
  omega

theorem rephase_eq (s : Solver ε) : ∃ phases random, s.rephase.2 =
    { s with
      phases, random
      counters.rephases := s.counters.rephases + 1
      limits.rephase :=
        s.counters.conflicts + s.settings.phase.rephaseInterval.value * (s.counters.rephases + 1) } := by
  unfold rephase resetPhases
  dsimp only
  split <;> exact ⟨_, _, rfl⟩

/-- Once phases were reset, no reset is due. -/
theorem rephasing_rephase (h : 0 < s.settings.phase.rephaseInterval.value) : s.rephase.2.rephasing = false := by
  have hlong : 1 ≤ s.settings.phase.rephaseInterval.value * (s.counters.rephases + 1) :=
    Nat.mul_pos h (Nat.succ_pos _)
  obtain ⟨phases, random, he⟩ := rephase_eq s
  rw [he]
  simp only [rephasing, Bool.and_eq_false_iff, decide_eq_false_iff_not]
  right
  omega

/-- Once phases were reset, less is due. -/
theorem due_rephase (h : s.settings.Plain) (hdue : s.rephasing = true) : s.rephase.2.due < s.due := by
  have hrephasing := s.rephasing_rephase h.rephase
  obtain ⟨phases, random, he⟩ := rephase_eq s
  unfold due
  rw [hrephasing, hdue, he, Bool.toNat_true, Bool.toNat_false]
  change s.iterating.toNat + s.reducing.toNat + 0 + s.flushing.toNat < _
  omega

/-! ## A pass without a conflict -/

/-- What a pass without a conflict does if it has no report: it decides, or else what is due becomes less. -/
structure Onward (s s' : Solver ε) : Prop where
  /-- Nothing else ends the search. -/
  unlimited : s'.Unlimited
  /-- The measure. -/
  less : s'.lack < s.lack ∨ s'.trail = s.trail ∧ s'.due < s.due

/-- A part of a pass without a conflict goes on, or has an answer. -/
abbrev GoesOn (x : SolverM ε (Option Report)) (s : Solver ε) : Prop :=
  Ends x s (fun report s' => report ≠ some .unknown ∧ (report = none → Onward s s')) fun _ _ => True

theorem Quiet.simplifyPass_goesOn (hq : s.Quiet lags) (hu : s.Undisturbed) (h0 : s.trail.level = 0)
    (hdue : s.iterating = true ∨ s.flushing = true) : GoesOn simplifyPass s := by
  unfold GoesOn simplifyPass
  simp only [ends_bind, ends_get, ends_pure]
  refine ((ends_simplify hq.inv hq.full h0 hq.consistent).and (ends_simplify_flushed hq.consistent hq.full)).imp
    (fun _ s₁ h₁ => ?_) fun _ _ _ => trivial
  obtain ⟨htrim, hflush⟩ := h₁
  rw [htrim.inconsistent, hq.consistent]
  exact ⟨by simp, fun _ => ⟨hu.timed hflush.toTimed, .inr ⟨hflush.trail, hflush.due_lt htrim.refines.settings hdue⟩⟩⟩

theorem Quiet.reduce_goesOn (hq : s.Quiet lags) (hu : s.Undisturbed) (hdue : s.reducing = true)
    (hlong : 1 ≤ (s.count fun c => { c with reductions := c.reductions + 1 }).reduceDelta) :
    Ends reduce s (fun _ s' => Onward s s') fun _ _ => True := by
  refine ((ends_reduce hq.inv hq.full).and (ends_reduce_still s)).imp (fun _ s' h' => ?_) fun _ _ _ => trivial
  obtain ⟨htrim, t, ht, rfl⟩ := h'
  have hlimits : t.limits = s.limits := ht.limits
  refine ⟨⟨ht.stopped.trans hu.stopped, ?_, ?_⟩, .inr ⟨ht.trail, ht.due_lt htrim.refines.settings hlong hdue⟩⟩
  · simp only [hlimits, hu.conflicts]
  · simp only [hlimits, hu.decisions]

theorem Quiet.decidePass_goesOn (hq : s.Quiet lags) (hu : s.Undisturbed) (hi : s.iterating = false)
    (hun : s.unassigned ≠ 0) : GoesOn decidePass s := by
  obtain ⟨l, o, c, he, -, -, hinv, -⟩ := hq.inv.decide (Nat.le_refl _) hq.full hi hun
  unfold GoesOn decidePass
  simp only [ends_bind, ends_modifyGet, he, ends_pure]
  exact ⟨by simp, fun _ => ⟨⟨hu.stopped, hu.conflicts, hu.decisions⟩,
    .inl (hq.inv.toFrame.lack_pushDecision hinv.toFrame rfl rfl)⟩⟩

theorem Quiet.proceed_goesOn (hq : s.Quiet lags) (hu : s.Undisturbed) (hi : s.iterating = false)
    (hun : s.unassigned ≠ 0) (hlong : s.reducing = true →
      1 ≤ (s.count fun c => { c with reductions := c.reductions + 1 }).reduceDelta) : GoesOn proceed s := by
  unfold GoesOn proceed
  simp only [ends_bind, ends_get, ends_ite, ends_pure, ends_modify, hu.conflicts, hu.decisions, reached,
    hu.not_restarting, hu.not_switching, Bool.false_eq_true, not_false_eq_true, false_implies, true_implies, true_and]
  refine ⟨fun hr => ?_, fun _ => ⟨fun hr => ?_, fun _ => ⟨fun h0 => ?_, fun _ => ?_⟩⟩⟩
  · exact (hq.reduce_goesOn hu hr (hlong hr)).imp (fun _ _ h => ⟨by simp, h⟩) fun _ _ _ => trivial
  · refine ⟨by simp, ⟨?_, .inr ⟨(aside_rephase s).trail, due_rephase hu.plain hr⟩⟩⟩
    obtain ⟨phases, random, he⟩ := rephase_eq s
    rw [he]
    exact ⟨hu.stopped, hu.conflicts, hu.decisions⟩
  · exact hq.simplifyPass_goesOn hu h0.1 (.inr (by simpa [flushing] using h0))
  · exact hq.decidePass_goesOn hu hi hun

/-- A pass without a conflict goes on, or has an answer. -/
theorem Quiet.advance_goesOn (hq : s.Quiet lags) (hu : s.Undisturbed) (hlong : s.reducing = true →
    1 ≤ (s.count fun c => { c with reductions := c.reductions + 1 }).reduceDelta) : GoesOn advance s := by
  unfold GoesOn advance
  simp only [ends_bind, ends_get, ends_ite, ends_pure, ends_modifyGet, hu.not_terminated, Bool.false_eq_true,
    not_false_eq_true, false_implies, true_implies, true_and]
  refine ⟨fun hi => hq.simplifyPass_goesOn hu (hq.inv.iterating hi) (.inl hi), fun hi => ⟨fun _ => ⟨by simp, by simp⟩,
    fun hun => ?_⟩⟩
  obtain ⟨outside, he⟩ := isTerminated_eq s
  rw [he]
  exact ((hq.outside outside).proceed_goesOn ⟨⟨hu.stopped, hu.conflicts, hu.decisions⟩, hu.plain, hu.aloof⟩
    (Bool.not_eq_true _ ▸ hi) hun hlong).imp (fun _ _ h => ⟨h.1, fun hr => ⟨(h.2 hr).unlimited, (h.2 hr).less⟩⟩)
    fun _ _ _ => trivial

/-! ## Steps -/

/-- How many of the things that are not decisions or conflicts may follow: more than may be due, if something is
left to be propagated. -/
def load (s : Solver ε) : Nat := if s.trail.propagated < s.trail.size then 5 else s.due

theorem load_le (s : Solver ε) : s.load ≤ 5 := by
  have := s.due_le
  unfold load
  split <;> omega

theorem load_of_full (h : s.trail.propagated = s.trail.size) : s.load = s.due := by
  unfold load
  rw [if_neg (by omega)]

/-- How many steps are left at most, of a search that has come to a place. -/
def remaining : Place × Solver ε → Nat
  | (.ready, s) => 18 * s.lack + 3 * s.load + 3
  | (.imported, s) => 18 * s.lack + 3 * s.load + 2
  | (.propagated, s) => 18 * s.lack + 3 * s.load + 1
  | (.conflicted _, s) => 18 * s.lack + 2
  | (.analyzed _ _, s) => 18 * s.lack + 1
  | _ => 0

/-- Once a search is past the start of a solve, each step takes from what is left of it, and unless it ends with an
answer nothing else ends it then. -/
structure Shorter (x y : Place × Solver ε) : Prop where
  /-- Less is left. -/
  less : remaining y < remaining x
  /-- The search does not end without an answer. -/
  known : y.1 ≠ .ended .unknown
  /-- Nothing else ends the search then. -/
  undisturbed : y.1.over = false → y.2.Undisturbed

theorem shorter_of_over (hx : 0 < remaining x) (hy : y.1.over = true) (hk : y.1 ≠ .ended .unknown) : Shorter x y := by
  obtain ⟨place, s⟩ := y
  refine ⟨?_, hk, fun hn => absurd hy (by simp [hn])⟩
  cases place with
  | ended r => exact hx
  | failed e => exact hx
  | _ => simp [Place.over] at hy

theorem propagatePass_full (hfull : s.trail.propagated = s.trail.size) : propagatePass s = .ok none s := by
  simp only [propagatePass, propagate_full hfull]

/-- Where propagation ends in something else than the state it began in, something was left to be propagated. -/
theorem Live.load_eq (h : s.Live lags) {out : Option Key} (he : propagatePass s = .ok out s')
    (hne : s' = s → out ≠ none) : s.load = 5 := by
  have hle := h.inv.trail.propagated
  unfold load
  rw [if_pos]
  refine Nat.lt_of_le_of_ne hle fun hfull => ?_
  rw [propagatePass_full hfull] at he
  obtain ⟨rfl, rfl⟩ := EStateM.Result.ok.inj he
  exact hne rfl rfl

theorem remaining_propagate (h : s.Live lags) (he : propagatePass s = .ok none s') :
    remaining (.propagated, s') < remaining (.imported, s) := by
  obtain ⟨-, -, hadv, hq⟩ := (ends_propagatePass h).of_ok he
  have hlack := (forward_propagatePass.of_ok he).lack_le (congrArg _ hadv.numbering)
  have hload : s'.load ≤ s.load := by
    by_cases hs : s' = s
    · rw [hs]
    · rw [h.load_eq he fun hs' => absurd hs' hs]
      exact s'.load_le
  change 18 * s'.lack + 3 * s'.load + 1 < 18 * s.lack + 3 * s.load + 2
  omega

theorem remaining_conflict {key : Key} (h : s.Live lags) (he : propagatePass s = .ok (some key) s') :
    remaining (.conflicted key, s') < remaining (.imported, s) := by
  obtain ⟨-, -, hadv, -⟩ := (ends_propagatePass h).of_ok he
  have hlack := (forward_propagatePass.of_ok he).lack_le (congrArg _ hadv.numbering)
  have hload := h.load_eq he (by simp)
  change 18 * s'.lack + 2 < 18 * s.lack + 3 * s.load + 2
  omega

theorem remaining_advance (h : s.Quiet lags) (ho : Onward s s') (hn : s'.numbering.size = s.numbering.size) :
    remaining (.ready, s') < remaining (.propagated, s) := by
  change 18 * s'.lack + 3 * s'.load + 3 < 18 * s.lack + 3 * s.load + 1
  have hload' := s'.load_le
  rcases ho.less with hlack | ⟨htrail, hdue⟩
  · omega
  · have hlack : s'.lack = s.lack := by unfold lack; rw [htrail, hn]
    rw [hlack, load_of_full (htrail ▸ h.full), load_of_full h.full]
    omega

theorem Step.shorter (h : Step prompt x y) (hx : At prompt F x) (hu : x.2.Undisturbed) (hl : x.1 ≠ .loaded)
    (hlong : x.1 = .propagated → x.2.reducing = true →
      1 ≤ (x.2.count fun c => { c with reductions := c.reductions + 1 }).reduceDelta) : Shorter x y := by
  cases h with
  | start he => exact absurd rfl hl
  | answer he => exact absurd rfl hl
  | refuse he => exact absurd rfl hl
  | @take s s' he hn =>
    obtain rfl : s.beginPass = s' := by
      have := importPass_of_none (s := s.beginPass) hu.aloof.units hu.aloof.clauses
      rw [he] at this
      exact (EStateM.Result.ok.inj this).2.symm
    refine ⟨?_, by simp, fun _ => ⟨⟨hu.stopped, hu.conflicts, hu.decisions⟩, hu.plain, hu.aloof⟩⟩
    change 18 * s.lack + 3 * s.load + 2 < 18 * s.lack + 3 * s.load + 3
    omega
  | refute he hr => exact shorter_of_over (Nat.succ_pos _) rfl (by simp)
  | untaken he => exact shorter_of_over (Nat.succ_pos _) rfl (by simp)
  | propagate he =>
    obtain ⟨-, -, hadv, -⟩ := (ends_propagatePass hx).of_ok he
    have hf := forward_propagatePass.of_ok he
    exact ⟨remaining_propagate hx he, by simp, fun _ => hu.advances (hu.timed hf.toTimed) hadv⟩
  | conflict he =>
    obtain ⟨-, -, hadv, -⟩ := (ends_propagatePass hx).of_ok he
    have hf := forward_propagatePass.of_ok he
    exact ⟨remaining_conflict hx he, by simp, fun _ => hu.advances (hu.timed hf.toTimed) hadv⟩
  | unpropagated he => exact shorter_of_over (Nat.succ_pos _) rfl (by simp)
  | @analyze s s' key jump glue he =>
    obtain ⟨hc, -, hadv⟩ := hx.1.note hx.2
    have ha := (ends_analyze hc).of_ok he
    have ht := (timed_analyze key).of_ok he
    have hlack : s'.lack = s.lack := by
      unfold lack
      rw [ha.trail, ha.refines.numbering]
      rfl
    have hnote : s.noteConflict.Unlimited := ⟨hu.stopped, hu.conflicts, hu.decisions⟩
    refine ⟨?_, by simp, fun _ => hu.advances (hnote.timed ht) (hadv.trans ha.advances)⟩
    change 18 * s'.lack + 1 < 18 * s.lack + 2
    omega
  | fundamental he => exact shorter_of_over (Nat.succ_pos _) rfl (by simp)
  | unanalyzed he => exact shorter_of_over (Nat.succ_pos _) rfl (by simp)
  | @learn s s' jump glue hp he =>
    obtain ⟨hi, key, S, hc, ha⟩ := hx
    obtain ⟨hinv, hadv, -⟩ := (ha.ends_learn hc fun hn => by simpa using fun ht => hn (hp ht)).of_ok he
    obtain ⟨p, hp, -, -⟩ := hc.inv
    obtain ⟨a, rest, hl, hass, -⟩ := ha.learned
    have hj := (jumped_learn hl hass.below glue).of_ok he
    have hlack := hj.lack_lt (ha.inv p hp).toFrame hinv.toFrame (congrArg _ hadv.numbering)
    have hload := s'.load_le
    refine ⟨?_, by simp, fun _ => hu.advances (hu.timed hj.toTimed) hadv⟩
    change 18 * s'.lack + 3 * s'.load + 3 < 18 * s.lack + 1
    omega
  | unlearnt hp he => exact shorter_of_over (Nat.succ_pos _) rfl (by simp)
  | advance he =>
    obtain ⟨-, hadv⟩ := (goes_advance hx).of_ok he
    have ho := ((hx.advance_goesOn hu (hlong rfl)).of_ok he).2 rfl
    exact ⟨remaining_advance hx ho (congrArg _ hadv.numbering), by simp, fun _ => hu.advances ho.unlimited hadv⟩
  | finish he =>
    have hk := ((hx.advance_goesOn hu (hlong rfl)).of_ok he).1
    exact shorter_of_over (Nat.succ_pos _) rfl fun hn => hk (congrArg _ (Place.ended.inj hn))
  | unfinished he => exact shorter_of_over (Nat.succ_pos _) rfl (by simp)

/-! ## Runs -/

theorem Step.over_eq (h : Step prompt x y) : x.1.over = false ∧ y.1 ≠ .loaded := by
  cases h <;> exact ⟨rfl, by simp⟩

section Run

variable (h₀ : s₀.Loaded (false = false) F)
  (hlong : ∀ s, Run false (.loaded, s₀) (.propagated, s) → s.reducing = true →
    1 ≤ (s.count fun c => { c with reductions := c.reductions + 1 }).reduceDelta)
include h₀ hlong

/-- Steps one after another take from what is left. -/
theorem shorter_of_transGen (hrun : Run false (.loaded, s₀) x) (hu : x.2.Undisturbed) (hl : x.1 ≠ .loaded)
    (h : Relation.TransGen (Step false) x y) : Shorter x y := by
  have hstep : ∀ {x y}, Run false (.loaded, s₀) x → x.2.Undisturbed → x.1 ≠ .loaded → Step false x y → Shorter x y :=
    fun {x _} hrun hu hl h => h.shorter (hrun.at h₀).1 hu hl fun hp => hlong x.2 (hp ▸ hrun)
  induction h with
  | single h => exact hstep hrun hu hl h
  | @tail y z hxy hyz ih =>
    obtain ⟨hover, -⟩ := hyz.over_eq
    have hnot : y.1 ≠ .loaded := by
      obtain ⟨w, -, hwy⟩ := Relation.TransGen.tail'_iff.1 hxy
      exact hwy.over_eq.2
    have hnext := hstep (hrun.trans hxy.to_reflTransGen) (ih.undisturbed hover) hnot hyz
    exact ⟨hnext.less.trans ih.less, hnext.known, hnext.undisturbed⟩

/-- A search of more passes than there is left ends with a report, and that is an answer. -/
theorem ends_search_report (n : Nat) {s : Solver ε} (hrun : Run false (.loaded, s₀) (.ready, s)) (hu : s.Undisturbed)
    (hn : remaining (.ready, s) < n) :
    Ends (search n) s (fun report _ => ∃ r, report = some r ∧ r ≠ .unknown) fun _ _ => True := by
  induction n generalizing s with
  | zero => exact absurd hn (Nat.not_lt_zero _)
  | succ n ih =>
    unfold search
    rw [ends_bind]
    refine (run_pass s).imp (fun report s₁ h₁ => ?_) fun _ _ _ => trivial
    have hshort := shorter_of_transGen h₀ hlong hrun hu (by simp) h₁
    cases report with
    | some r => exact ⟨r, rfl, fun hr => hshort.known (congrArg Place.ended hr)⟩
    | none =>
      have hless : remaining (.ready, s₁) < remaining (.ready, s) := hshort.less
      exact ih (hrun.trans h₁.to_reflTransGen) (hshort.undisturbed rfl) (by omega)

end Run

end Solver

end ClauseLearning
