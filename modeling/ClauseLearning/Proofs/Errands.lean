import ClauseLearning.Proofs.Clausework
import ClauseLearning.Proofs.Termination

/-!
# What is done between two conflicts

A pass of a search that meets no conflict does one of six things: it reduces, restarts, resets phases, changes the
mode, simplifies, or decides.  Whether the first four are due depends on the count of conflicts, which then stays.  So
each is soon done with, and decisions are taken back only as often as the search returns to the root.

* `Settings.Paced` — settings with which each schedule is set beyond the conflict at which it was due.
* `Solver.ripe`, `Solver.stale`, `Solver.returns` — what may still be due before the next conflict.
* `Counters.errands` — how many of the six things were done.
* `Solver.Spends` — whatever is done was due, and is no more.
* `Solver.Errand` — one of them was done, with `Solver.Quiet.advance_errand`.
-/

namespace ClauseLearning

variable {ε : Type}

/-- Settings with a conflict or more between restarts in focused mode, resets of phases, and changes of mode. -/
structure Settings.Paced (c : Settings) : Prop where
  /-- The time between restarts. -/
  restart : 1 ≤ c.restart.interval.value
  /-- The time between resets of phases. -/
  rephase : 1 ≤ c.phase.rephaseInterval.value
  /-- The time before the first change of mode. -/
  mode : 1 ≤ c.modeInit.value

/-- Settings that are within the bounds of their options. -/
theorem Settings.paced_of_allows {c : Settings}
    (h : ∀ k, (({} : Settings).number k).allows (c.number k).value = true) : c.Paced where
  restart := of_decide_eq_true (Bool.and_eq_true_iff.1 (h .restartInterval)).1
  rephase := of_decide_eq_true (Bool.and_eq_true_iff.1 (h .rephaseInterval)).1
  mode := of_decide_eq_true (Bool.and_eq_true_iff.1 (h .modeInit)).1

/-- How many things were done that need no conflict. -/
def Counters.errands (c : Counters) : Nat :=
  c.reductions + c.rephases + c.modeSwitches + c.restarts + c.simplifications + c.decisions

namespace Solver

variable {lags : Prop} {s s' s'' t : Solver ε}

/-- Whether a restart is due, or would be with any glue of the learnt clauses. -/
def ripe (s : Solver ε) : Bool :=
  if s.orders.stable then s.reluctant.triggered else s.limits.restart ≤ s.counters.conflicts

/-- Whether a simplification is due. -/
def stale (s : Solver ε) : Bool := s.iterating || s.flushing

/-- How often the search may return to the root: a change of mode may be followed by a restart. -/
def returns (s : Solver ε) : Nat := 2 * s.switching.toNat + s.ripe.toNat

theorem returns_le (s : Solver ε) : s.returns ≤ 3 := by
  have h1 := s.switching.toNat_le
  have h2 := s.ripe.toNat_le
  unfold returns
  omega

theorem ripe_of_restarting (h : s.restarting = true) : s.ripe = true := by
  unfold restarting at h
  unfold ripe
  split at h
  · cases h
  · split at h
    · next hs => rwa [if_pos hs]
    · next hs =>
      rw [if_neg hs]
      exact (Bool.and_eq_true_iff.1 h).1

/-- Whatever was done was due, and is due no more, and nothing else has become due. -/
structure Spends (s s' : Solver ε) : Prop where
  /-- The variables. -/
  active : s'.active = s.active
  /-- The conflicts. -/
  conflicts : s'.counters.conflicts = s.counters.conflicts
  /-- The reductions. -/
  reductions : s'.counters.reductions + s'.reducing.toNat ≤ s.counters.reductions + s.reducing.toNat
  /-- The resets of phases. -/
  rephases : s'.counters.rephases + s'.rephasing.toNat ≤ s.counters.rephases + s.rephasing.toNat
  /-- The changes of mode. -/
  switches : s'.counters.modeSwitches + s'.switching.toNat ≤ s.counters.modeSwitches + s.switching.toNat
  /-- The restarts, one of which may come after a change of mode. -/
  restarts : s'.counters.restarts + s'.switching.toNat + s'.ripe.toNat ≤
    s.counters.restarts + s.switching.toNat + s.ripe.toNat
  /-- The simplifications, one of which may come after each return to the root. -/
  simplifications : s'.counters.simplifications + s'.stale.toNat + s'.returns ≤
    s.counters.simplifications + s.stale.toNat + s.returns
  /-- The decisions, all of which may be made again after each return to the root. -/
  decisions : s'.counters.decisions + s'.unassigned + s'.returns * s.active ≤
    s.counters.decisions + s.unassigned + s.returns * s.active

theorem Spends.refl (s : Solver ε) : Spends s s := by constructor <;> rfl

theorem Spends.trans (h : Spends s s') (h' : Spends s' s'') : Spends s s'' where
  active := h'.active.trans h.active
  conflicts := h'.conflicts.trans h.conflicts
  reductions := h'.reductions.trans h.reductions
  rephases := h'.rephases.trans h.rephases
  switches := h'.switches.trans h.switches
  restarts := h'.restarts.trans h.restarts
  simplifications := h'.simplifications.trans h.simplifications
  decisions := by
    have := h'.decisions
    rw [h.active] at this
    exact this.trans h.decisions

/-- One thing was done, and the next pass propagates nothing at the root. -/
structure Errand (s s' : Solver ε) : Prop extends Spends s s' where
  /-- It is counted. -/
  errands : s'.counters.errands = s.counters.errands + 1
  /-- Nothing is left to be propagated at the root. -/
  calm : s'.trail.propagated = s'.trail.size ∨ s'.trail.level ≠ 0

/-! ## What stays -/

/-- What decides whether something is due, but for simplifications. -/
structure Scheduled (s s' : Solver ε) : Prop where
  /-- The settings. -/
  settings : s'.settings = s.settings
  /-- The limits. -/
  limits : s'.limits = s.limits
  /-- The conflicts. -/
  conflicts : s'.counters.conflicts = s.counters.conflicts
  /-- The mode. -/
  stable : s'.orders.stable = s.orders.stable
  /-- The restarts in stable mode. -/
  reluctant : s'.reluctant = s.reluctant

namespace Scheduled

variable (h : Scheduled s s')
include h

theorem reducing : s'.reducing = s.reducing := by simp only [Solver.reducing, h.limits, h.conflicts]

theorem rephasing : s'.rephasing = s.rephasing := by
  simp only [Solver.rephasing, h.settings, h.limits, h.conflicts]

theorem switching : s'.switching = s.switching := by
  simp only [Solver.switching, h.settings, h.limits, h.conflicts]

theorem ripe : s'.ripe = s.ripe := by simp only [Solver.ripe, h.stable, h.reluctant, h.limits, h.conflicts]

theorem returns : s'.returns = s.returns := by simp only [Solver.returns, h.switching, h.ripe]

end Scheduled

/-- Where nothing has become due and no more is unassigned, nothing was done. -/
theorem Scheduled.spends (h : Scheduled s s') (ha : s'.active = s.active) (hu : s'.unassigned ≤ s.unassigned)
    (hs : s'.stale.toNat ≤ s.stale.toNat) (hc : s'.counters.reductions = s.counters.reductions)
    (hp : s'.counters.rephases = s.counters.rephases) (hm : s'.counters.modeSwitches = s.counters.modeSwitches)
    (hr : s'.counters.restarts = s.counters.restarts) (hf : s'.counters.simplifications = s.counters.simplifications)
    (hd : s'.counters.decisions = s.counters.decisions) : Spends s s' where
  active := ha
  conflicts := h.conflicts
  reductions := by rw [hc, h.reducing]
  rephases := by rw [hp, h.rephasing]
  switches := by rw [hm, h.switching]
  restarts := by rw [hr, h.switching, h.ripe]
  simplifications := by rw [hf, h.returns]; omega
  decisions := by rw [hd, h.returns]; omega

/-- What is outside does not matter. -/
theorem spends_outside (s : Solver ε) (outside : ε) : Spends s { s with outside } :=
  ⟨rfl, rfl, Nat.le_refl _, Nat.le_refl _, Nat.le_refl _, Nat.le_refl _, Nat.le_refl _, Nat.le_refl _⟩

/-- What is done later. -/
theorem Errand.after (h' : Errand s' s'') (h : Spends s s') (he : s'.counters.errands = s.counters.errands) :
    Errand s s'' :=
  ⟨h.trans h'.toSpends, by rw [h'.errands, he], h'.calm⟩

/-! ## Work on clauses -/

/-- Work on clauses is no matter of schedules. -/
theorem Clausal.scheduled (h : Clausal s s') (hset : s'.settings = s.settings) : Scheduled s s' :=
  ⟨hset, (congrArg Solver.limits h).trans rfl, (congrArg (fun t => t.counters.conflicts) h).trans rfl,
    (congrArg (fun t => t.orders.stable) h).trans rfl, (congrArg Solver.reluctant h).trans rfl⟩

/-- A count that is not one of what such work counts stays. -/
theorem Clausal.counter (h : Clausal s s') {f : Counters → Nat}
    (hf : ∀ c p l y, f { c with propagations := p, collections := l, hyperBinaries := y } = f c) :
    f s'.counters = f s.counters :=
  (congrArg (fun t => f t.counters) h).trans (hf _ _ _ _)

theorem Clausal.active (h : Clausal s s') : s'.active = s.active := (congrArg Solver.active h).trans rfl

/-- A simplification that is due. -/
theorem Quiet.simplify_errand (hq : s.Quiet lags) (h0 : s.trail.level = 0) (hdue : s.stale = true) :
    Ends simplify s (fun _ s' => Errand s s') fun _ _ => True := by
  refine (((ends_simplify hq.inv hq.full h0 hq.consistent).and (ends_simplify_flushed hq.consistent hq.full)).and
    (ends_simplify_clausal hq.consistent hq.full)).imp (fun _ s' h' => ?_) fun _ _ _ => trivial
  obtain ⟨⟨htrim, hflush⟩, hclausal⟩ := h'
  have hs : Scheduled s s' :=
    have h := hclausal.scheduled htrim.refines.settings
    ⟨h.settings, h.limits, h.conflicts, h.stable, h.reluctant⟩
  have hunassigned : s'.unassigned = s.unassigned := by
    have hactive : s'.active = s.active := hclausal.active
    simp only [unassigned, hactive, hflush.trail]
  have hstale : s'.stale = false := by simp [stale, flushing, hflush.iterating, hflush.unflushed]
  have hcount : s'.counters.simplifications = s.counters.simplifications + 1 :=
    hclausal.counter (f := Counters.simplifications) fun _ _ _ _ => rfl
  exact {
    active := hclausal.active
    conflicts := hs.conflicts
    reductions := by
      rw [hs.reducing, hclausal.counter (f := Counters.reductions) fun _ _ _ _ => rfl]
    rephases := by rw [hs.rephasing, hclausal.counter (f := Counters.rephases) fun _ _ _ _ => rfl]
    switches := by rw [hs.switching, hclausal.counter (f := Counters.modeSwitches) fun _ _ _ _ => rfl]
    restarts := by rw [hs.switching, hs.ripe, hclausal.counter (f := Counters.restarts) fun _ _ _ _ => rfl]
    simplifications := by
      rw [hs.returns, hstale, hdue, hcount, Bool.toNat_true, Bool.toNat_false]
    decisions := by
      rw [hs.returns, hunassigned, hclausal.counter (f := Counters.decisions) fun _ _ _ _ => rfl]
    errands := by
      rw [hclausal.counter (f := Counters.errands) fun _ _ _ _ => rfl]
      simp only [Counters.errands]
      omega
    calm := .inl (by rw [hflush.trail, hq.full]) }

/-- A reduction that is due. -/
theorem Quiet.reduce_errand (hq : s.Quiet lags) (hdue : s.reducing = true)
    (hlong : 1 ≤ (s.count fun c => { c with reductions := c.reductions + 1 }).reduceDelta) :
    Ends reduce s (fun _ s' => Errand s s') fun _ _ => True := by
  refine ((ends_reduce hq.inv hq.full).and ((ends_reduce_still s).and (ends_reduce_clausal s))).imp
    (fun _ s' h' => ?_) fun _ _ _ => trivial
  obtain ⟨htrim, ⟨t', hstill, ht'⟩, t, ht, rfl⟩ := h'
  have ht : Clausal { s with counters.reductions := s.counters.reductions + 1 } t := ht
  have hset : t.settings = s.settings := htrim.refines.settings
  have hs : Scheduled s t :=
    have h := ht.scheduled hset
    ⟨h.settings, h.limits, h.conflicts, h.stable, h.reluctant⟩
  have htrail : t.trail = s.trail := (congrArg Solver.trail ht').trans hstill.trail
  have hunflushed : t.unflushed = s.unflushed := (congrArg Solver.unflushed ht').trans hstill.unflushed
  have hiterating : t.iterating = s.iterating := (congrArg Solver.iterating ht').trans hstill.iterating
  have hcount : t.counters.reductions = s.counters.reductions + 1 :=
    ht.counter (f := Counters.reductions) fun _ _ _ _ => rfl
  have hdelta : t.reduceDelta = (s.count fun c => { c with reductions := c.reductions + 1 }).reduceDelta := by
    simp only [reduceDelta, hcount, hset]
    rfl
  have hreducing : reducing { t with limits.reduce := t.counters.conflicts + t.reduceDelta } = false := by
    simp only [reducing, hdelta, decide_eq_false_iff_not]
    omega
  have hunassigned : t.unassigned = s.unassigned := by
    have hactive : t.active = s.active := ht.active
    simp only [unassigned, hactive, htrail]
  have hstale : t.stale = s.stale := by simp only [stale, flushing, htrail, hunflushed, hiterating]
  exact {
    active := ht.active
    conflicts := hs.conflicts
    reductions := by
      show t.counters.reductions + _ ≤ _
      rw [hreducing, hcount, hdue]
      exact Nat.le_refl _
    rephases := by
      show t.counters.rephases + t.rephasing.toNat ≤ _
      rw [hs.rephasing, ht.counter (f := Counters.rephases) fun _ _ _ _ => rfl]
    switches := by
      show t.counters.modeSwitches + t.switching.toNat ≤ _
      rw [hs.switching, ht.counter (f := Counters.modeSwitches) fun _ _ _ _ => rfl]
    restarts := by
      show t.counters.restarts + t.switching.toNat + t.ripe.toNat ≤ _
      rw [hs.switching, hs.ripe, ht.counter (f := Counters.restarts) fun _ _ _ _ => rfl]
    simplifications := by
      show t.counters.simplifications + t.stale.toNat + t.returns ≤ _
      rw [hs.returns, hstale, ht.counter (f := Counters.simplifications) fun _ _ _ _ => rfl]
    decisions := by
      show t.counters.decisions + t.unassigned + t.returns * _ ≤ _
      rw [hs.returns, hunassigned, ht.counter (f := Counters.decisions) fun _ _ _ _ => rfl]
    errands := by
      show t.counters.errands = _
      rw [ht.counter (f := Counters.errands) fun _ _ _ _ => rfl]
      simp only [Counters.errands]
      omega
    calm := .inl (by show t.trail.propagated = t.trail.size; rw [htrail, hq.full]) }

/-! ## Resets of phases, restarts, and modes -/

/-- A reset of phases that is due. -/
theorem Quiet.rephase_errand (hq : s.Quiet lags) (hp : s.settings.Paced) (hdue : s.rephasing = true) :
    Errand s s.rephase.2 := by
  have hrephasing := s.rephasing_rephase hp.rephase
  obtain ⟨phases, random, he⟩ := rephase_eq s
  have hrephases : s.rephase.2.counters.rephases + s.rephase.2.rephasing.toNat ≤
      s.counters.rephases + s.rephasing.toNat := by
    rw [hrephasing, hdue, he, Bool.toNat_true, Bool.toNat_false]
  rw [he] at hrephases ⊢
  exact {
    active := rfl
    conflicts := rfl
    reductions := Nat.le_refl _
    rephases := hrephases
    switches := Nat.le_refl _
    restarts := Nat.le_refl _
    simplifications := Nat.le_refl _
    decisions := Nat.le_refl _
    errands := by simp only [Counters.errands]; omega
    calm := .inl hq.full }

/-- What taking levels back does not touch. -/
theorem backtrack_scheduled (s : Solver ε) (k : Nat) :
    Scheduled s (s.backtrack k) ∧ (s.backtrack k).active = s.active ∧ (s.backtrack k).counters = s.counters := by
  by_cases hk : k < s.trail.level
  · obtain ⟨phases, -, he⟩ := backtrack_eq s hk
    rw [he]
    exact ⟨⟨rfl, rfl, rfl, stable_reinsertAll _ _, rfl⟩, rfl, rfl⟩
  · rw [backtrack_of_le s (Nat.le_of_not_lt hk)]
    exact ⟨⟨rfl, rfl, rfl, rfl, rfl⟩, rfl, rfl⟩

/-- After a return to the root everything may be unassigned. -/
theorem unassigned_le (s : Solver ε) : s.unassigned ≤ s.active := Nat.sub_le ..

/-- A return to the root, by `n` restarts and `m` changes of mode, one in all.  It pays for the decisions and the
simplification that may come after it. -/
theorem errand_of_return {n m : Nat} (hn : n + m = 1) (hreducing : s'.reducing = s.reducing)
    (hrephasing : s'.rephasing = s.rephasing) (hswitches : m + s'.switching.toNat ≤ s.switching.toNat)
    (hrestarts : n + s'.switching.toNat + s'.ripe.toNat ≤ s.switching.toNat + s.ripe.toNat)
    (hactive : s'.active = s.active)
    (hcounters : s'.counters = { s.counters with
      restarts := s.counters.restarts + n, modeSwitches := s.counters.modeSwitches + m })
    (hfull : s'.trail.propagated = s'.trail.size) : Errand s s' := by
  have hreturns : s'.returns + 1 ≤ s.returns := by
    unfold returns
    omega
  have hstale := s'.stale.toNat_le
  have hun : s'.unassigned ≤ s.active := hactive ▸ s'.unassigned_le
  have hmul : (s'.returns + 1) * s.active ≤ s.returns * s.active := Nat.mul_le_mul_right _ hreturns
  rw [Nat.succ_mul] at hmul
  refine ⟨⟨hactive, by rw [hcounters], by rw [hcounters, hreducing], by rw [hcounters, hrephasing], ?_, ?_, ?_, ?_⟩, ?_,
    .inl hfull⟩
  all_goals rw [hcounters]
  · show s.counters.modeSwitches + m + _ ≤ _
    omega
  · show s.counters.restarts + n + _ + _ ≤ _
    omega
  · show s.counters.simplifications + _ + _ ≤ _
    omega
  · show s.counters.decisions + _ + _ ≤ _
    omega
  · simp only [Counters.errands]
    omega

/-- A restart that is due. -/
theorem Quiet.restart_errand (hq : s.Quiet lags) (hp : s.settings.Paced) (hdue : s.restarting = true) :
    Errand s s.restart := by
  have hripe : s.ripe = true := ripe_of_restarting hdue
  have hfull := (hq.inv.restart hq.full).full
  -- in both modes no restart is due any more
  have hgo : ∀ {s' : Solver ε}, s'.reducing = s.reducing → s'.rephasing = s.rephasing → s'.switching = s.switching →
      s'.ripe = false → s'.active = s.active → s'.counters = { s.counters with restarts := s.counters.restarts + 1 } →
      s'.trail.propagated = s'.trail.size → Errand s s' :=
    fun hreducing hrephasing hswitching hripe' hactive hcounters hfull =>
      errand_of_return (n := 1) (m := 0) rfl hreducing hrephasing (by rw [hswitching]; omega)
        (by rw [hswitching, hripe, hripe', Bool.toNat_true, Bool.toNat_false]; omega) hactive hcounters hfull
  obtain ⟨hb, hactive, hcounters⟩ := backtrack_scheduled (s.count fun c => { c with restarts := c.restarts + 1 }) 0
  unfold restart at hfull ⊢
  dsimp only at hfull ⊢
  split
  · next hstable =>
    rw [if_pos hstable] at hfull
    exact hgo hb.reducing hb.rephasing hb.switching (by simp [ripe, hstable, Reluctant.take]) hactive hcounters hfull
  · next hstable =>
    rw [if_neg hstable] at hfull
    refine hgo hb.reducing hb.rephasing hb.switching ?_ hactive hcounters hfull
    have hinterval := hp.restart
    have hsettings : (backtrack (s.count fun c => { c with restarts := c.restarts + 1 }) 0).settings = s.settings :=
      hb.settings
    simp only [ripe, if_neg hstable, hsettings, decide_eq_false_iff_not]
    omega

/-- A mode is entered.  It may make a restart due. -/
theorem enterMode_restart (s : Solver ε) (stable : Bool) : ∃ reluctant restart phases,
    s.enterMode stable =
      { s with orders := s.orders.switch stable s.free, reluctant, limits.restart := restart, phases } := by
  unfold enterMode onOrders
  cases stable with
  | true => exact ⟨_, _, _, rfl⟩
  | false => exact ⟨_, _, _, rfl⟩

/-- A change of mode that is due. -/
theorem Quiet.switchMode_errand (hq : s.Quiet lags) (hp : s.settings.Paced) (hdue : s.switching = true) :
    Errand s s.switchMode := by
  have hfull := (hq.inv.switchMode hq.full).full
  obtain ⟨hb, hactive, hcounters⟩ :=
    backtrack_scheduled (s.count fun c => { c with modeSwitches := c.modeSwitches + 1 }) 0
  unfold switchMode at hfull ⊢
  dsimp only at hfull ⊢
  generalize (s.count fun c => { c with modeSwitches := c.modeSwitches + 1 }).backtrack 0 = b
    at hb hactive hcounters hfull ⊢
  obtain ⟨reluctant, restart, phases, he⟩ := enterMode_restart b (!s.orders.stable)
  rw [he] at hfull ⊢
  have hnext : 1 ≤ b.settings.modeInit.value * (b.counters.modeSwitches + 1) * (b.counters.modeSwitches + 1) :=
    Nat.mul_pos (Nat.mul_pos ((congrArg (fun c : Settings => 1 ≤ c.modeInit.value) hb.settings).mpr hp.mode)
      (Nat.succ_pos _)) (Nat.succ_pos _)
  generalize hs' : ({ b with
    orders := b.orders.switch (!s.orders.stable) b.free
    reluctant
    phases
    limits := { b.limits with
      restart
      mode := b.counters.conflicts +
        b.settings.modeInit.value * (b.counters.modeSwitches + 1) * (b.counters.modeSwitches + 1) } } : Solver ε) = s'
  have hreducing : s'.reducing = s.reducing := by
    rw [← hs']
    exact hb.reducing
  have hrephasing : s'.rephasing = s.rephasing := by
    rw [← hs']
    exact hb.rephasing
  have hswitching : s'.switching = false := by
    rw [← hs']
    simp only [switching, Bool.and_eq_false_iff, decide_eq_false_iff_not]
    right
    omega
  have hripe := s'.ripe.toNat_le
  refine errand_of_return (n := 0) (m := 1) rfl hreducing hrephasing ?_ ?_ (by rw [← hs']; exact hactive)
    (by rw [← hs']; exact hcounters) (by rw [← hs']; exact hfull)
  · rw [hswitching, hdue]
    exact Nat.le_refl _
  · rw [hswitching, hdue, Bool.toNat_true, Bool.toNat_false]
    omega

/-! ## Decisions -/

theorem stable_next (o : Orders) (a : Assignment) : (o.next? a).2.stable = o.stable := by
  unfold Orders.next?
  split <;> rfl

/-- A decision, where something is unassigned. -/
theorem Quiet.decide_errand (hq : s.Quiet lags) (hi : s.iterating = false) (hu : s.unassigned ≠ 0) :
    Ends decidePass s (fun _ s' => Errand s s') fun _ _ => True := by
  unfold decidePass
  simp only [ends_bind, ends_modifyGet]
  cases hnext : s.orders.next? s.assignment with
  | mk found orders =>
    have hstable : orders.stable = s.orders.stable := by rw [← stable_next s.orders s.assignment, hnext]
    cases found with
    | none =>
      have hdecide : s.decide = (none, { s with orders }) := by
        unfold decide onOrders
        simp only [hnext]
      rw [hdecide]
      trivial
    | some v =>
      obtain ⟨b, hdecide⟩ := decide_of_next hnext
      rw [hdecide]
      dsimp only
      rw [ends_pure]
      have hs : Scheduled s (decideLiteral { s with
          orders, counters.decisions := s.counters.decisions + 1 } (.make v b)) := ⟨rfl, rfl, rfl, hstable, rfl⟩
      have hlevel : s.trail.level + 1 = (s.trail.pushDecision (.make v b)).level :=
        (Trail.level_pushDecision hq.inv.trail.frames _).symm
      have hsize : (s.trail.pushDecision (.make v b)).size = s.trail.size + 1 := Trail.size_pushDecision ..
      have hstale : stale (decideLiteral { s with
          orders, counters.decisions := s.counters.decisions + 1 } (.make v b)) = false := by
        have hflushing : ¬ ((s.trail.pushDecision (.make v b)).level = 0 ∧ 0 < s.unflushed) := by omega
        simp only [stale, flushing, decideLiteral, hi, hflushing, Bool.false_or, decide_false]
      refine ⟨⟨rfl, rfl, by rw [hs.reducing]; exact Nat.le_refl _, by rw [hs.rephasing]; exact Nat.le_refl _,
        by rw [hs.switching]; exact Nat.le_refl _, by rw [hs.switching, hs.ripe]; exact Nat.le_refl _, ?_, ?_⟩, ?_,
        .inr ?_⟩
      · rw [hs.returns, hstale, Bool.toNat_false]
        show s.counters.simplifications + 0 + _ ≤ _
        omega
      · rw [hs.returns]
        show s.counters.decisions + 1 + (s.active - (s.trail.pushDecision (.make v b)).size) + _ ≤
          s.counters.decisions + (s.active - s.trail.size) + _
        have hun : s.active - s.trail.size ≠ 0 := hu
        omega
      · simp only [Counters.errands, decideLiteral]
        omega
      · show (s.trail.pushDecision (.make v b)).level ≠ 0
        omega

/-! ## A pass without a conflict -/

theorem Quiet.simplifyPass_errand (hq : s.Quiet lags) (h0 : s.trail.level = 0) (hdue : s.stale = true) :
    Ends simplifyPass s (fun report s' => report = none → Errand s s') fun _ _ => True := by
  unfold simplifyPass
  simp only [ends_bind, ends_get, ends_pure]
  exact (hq.simplify_errand h0 hdue).imp (fun _ _ h _ => h) fun _ _ _ => trivial

/-- What is due is done, or else a literal is decided. -/
theorem Quiet.proceed_errand (hq : s.Quiet lags) (hp : s.settings.Paced) (hi : s.iterating = false)
    (hu : s.unassigned ≠ 0) (hlong : s.reducing = true →
      1 ≤ (s.count fun c => { c with reductions := c.reductions + 1 }).reduceDelta) :
    Ends proceed s (fun report s' => report = none → Errand s s') fun _ _ => True := by
  unfold proceed
  simp only [ends_bind, ends_get, ends_ite, ends_pure, ends_modify, reduceCtorEq, false_implies, implies_true,
    true_implies, true_and]
  refine fun _ => ⟨fun hr => ?_, fun _ => ⟨fun hr => hq.restart_errand hp hr, fun _ =>
    ⟨fun hr => hq.rephase_errand hp hr, fun _ => ⟨fun hr => hq.switchMode_errand hp hr, fun _ => ⟨fun h0 => ?_,
      fun _ _ => ?_⟩⟩⟩⟩⟩
  · exact hq.reduce_errand hr (hlong hr)
  · exact hq.simplifyPass_errand h0.1 (by simp [stale, flushing, h0])
  · exact (hq.decide_errand hi hu).imp (fun _ _ h _ => h) fun _ _ _ => trivial

/-- A pass that meets no conflict and has no report does one thing. -/
theorem Quiet.advance_errand (hq : s.Quiet lags) (hp : s.settings.Paced) (hlong : s.reducing = true →
    1 ≤ (s.count fun c => { c with reductions := c.reductions + 1 }).reduceDelta) :
    Ends advance s (fun report s' => report = none → Errand s s') fun _ _ => True := by
  unfold advance
  simp only [ends_bind, ends_get, ends_ite, ends_pure, ends_modifyGet, reduceCtorEq, false_implies, implies_true,
    true_and]
  refine ⟨fun hi => hq.simplifyPass_errand (hq.inv.iterating hi) (by simp [stale, hi]), fun hi hu _ => ?_⟩
  obtain ⟨outside, he⟩ := isTerminated_eq s
  rw [he]
  exact ((hq.outside outside).proceed_errand hp (Bool.not_eq_true _ ▸ hi) hu hlong).imp
    (fun _ _ h hr => (h hr).after (spends_outside s outside) rfl) fun _ _ _ => trivial

end Solver

end ClauseLearning
