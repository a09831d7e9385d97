import ClauseLearning.Proofs.Errands
import ClauseLearning.Proofs.Lasting
import ClauseLearning.Proofs.Timetable
import ClauseLearning.Proofs.Trial
import Mathlib.Tactic.Ring

/-!
# The limits of a search have room

A search is given limits, and whatever is done on a schedule sets the next one.  An interval may be as long as there is
room for in 64 bits, and it is added to the count of conflicts.  There is room for the sum because nothing with a long
interval is ever due: what is due has waited for all of its interval.

One schedule is not so.  A change back to focused mode makes a restart due at once, whatever the interval, and the limit
that this restart sets may be too large.

* `ResetsAt`, `SwitchesAt`, `RestartsAt` — what the limits of three schedules are, by the counts of a search.
* `Solver.OnTime` — the limits are those of the schedules, with `Solver.OnTime.timed`, `Solver.OnTime.rephase`, ….
* `Solver.Step.timely` — and so they are after each step of a run.
* `Solver.InTime`, `Solver.Renews` — limits have room, and what is due sets one that is later, with room.
* `Solver.limits_fit` — so it is at every place of a run, but for restarts after the second change of mode.
* `Solver.restart_exceeds` — and such a restart may set a limit for which there is no room.
-/

namespace ClauseLearning

/-- Settings whose intervals have room in 64 bits. -/
structure Settings.Fitting (c : Settings) : Prop extends c.Paced where
  /-- The conflicts from one reduction to the next. -/
  reduce_le : c.keep.reduceInterval.value ≤ greatestLong
  /-- The conflicts between restarts in focused mode. -/
  restart_le : c.restart.interval.value ≤ greatestLong
  /-- The conflicts from one reset of phases to the next. -/
  rephase_le : c.phase.rephaseInterval.value ≤ greatestLong
  /-- The conflicts before the first change of mode. -/
  mode_le : c.modeInit.value ≤ greatestLong
  /-- The period of the restarts in stable mode. -/
  period_le : c.restart.reluctantPeriod.value ≤ greatestLong
  /-- The longest wait for a restart in stable mode. -/
  longest_le : c.restart.reluctantMax.value ≤ greatestLong

/-- Settings that are within the bounds of their options. -/
theorem Settings.Fitting.of_allows {c : Settings}
    (h : ∀ k, (({} : Settings).number k).allows (c.number k).value = true) : c.Fitting where
  toPaced := paced_of_allows h
  reduce_le := of_decide_eq_true (Bool.and_eq_true_iff.1 (h .reduceInterval)).2
  restart_le := of_decide_eq_true (Bool.and_eq_true_iff.1 (h .restartInterval)).2
  rephase_le := of_decide_eq_true (Bool.and_eq_true_iff.1 (h .rephaseInterval)).2
  mode_le := of_decide_eq_true (Bool.and_eq_true_iff.1 (h .modeInit)).2
  period_le := of_decide_eq_true (Bool.and_eq_true_iff.1 (h .reluctantPeriod)).2
  longest_le := of_decide_eq_true (Bool.and_eq_true_iff.1 (h .reluctantMax)).2

/-- All limits have room in 64 bits. -/
structure Limits.Fit (l : Limits) : Prop where
  /-- The conflicts at which a search ends. -/
  conflicts : ∀ n ∈ l.conflicts, n ≤ greatestLong
  /-- The decisions at which a search ends. -/
  decisions : ∀ n ∈ l.decisions, n ≤ greatestLong
  /-- The next reduction. -/
  reduce : l.reduce ≤ greatestLong
  /-- The next reset of phases. -/
  rephase : l.rephase ≤ greatestLong
  /-- The next change of mode. -/
  mode : l.mode ≤ greatestLong
  /-- The next restart in focused mode. -/
  restart : l.restart ≤ greatestLong

/-! ## Three schedules

Each limit is the interval that the search began with, or was set when the one before was reached. -/

variable {interval conflicts conflicts' n limit : Nat}

/-- The limit of the next reset of phases, after `n` of them. -/
structure ResetsAt (interval conflicts n limit : Nat) : Prop where
  /-- All of an interval has to pass. -/
  interval_le : interval ≤ limit
  /-- There is a conflict or more for each reset. -/
  count_lt : n < limit
  /-- A reset happens after as many conflicts as the interval has, and as there were resets. -/
  set : limit = interval ∨ limit ≤ conflicts * (conflicts + 1)

namespace ResetsAt

theorem start (h : 1 ≤ interval) : ResetsAt interval conflicts 0 interval := ⟨Nat.le_refl _, h, .inl rfl⟩

theorem mono (h : ResetsAt interval conflicts n limit) (hle : conflicts ≤ conflicts') :
    ResetsAt interval conflicts' n limit :=
  ⟨h.interval_le, h.count_lt, h.set.imp_right fun h => h.trans (Nat.mul_le_mul hle (Nat.succ_le_succ hle))⟩

theorem again (h : ResetsAt interval conflicts n limit) (hone : 1 ≤ interval) (hdue : limit ≤ conflicts) :
    ResetsAt interval conflicts (n + 1) (conflicts + interval * (n + 1)) := by
  have hinterval : interval ≤ conflicts := h.interval_le.trans hdue
  have hcount : n + 1 ≤ conflicts := h.count_lt.trans_le hdue
  have hmul : interval * (n + 1) ≤ conflicts * conflicts := Nat.mul_le_mul hinterval hcount
  have hpos : n + 1 ≤ interval * (n + 1) := Nat.le_mul_of_pos_left _ hone
  refine ⟨?_, by omega, .inr ?_⟩
  · have := Nat.le_mul_of_pos_right interval (Nat.succ_pos n)
    omega
  · rw [Nat.mul_succ conflicts]
    omega

theorem le_greatest (h : ResetsAt interval conflicts n limit) (hi : interval ≤ greatestLong)
    (hfew : conflicts < 2 ^ 32) : limit ≤ greatestLong := by
  rcases h.set with rfl | hset
  · exact hi
  · have : conflicts * (conflicts + 1) ≤ (2 ^ 32 - 1) * 2 ^ 32 := Nat.mul_le_mul (by omega) hfew
    simp only [greatestLong]
    omega

end ResetsAt

/-- The limit of the next change of mode, after `n` of them. -/
structure SwitchesAt (interval conflicts n limit : Nat) : Prop where
  /-- What has to pass grows with the square of the count. -/
  square_le : interval * (n + 1) * (n + 1) ≤ limit
  /-- A change happens after as many conflicts, and the next square is at most four times as large. -/
  set : limit = interval ∨ limit ≤ 5 * conflicts

namespace SwitchesAt

theorem start (interval conflicts : Nat) : SwitchesAt interval conflicts 0 interval :=
  ⟨by rw [Nat.mul_one, Nat.mul_one], .inl rfl⟩

theorem mono (h : SwitchesAt interval conflicts n limit) (hle : conflicts ≤ conflicts') :
    SwitchesAt interval conflicts' n limit :=
  ⟨h.square_le, h.set.imp_right fun h => by omega⟩

theorem again (h : SwitchesAt interval conflicts n limit) (hdue : limit ≤ conflicts) :
    SwitchesAt interval conflicts (n + 1) (conflicts + interval * (n + 1 + 1) * (n + 1 + 1)) := by
  have hdouble : n + 1 + 1 ≤ 2 * (n + 1) := by omega
  have hsquare : interval * (n + 1 + 1) * (n + 1 + 1) ≤ 4 * conflicts :=
    calc interval * (n + 1 + 1) * (n + 1 + 1)
      _ ≤ interval * (2 * (n + 1)) * (2 * (n + 1)) := Nat.mul_le_mul (Nat.mul_le_mul_left _ hdouble) hdouble
      _ = 4 * (interval * (n + 1) * (n + 1)) := by ring
      _ ≤ 4 * conflicts := Nat.mul_le_mul_left 4 (h.square_le.trans hdue)
  exact ⟨Nat.le_add_left _ _, .inr (by omega)⟩

theorem le_greatest (h : SwitchesAt interval conflicts n limit) (hi : interval ≤ greatestLong)
    (hfew : conflicts < 2 ^ 32) : limit ≤ greatestLong := by
  rcases h.set with rfl | hset
  · exact hi
  · simp only [greatestLong]
    omega

end SwitchesAt

/-- The least conflicts of the next restart in focused mode, after `n` changes of mode. -/
structure RestartsAt (interval conflicts n limit : Nat) : Prop where
  /-- Up to the second change of mode, all of an interval has to pass. -/
  interval_le : n < 2 → interval ≤ limit
  /-- A restart happens after as many conflicts, but after the second change of mode it may happen earlier. -/
  set : limit = interval ∨ limit ≤ 2 * conflicts ∨ 2 ≤ n ∧ limit ≤ conflicts + interval

namespace RestartsAt

theorem start (interval conflicts : Nat) : RestartsAt interval conflicts 0 interval :=
  ⟨fun _ => Nat.le_refl _, .inl rfl⟩

theorem mono (h : RestartsAt interval conflicts n limit) (hle : conflicts ≤ conflicts') :
    RestartsAt interval conflicts' n limit := by
  refine ⟨h.interval_le, ?_⟩
  have := h.set
  omega

theorem again (h : RestartsAt interval conflicts n limit) (hdue : limit ≤ conflicts) :
    RestartsAt interval conflicts n (conflicts + interval) := by
  have := h.interval_le
  exact ⟨fun _ => Nat.le_add_left _ _, by omega⟩

/-- Stable mode is entered. -/
theorem entersStable (h : RestartsAt interval conflicts n limit) : RestartsAt interval conflicts (n + 1) limit := by
  have := h.interval_le
  have := h.set
  exact ⟨by omega, by omega⟩

/-- Focused mode is entered, and a restart may come at once.  Before that, stable mode was entered. -/
theorem entersFocused (interval conflicts : Nat) (hn : n ≠ 0) : RestartsAt interval conflicts (n + 1) conflicts :=
  ⟨by omega, by omega⟩

theorem le_greatest (h : RestartsAt interval conflicts n limit) (hi : interval ≤ greatestLong)
    (hfew : conflicts < 2 ^ 32) :
    limit ≤ greatestLong ∨ 2 ≤ n ∧ greatestLong < conflicts + interval := by
  have := h.set
  simp only [greatestLong] at *
  omega

end RestartsAt

namespace Solver

variable {ε α : Type} {C : Settings} {hooks : Hooks ε} {conflictBudget decisionBudget : Option Nat} {stopped : Bool}
  {outside : ε} {calls : List Call} {s₀ s s' : Solver ε} {place : Place} {x : SolverM ε α}

/-! ## The limits of a search -/

/-- The schedule of restarts in stable mode is as far as some timetable. -/
def Ticking (c : Settings) (r : Reluctant) : Prop :=
  ∃ t, Reluctant.Follows (max c.restart.reluctantPeriod.value 1)
    (max c.restart.reluctantMax.value (max c.restart.reluctantPeriod.value 1)) r t

theorem Ticking.start (hc : C.Fitting) :
    Ticking C (.start C.restart.reluctantPeriod.value C.restart.reluctantMax.value) :=
  ⟨{}, .start hc.period_le _⟩

theorem Ticking.event {r : Reluctant} (h : Ticking C r) (hc : C.Fitting) (e : Reluctant.Event) :
    Ticking C (e.act r) := by
  obtain ⟨t, ht⟩ := h
  exact ⟨_, ht.step (Nat.max_le.2 ⟨hc.period_le, by decide⟩) (Nat.le_max_right ..) e⟩

theorem Ticking.ticks {r : Reluctant} (h : Ticking C r) (hc : C.Fitting) (n : Nat) :
    Ticking C (Reluctant.tick^[n] r) := by
  induction n with
  | zero => exact h
  | succ n ih =>
    rw [Function.iterate_succ_apply']
    exact ih.event hc .tick

/-- What entering a mode sets: in stable mode a new schedule of restarts, and in focused mode a limit. -/
theorem enterMode_sets (s : Solver ε) (stable : Bool) : s.enterMode stable =
    { s with
      orders := s.orders.switch stable s.free
      reluctant := if stable then
        .start s.settings.restart.reluctantPeriod.value s.settings.restart.reluctantMax.value else s.reluctant
      limits.restart := if stable then s.limits.restart else s.counters.conflicts
      phases.targetAssigned := 0 } := by
  cases stable <;> rfl

/-- The limits of a search are those of its schedules. -/
structure OnTime (c : Settings) (s : Solver ε) : Prop where
  /-- The settings. -/
  settings : s.settings = c
  /-- The conflicts at which the search ends. -/
  conflicts : ∀ n ∈ s.limits.conflicts, n ≤ greatestLong
  /-- The decisions at which it ends. -/
  decisions : ∀ n ∈ s.limits.decisions, n ≤ greatestLong
  /-- Resets of phases. -/
  resets : ResetsAt c.phase.rephaseInterval.value s.counters.conflicts s.counters.rephases s.limits.rephase
  /-- Changes of mode. -/
  switches : SwitchesAt c.modeInit.value s.counters.conflicts s.counters.modeSwitches s.limits.mode
  /-- Restarts in focused mode. -/
  restarts : RestartsAt c.restart.interval.value s.counters.conflicts s.counters.modeSwitches s.limits.restart
  /-- A search that changes modes begins in focused mode. -/
  focused : s.counters.modeSwitches = 0 → c.mode.value = .switching → s.orders.stable = false
  /-- Restarts in stable mode. -/
  ticking : Ticking c s.reluctant

namespace OnTime

/-- What leaves the limits alone. -/
theorem timed (h : OnTime C s) (hc : C.Fitting) (ht : Timed s s') : OnTime C s' := by
  obtain ⟨⟨hset, hstable⟩, hclock, n, hticks⟩ := ht.clocked
  simp only [Counters.clock, Prod.mk.injEq] at hclock
  obtain ⟨hrephases, hswitches, -⟩ := hclock
  constructor
  · rw [hset, h.settings]
  · rw [ht.limits]
    exact h.conflicts
  · rw [ht.limits]
    exact h.decisions
  · rw [ht.limits, ht.conflicts, hrephases]
    exact h.resets
  · rw [ht.limits, ht.conflicts, hswitches]
    exact h.switches
  · rw [ht.limits, ht.conflicts, hswitches]
    exact h.restarts
  · rw [hswitches, hstable]
    exact h.focused
  · rw [hticks]
    exact h.ticking.ticks hc n

theorem noteConflict (h : OnTime C s) : OnTime C s.noteConflict :=
  have hle := Nat.le_succ s.counters.conflicts
  ⟨h.settings, h.conflicts, h.decisions, h.resets.mono hle, h.switches.mono hle, h.restarts.mono hle, h.focused,
    h.ticking⟩

theorem rephase (h : OnTime C s) (hc : C.Fitting) (hdue : s.rephasing = true) : OnTime C s.rephase.2 := by
  have hreached : s.limits.rephase ≤ s.counters.conflicts := of_decide_eq_true (Bool.and_eq_true_iff.1 hdue).2
  obtain ⟨phases, random, he⟩ := rephase_eq s
  rw [he]
  refine ⟨h.settings, h.conflicts, h.decisions, ?_, h.switches, h.restarts, h.focused, h.ticking⟩
  have hagain := h.resets.again hc.rephase hreached
  rwa [← h.settings] at hagain ⊢

theorem restart (h : OnTime C s) (hc : C.Fitting) (hdue : s.restarting = true) : OnTime C s.restart := by
  have hripe := ripe_of_restarting hdue
  unfold ripe at hripe
  obtain ⟨hb, -⟩ := backtrack_scheduled (s.count fun c => { c with restarts := c.restarts + 1 }) 0
  have hback : OnTime C ((s.count fun c => { c with restarts := c.restarts + 1 }).backtrack 0) :=
    h.timed hc ((timed_count s rfl rfl rfl).trans (timed_backtrack _ 0))
  unfold Solver.restart
  dsimp only
  generalize (s.count fun c => { c with restarts := c.restarts + 1 }).backtrack 0 = b at hb hback ⊢
  split
  · exact ⟨hback.settings, hback.conflicts, hback.decisions, hback.resets, hback.switches, hback.restarts,
      hback.focused, hback.ticking.event hc .take⟩
  · next hfocused =>
    have hstable : ¬ s.orders.stable = true := by
      rw [← show b.orders.stable = s.orders.stable from hb.stable]
      exact hfocused
    rw [if_neg hstable] at hripe
    have hreached : b.limits.restart ≤ b.counters.conflicts := by
      rw [hb.limits, hb.conflicts]
      exact of_decide_eq_true hripe
    refine ⟨hback.settings, hback.conflicts, hback.decisions, hback.resets, hback.switches, ?_, hback.focused,
      hback.ticking⟩
    rw [hback.settings]
    exact hback.restarts.again hreached

/-- Stable mode is entered before a search without changes of mode. -/
theorem enterStable (h : OnTime C s) (hc : C.Fitting) (hmode : C.mode.value = .stable) :
    OnTime C (s.enterMode true) := by
  rw [enterMode_sets]
  refine ⟨h.settings, h.conflicts, h.decisions, h.resets, h.switches, h.restarts, fun _ hs => ?_, ?_⟩
  · rw [hmode] at hs
    cases hs
  · dsimp only
    rw [if_pos rfl, h.settings]
    exact .start hc

theorem switchMode (h : OnTime C s) (hc : C.Fitting) (hdue : s.switching = true) : OnTime C s.switchMode := by
  obtain ⟨hmode, hreached⟩ := Bool.and_eq_true_iff.1 hdue
  have hmode : C.mode.value = .switching := h.settings ▸ of_decide_eq_true hmode
  have hreached : s.limits.mode ≤ s.counters.conflicts := of_decide_eq_true hreached
  obtain ⟨hb, -, hcounters⟩ := backtrack_scheduled (s.count fun c => { c with modeSwitches := c.modeSwitches + 1 }) 0
  unfold Solver.switchMode
  dsimp only
  generalize (s.count fun c => { c with modeSwitches := c.modeSwitches + 1 }).backtrack 0 = b at hb hcounters ⊢
  have hset : b.settings = C := hb.settings.trans h.settings
  have hlimits : b.limits = s.limits := hb.limits
  have hreluctant : b.reluctant = s.reluctant := hb.reluctant
  have hcount : b.counters = { s.counters with modeSwitches := s.counters.modeSwitches + 1 } := hcounters
  rw [enterMode_sets]
  constructor
  · exact hset
  · dsimp only
    rw [hlimits]
    exact h.conflicts
  · dsimp only
    rw [hlimits]
    exact h.decisions
  · dsimp only
    rw [hlimits, hcount]
    exact h.resets
  · dsimp only
    rw [hcount, hset]
    exact h.switches.again hreached
  · dsimp only
    rw [hlimits, hcount]
    cases hstable : s.orders.stable with
    | false => exact h.restarts.entersStable
    | true =>
      -- the first change of mode was to stable mode
      refine .entersFocused _ _ fun hzero => ?_
      rw [h.focused hzero hmode] at hstable
      cases hstable
  · dsimp only
    rw [hcount]
    exact fun hzero => absurd hzero (Nat.succ_ne_zero _)
  · dsimp only
    split
    · rw [hset]
      exact .start hc
    · rw [hreluctant]
      exact h.ticking

theorem decide (h : OnTime C s) : OnTime C s.decide.2 := by
  have hstable := stable_next s.orders s.assignment
  unfold Solver.decide onOrders
  dsimp only
  cases hnext : s.orders.next? s.assignment with
  | mk found orders =>
    rw [hnext] at hstable
    have hfocused : s.counters.modeSwitches = 0 → C.mode.value = .switching → orders.stable = false :=
      fun hzero hmode => hstable.trans (h.focused hzero hmode)
    cases found with
    | none => exact ⟨h.settings, h.conflicts, h.decisions, h.resets, h.switches, h.restarts, hfocused, h.ticking⟩
    | some v => exact ⟨h.settings, h.conflicts, h.decisions, h.resets, h.switches, h.restarts, hfocused, h.ticking⟩

end OnTime

/-! ## Procedures -/

/-- If the limits are those of the schedules, they stay so. -/
def Abides (c : Settings) (s s' : Solver ε) : Prop := OnTime c s → OnTime c s'

instance : Std.Refl (Abides (ε := ε) C) := ⟨fun _ => id⟩
instance : IsTrans (Solver ε) (Abides C) := ⟨fun _ _ _ h h' => h' ∘ h⟩

/-- How a procedure ends where limits stay. -/
theorem OnTime.ends (h : OnTime C s) (hx : Keeps (Abides C) x) :
    Ends x s (fun _ => OnTime C) fun _ => OnTime C :=
  (hx s).imp (fun _ _ hs => hs h) fun _ _ hs => hs h

section Fitting

variable (hc : C.Fitting)
include hc

theorem abides_timed (hx : Keeps Timed x) : Keeps (Abides C) x := hx.mono fun _ _ ht h => h.timed hc ht

omit hc in
theorem abides_decidePass : Keeps (Abides C) (decidePass : SolverM ε (Option Report)) :=
  .bind (.modifyGet fun _ h => h.decide) fun l => by
    cases l with
    | none => exact .throw _
    | some _ => exact .pure _

/-- A reduction sets no other limit than its own. -/
theorem abides_reduce : Keeps (Abides C) (reduce : SolverM ε Unit) :=
  have hstill {β : Type} {y : SolverM ε β} (hy : Keeps Still y) : Keeps (Abides C) y := abides_timed hc (timed_still hy)
  .bind (abides_timed hc (.modify fun s => timed_count s rfl rfl rfl)) fun _ =>
    .bind (hstill (still_pinReasons true)) fun _ => .bind .get fun _ =>
      .bind (hstill (still_candidates _ _)) fun _ => .bind (hstill (still_pinReasons false)) fun _ =>
        .bind .get fun _ => .bind (hstill (still_markAll _ _)) fun _ =>
          .bind (hstill (still_collect _ .sparse)) fun _ => .modify fun _ h =>
            ⟨h.settings, h.conflicts, h.decisions, h.resets, h.switches, h.restarts, h.focused, h.ticking⟩

/-- Something that is due is done only if it is. -/
theorem OnTime.ends_advance (h : OnTime C s) :
    Ends advance s (fun _ => OnTime C) fun _ => OnTime C := by
  have hsimplify : ∀ {t : Solver ε}, OnTime C t → Ends simplifyPass t (fun _ => OnTime C) fun _ => OnTime C :=
    fun ht => ht.ends (abides_timed hc timed_simplifyPass)
  have hproceed : ∀ {t : Solver ε}, OnTime C t → Ends proceed t (fun _ => OnTime C) fun _ => OnTime C := by
    intro t ht
    unfold proceed
    simp only [ends_bind, ends_get, ends_ite, ends_pure, ends_modify]
    refine ⟨fun _ => ht, fun _ => ⟨fun _ => ht.ends (abides_reduce hc), fun _ => ⟨ht.restart hc, fun _ => ?_⟩⟩⟩
    refine ⟨ht.rephase hc, fun _ => ⟨ht.switchMode hc, fun _ => ⟨fun _ => hsimplify ht, fun _ => ?_⟩⟩⟩
    exact ⟨fun _ => ht, fun _ => ht.ends abides_decidePass⟩
  unfold advance
  simp only [ends_bind, ends_get, ends_ite, ends_pure, ends_modifyGet]
  have hterminated : OnTime C s.isTerminated.2 := h.timed hc (still_isTerminated s).toTimed
  exact ⟨fun _ => hsimplify h, fun _ => ⟨fun _ => h, fun _ => ⟨fun _ => hterminated, fun _ => hproceed hterminated⟩⟩⟩

end Fitting

/-! ## The start of a search -/

/-- What a search begins with: nothing is counted yet, and of limits there are only those of the solve. -/
structure Unbegun (c : Settings) (conflictBudget decisionBudget : Option Nat) (s : Solver ε) : Prop where
  /-- The settings. -/
  settings : s.settings = c
  /-- The limits. -/
  limits : s.limits = { conflictBudget, decisionBudget }
  /-- The conflicts. -/
  conflicts : s.counters.conflicts = 0
  /-- The other counts of the schedules. -/
  clock : s.counters.clock = (0, 0, 0)
  /-- The mode. -/
  focused : s.orders.stable = false
  /-- Restarts in stable mode. -/
  ticking : Ticking c s.reluctant

section Bounds

variable (hc : C.Fitting) (hconflicts : ∀ n ∈ conflictBudget, n ≤ greatestLong)
  (hdecisions : ∀ n ∈ decisionBudget, n ≤ greatestLong)

namespace Unbegun

variable (h : Unbegun C conflictBudget decisionBudget s)
include h

theorem rephases : s.counters.rephases = 0 := congrArg Prod.fst h.clock

theorem modeSwitches : s.counters.modeSwitches = 0 := congrArg (fun c => c.2.1) h.clock

theorem decisions : s.counters.decisions = 0 := congrArg (fun c => c.2.2) h.clock

include hc in
theorem timed (ht : Timed s s') : Unbegun C conflictBudget decisionBudget s' := by
  obtain ⟨⟨hset, hstable⟩, hclock, n, hticks⟩ := ht.clocked
  exact ⟨hset.trans h.settings, ht.limits.trans h.limits, ht.conflicts.trans h.conflicts, hclock.trans h.clock,
    hstable.trans h.focused, by rw [hticks]; exact h.ticking.ticks hc n⟩

/-- The first limits are the intervals themselves. -/
theorem initialLimits_limits : s.initialLimits.limits =
    { conflictBudget, decisionBudget
      conflicts := conflictBudget
      decisions := decisionBudget
      reduce := C.keep.reduceInterval.value
      rephase := C.phase.rephaseInterval.value
      mode := C.modeInit.value
      restart := C.restart.interval.value } := by
  simp only [initialLimits, h.settings, h.limits, h.conflicts, h.decisions, Nat.zero_add, Option.map_id_fun', id]

include hc hconflicts hdecisions

theorem fit : s.initialLimits.limits.Fit := by
  rw [h.initialLimits_limits]
  exact ⟨hconflicts, hdecisions, hc.reduce_le, hc.rephase_le, hc.mode_le, hc.restart_le⟩

theorem onTime : OnTime C s.initialLimits := by
  constructor
  · exact h.settings
  · rw [h.initialLimits_limits]
    exact hconflicts
  · rw [h.initialLimits_limits]
    exact hdecisions
  · rw [h.initialLimits_limits, show s.initialLimits.counters.rephases = 0 from h.rephases]
    exact .start hc.rephase
  · rw [h.initialLimits_limits, show s.initialLimits.counters.modeSwitches = 0 from h.modeSwitches]
    exact .start _ _
  · rw [h.initialLimits_limits, show s.initialLimits.counters.modeSwitches = 0 from h.modeSwitches]
    exact .start _ _
  · exact fun _ _ => h.focused
  · exact h.ticking

/-- The search is prepared, unless the clauses are inconsistent already. -/
theorem ends_prepare :
    Ends prepare s (fun report s' => OnTime C s' ∨ report ≠ none ∧ Unbegun C conflictBudget decisionBudget s')
      fun _ s' => OnTime C s' := by
  have hgo : ∀ {t : Solver ε}, OnTime C t → Ends (do
      if (← get).settings.preprocessing.value then
        preprocess
        if (← get).inconsistent then return some Report.unsatisfiable
      return none) t (fun report t' => OnTime C t' ∨ report ≠ none ∧ Unbegun C conflictBudget decisionBudget t')
        fun _ t' => OnTime C t' := by
    intro t ht
    simp only [ends_bind, ends_get, ends_ite, ends_pure]
    refine ⟨fun _ => ?_, fun _ => .inl ht⟩
    exact (ht.ends (abides_timed hc (keeps_timed forward_preprocess))).imp
      (fun _ _ h' => ⟨fun _ => .inl h', fun _ => .inl h'⟩) fun _ _ h' => h'
  have hinit := h.onTime hc hconflicts hdecisions
  unfold prepare
  simp only [ends_bind, ends_get, ends_ite, ends_pure, ends_modify] at hgo ⊢
  refine ⟨fun _ => .inr ⟨by simp, h⟩, fun _ => ⟨fun hstable => hgo (hinit.enterStable hc ?_), fun _ => hgo hinit⟩⟩
  rw [← hinit.settings]
  exact hstable

theorem ends_startSolve :
    Ends startSolve s (fun report s' => OnTime C s' ∨ report ≠ none ∧ Unbegun C conflictBudget decisionBudget s')
      fun _ s' => OnTime C s' ∨ Unbegun C conflictBudget decisionBudget s' := by
  have hend : ∀ status, Ends (ending prepare) { s with status }
      (fun report s' => OnTime C s' ∨ report ≠ none ∧ Unbegun C conflictBudget decisionBudget s')
        fun _ s' => OnTime C s' ∨ Unbegun C conflictBudget decisionBudget s' := by
    intro status
    have hstatus : Unbegun C conflictBudget decisionBudget { s with status } :=
      ⟨h.settings, h.limits, h.conflicts, h.clock, h.focused, h.ticking⟩
    rw [ends_ending]
    refine (hstatus.ends_prepare hc hconflicts hdecisions).imp (fun report t ht => ?_) fun _ t ht =>
      .inl (ht.timed hc (timed_fail t))
    cases report with
    | none => exact ht
    | some report =>
      have hconclude := timed_conclude report t
      exact ht.imp (fun h' => h'.timed hc hconclude) fun ⟨hreport, h'⟩ => ⟨hreport, h'.timed hc hconclude⟩
  unfold startSolve beginSolve
  simp only [ends_bind, ends_get, ends_ite, ends_throw]
  refine ⟨fun _ => .inr h, fun _ => ?_⟩
  split
  · exact hend _
  · exact hend _
  · exact .inr h

end Unbegun

/-! ## Runs -/

/-- What holds at a place of a run: the limits are those of the schedules, if its search has begun. -/
def Timely (c : Settings) (conflictBudget decisionBudget : Option Nat) : Place × Solver ε → Prop
  | (.loaded, s) => Unbegun c conflictBudget decisionBudget s
  | (.ended _, s) | (.failed _, s) => OnTime c s ∨ Unbegun c conflictBudget decisionBudget s
  | (_, s) => OnTime c s

include hc hconflicts hdecisions in
/-- The limits are those of the schedules after each step of a run. -/
theorem Step.timely {prompt : Bool} {x y : Place × Solver ε} (h : Step prompt x y)
    (hx : Timely C conflictBudget decisionBudget x) : Timely C conflictBudget decisionBudget y := by
  have hstart {s : Solver ε} (hs : Timely C conflictBudget decisionBudget (.loaded, s)) :=
    Unbegun.ends_startSolve hc hconflicts hdecisions hs
  have htake {s : Solver ε} (hs : OnTime C s) := (hs.timed hc (timed_count s rfl rfl rfl : Timed s s.beginPass)).ends
    (abides_timed hc timed_importPass)
  have hpropagate {s : Solver ε} (hs : OnTime C s) := hs.ends (abides_timed hc (keeps_timed forward_propagatePass))
  have hanalyze {s : Solver ε} (hs : OnTime C s) (key : Key) :=
    hs.noteConflict.ends (abides_timed hc (timed_analyze key))
  have hlearn {s : Solver ε} (hs : OnTime C s) (jump glue : Nat) := hs.ends (abides_timed hc (timed_learn jump glue))
  cases h with
  | start he => exact ((hstart hx).of_ok he).resolve_right fun h => h.1 rfl
  | answer he => exact ((hstart hx).of_ok he).imp_right And.right
  | refuse he => exact (hstart hx).of_error he
  | take he => exact (htake hx).of_ok he
  | refute he => exact .inl (((htake hx).of_ok he).timed hc (timed_conclude _ _))
  | untaken he => exact .inl (((htake hx).of_error he).timed hc (timed_fail _))
  | propagate he => exact (hpropagate hx).of_ok he
  | conflict he => exact (hpropagate hx).of_ok he
  | unpropagated he => exact .inl (((hpropagate hx).of_error he).timed hc (timed_fail _))
  | analyze he => exact (hanalyze hx _).of_ok he
  | fundamental he => exact .inl (((hanalyze hx _).of_ok he).timed hc ((timed_refute _).trans (timed_conclude _ _)))
  | unanalyzed he => exact .inl (((hanalyze hx _).of_error he).timed hc (timed_fail _))
  | learn _ he => exact (hlearn hx _ _).of_ok he
  | unlearnt _ he => exact .inl (((hlearn hx _ _).of_error he).timed hc (timed_fail _))
  | advance he => exact (OnTime.ends_advance hc hx).of_ok he
  | finish he => exact .inl (((OnTime.ends_advance hc hx).of_ok he).timed hc (timed_conclude _ _))
  | unfinished he => exact .inl (((OnTime.ends_advance hc hx).of_error he).timed hc (timed_fail _))

include hc hconflicts hdecisions in
/-- And so they are at each place that a run comes to. -/
theorem Run.timely {prompt : Bool} {x y : Place × Solver ε} (h : Run prompt x y)
    (hx : Timely C conflictBudget decisionBudget x) : Timely C conflictBudget decisionBudget y := by
  induction h with
  | refl => exact hx
  | tail _ hstep ih => exact hstep.timely hc hconflicts hdecisions ih

end Bounds

/-! ## Room -/

/-- The limits of a search have room in 64 bits, and so has what is counted for restarts in stable mode.  The limit of
the next restart in focused mode may have none after the second change of mode. -/
structure InTime (s : Solver ε) : Prop where
  /-- The conflicts at which the search ends. -/
  conflicts : ∀ n ∈ s.limits.conflicts, n ≤ greatestLong
  /-- The decisions at which it ends. -/
  decisions : ∀ n ∈ s.limits.decisions, n ≤ greatestLong
  /-- The next reset of phases. -/
  rephase : s.limits.rephase ≤ greatestLong
  /-- The next change of mode. -/
  mode : s.limits.mode ≤ greatestLong
  /-- The next restart in focused mode. -/
  restart : s.limits.restart ≤ greatestLong ∨
    2 ≤ s.counters.modeSwitches ∧ greatestLong < s.counters.conflicts + s.settings.restart.interval.value
  /-- The wait for the next restart in stable mode. -/
  wait : s.reluctant.limit ≤ greatestLong
  /-- What is added for a tick, and multiplied for the first wait. -/
  ticks : s.reluctant.wait + 1 ≤ greatestLong ∧ (Reluctant.draw {}).1 * s.reluctant.period ≤ greatestLong

/-- What is due sets a limit beyond the conflicts so far, and whatever is added and multiplied for it has room in 64
bits, but for a restart in focused mode after the second change of mode. -/
structure Renews (s : Solver ε) : Prop where
  /-- A reset of phases. -/
  rephase : s.rephasing = true →
    s.counters.conflicts < s.rephase.2.limits.rephase ∧
      ∀ n ∈ [s.counters.rephases + 1, s.settings.phase.rephaseInterval.value * (s.counters.rephases + 1),
        s.rephase.2.limits.rephase], n ≤ greatestLong
  /-- A change of mode. -/
  mode : s.switching = true →
    s.counters.conflicts < s.switchMode.limits.mode ∧
      ∀ n ∈ [s.counters.modeSwitches + 2, s.settings.modeInit.value * (s.counters.modeSwitches + 2),
        s.settings.modeInit.value * (s.counters.modeSwitches + 2) * (s.counters.modeSwitches + 2),
        s.switchMode.limits.mode], n ≤ greatestLong
  /-- A restart in focused mode. -/
  restart : s.restarting = true → s.orders.stable = false →
    s.counters.conflicts < s.restart.limits.restart ∧
      (s.restart.limits.restart ≤ greatestLong ∨
        2 ≤ s.counters.modeSwitches ∧ greatestLong < s.counters.conflicts + s.settings.restart.interval.value)

/-- The limit that a change of mode sets. -/
theorem switchMode_mode (s : Solver ε) :
    s.switchMode.limits.mode = s.counters.conflicts +
      s.settings.modeInit.value * (s.counters.modeSwitches + 2) * (s.counters.modeSwitches + 2) := by
  obtain ⟨hb, -, hcounters⟩ := backtrack_scheduled (s.count fun c => { c with modeSwitches := c.modeSwitches + 1 }) 0
  unfold switchMode
  dsimp only
  rw [enterMode_sets]
  dsimp only
  rw [hb.settings, hcounters]
  rfl

/-- The limit that a restart in focused mode sets. -/
theorem restart_restart (hs : s.orders.stable = false) :
    s.restart.limits.restart = s.counters.conflicts + s.settings.restart.interval.value := by
  obtain ⟨hb, -, hcounters⟩ := backtrack_scheduled (s.count fun c => { c with restarts := c.restarts + 1 }) 0
  have hstable : ((s.count fun c => { c with restarts := c.restarts + 1 }).backtrack 0).orders.stable = false :=
    hb.stable.trans hs
  unfold restart
  dsimp only
  rw [hstable, if_neg Bool.false_ne_true]
  dsimp only
  rw [hb.settings, hb.conflicts]
  rfl

/-- A schedule of restarts in stable mode has room. -/
theorem Ticking.room {r : Reluctant} (h : Ticking C r) (hc : C.Fitting) :
    r.limit ≤ greatestLong ∧ r.wait + 1 ≤ greatestLong ∧ (Reluctant.draw {}).1 * r.period ≤ greatestLong := by
  obtain ⟨t, ht⟩ := h
  have hperiod : max C.restart.reluctantPeriod.value 1 ≤ greatestLong := Nat.max_le.2 ⟨hc.period_le, by decide⟩
  have hlongest := Nat.max_le.2 ⟨hc.longest_le, hperiod⟩
  exact ⟨(ht.limit_le hperiod (Nat.le_max_right ..)).trans hlongest, ht.room hperiod (Nat.le_max_right ..) hlongest⟩

theorem Unbegun.inTime (h : Unbegun C conflictBudget decisionBudget s) (hc : C.Fitting) : s.InTime := by
  obtain ⟨hlimit, hroom⟩ := h.ticking.room hc
  constructor
  · simp [h.limits]
  · simp [h.limits]
  · simp [h.limits]
  · simp [h.limits]
  · simp [h.limits]
  · exact hlimit
  · exact hroom

namespace OnTime

variable (h : OnTime C s) (hc : C.Fitting) (hfew : s.counters.conflicts < 2 ^ 32)
include h hc hfew

theorem inTime : s.InTime := by
  obtain ⟨hlimit, hroom⟩ := h.ticking.room hc
  refine ⟨h.conflicts, h.decisions, h.resets.le_greatest hc.rephase_le hfew, h.switches.le_greatest hc.mode_le hfew, ?_,
    hlimit, hroom⟩
  rw [h.settings]
  exact h.restarts.le_greatest hc.restart_le hfew

theorem renews : s.Renews := by
  have hsettings := h.settings
  constructor
  · intro hdue
    have hreached : s.limits.rephase ≤ s.counters.conflicts := of_decide_eq_true (Bool.and_eq_true_iff.1 hdue).2
    have hfit := (h.resets.again hc.rephase hreached).le_greatest hc.rephase_le hfew
    have hnext := Nat.le_mul_of_pos_left (s.counters.rephases + 1) hc.rephase
    obtain ⟨phases, random, he⟩ := rephase_eq s
    rw [he]
    dsimp only
    rw [hsettings]
    simp only [List.forall_mem_cons, List.not_mem_nil, false_implies, implies_true, and_true]
    omega
  · intro hdue
    have hreached : s.limits.mode ≤ s.counters.conflicts := of_decide_eq_true (Bool.and_eq_true_iff.1 hdue).2
    have hfit : s.counters.conflicts +
        C.modeInit.value * (s.counters.modeSwitches + 2) * (s.counters.modeSwitches + 2) ≤ greatestLong :=
      (h.switches.again hreached).le_greatest hc.mode_le hfew
    have hnext := Nat.le_mul_of_pos_left (s.counters.modeSwitches + 2) hc.mode
    have hsquare : C.modeInit.value * (s.counters.modeSwitches + 2) ≤
        C.modeInit.value * (s.counters.modeSwitches + 2) * (s.counters.modeSwitches + 2) :=
      Nat.le_mul_of_pos_right _ (Nat.succ_pos _)
    rw [switchMode_mode, hsettings]
    simp only [List.forall_mem_cons, List.not_mem_nil, false_implies, implies_true, and_true]
    omega
  · intro hdue hs
    have hripe := ripe_of_restarting hdue
    rw [ripe, if_neg (by simp [hs])] at hripe
    have hfit := (h.restarts.again (of_decide_eq_true hripe)).le_greatest hc.restart_le hfew
    have hpos := hc.restart
    rw [restart_restart hs, hsettings]
    exact ⟨by omega, hfit⟩

end OnTime

theorem unbegun_calls
    (hload : calls.forM Call.run (fresh C hooks { conflictBudget, decisionBudget } stopped outside) = .ok () s₀)
    (hc : C.Fitting) : Unbegun C conflictBudget decisionBudget s₀ := by
  refine Unbegun.timed hc ?_ ((timed_calls calls).of_ok hload)
  exact ⟨rfl, rfl, rfl, rfl, rfl, .start hc⟩

/-- **The limits of a search have room in 64 bits.**  So it is at each place of a run with fewer than `2 ^ 32`
conflicts, whatever the formula and what is outside, for settings within the bounds of their options and any limits of
the solve; and what is due sets a limit beyond the conflicts so far.  Only after the second change of mode may a restart
set a limit without room, and then only if the interval is as long as that. -/
theorem limits_fit
    (hload : calls.forM Call.run (fresh C hooks { conflictBudget, decisionBudget } stopped outside) = .ok () s₀)
    (hbounds : ∀ k, (({} : Settings).number k).allows (C.number k).value = true)
    (hconflicts : ∀ n ∈ conflictBudget, n ≤ greatestLong) (hdecisions : ∀ n ∈ decisionBudget, n ≤ greatestLong)
    (hrun : Run false (.loaded, s₀) (place, s)) (hfew : s.counters.conflicts < 2 ^ 32) :
    s₀.initialLimits.limits.Fit ∧ s.InTime ∧ (place = .propagated → s.Renews) := by
  have hc : C.Fitting := .of_allows hbounds
  have h₀ := unbegun_calls hload hc
  have h : Timely C conflictBudget decisionBudget (place, s) := Run.timely hc hconflicts hdecisions hrun h₀
  refine ⟨h₀.fit hc hconflicts hdecisions, ?_, fun hplace => ?_⟩
  · have htimely : OnTime C s ∨ Unbegun C conflictBudget decisionBudget s := by
      cases place with
      | loaded => exact .inr h
      | ended | failed => exact h
      | ready | imported | propagated | conflicted | analyzed => exact .inl h
    exact htimely.elim (fun h => h.inTime hc hfew) fun h => h.inTime hc
  · subst hplace
    exact OnTime.renews h hc hfew

/-- Settings with a change of mode after the first conflict, and the longest interval between restarts in focused
mode. -/
def hasty : Settings :=
  { modeInit := .number 1 1 greatestLong
    restart :=
      { interval := .number greatestLong 1 greatestLong
        margin := .float 1.0 1.0 10.0
        fastWindow := .float 1.0 1.0 1e9 } }

/-- Clauses with six conflicts before the mode has changed twice. -/
def hastyCalls : List Call :=
  [.clause [2, -4], .clause [-4, -6, -3], .clause [5, 4, 1], .clause [-3, -2], .clause [-5, -1], .clause [-2, 4, 3],
    .clause [-5, 4, 2], .clause [1, -2, 3]]

theorem hasty_allows (k : Settings.NumberKey) : (({} : Settings).number k).allows (hasty.number k).value = true := by
  cases k <;> decide

/-- The first change of mode is due. -/
theorem limits_fit_hasty : ∃ s₀ s : Solver Unit,
    hastyCalls.forM Call.run (fresh hasty {} { conflictBudget := some greatestLong } false ()) = .ok () s₀ ∧
      (∀ k, (({} : Settings).number k).allows (hasty.number k).value = true) ∧
      (∀ n ∈ some greatestLong, n ≤ greatestLong) ∧ (∀ n ∈ (none : Option Nat), n ≤ greatestLong) ∧
      Run false (.loaded, s₀) (.propagated, s) ∧ s.counters.conflicts < 2 ^ 32 ∧ s.switching = true ∧
      s₀.initialLimits.limits.Fit ∧ s.InTime ∧ s.Renews := by
  obtain ⟨s₀, place, s, hload, hrun, htest⟩ := exists_trial
    (fresh hasty {} { conflictBudget := some greatestLong } false ()) hastyCalls 5
    (fun place s => place == .propagated && s.switching && Decidable.decide (s.counters.conflicts < 2 ^ 32))
    (by decide +kernel)
  simp only [Bool.and_eq_true, decide_eq_true_eq] at htest
  obtain ⟨⟨hplace, hswitching⟩, hfew⟩ := htest
  obtain rfl := eq_of_beq hplace
  have hconflicts : ∀ n ∈ some greatestLong, n ≤ greatestLong := by simp
  have hdecisions : ∀ n ∈ (none : Option Nat), n ≤ greatestLong := by simp
  obtain ⟨hfit, hin, hrenews⟩ := limits_fit hload hasty_allows hconflicts hdecisions hrun hfew
  exact ⟨s₀, s, hload, hasty_allows, hconflicts, hdecisions, hrun, hfew, hswitching, hfit, hin, hrenews rfl⟩

/-- After the second change of mode a restart is due at once, and the limit that it sets has no room. -/
theorem restart_exceeds : ∃ s₀ s s' : Solver Unit,
    hastyCalls.forM Call.run (fresh hasty {} {} false ()) = .ok () s₀ ∧
      (∀ k, (({} : Settings).number k).allows (hasty.number k).value = true) ∧
      Run false (.loaded, s₀) (.propagated, s) ∧ s.counters.conflicts < 2 ^ 32 ∧ s.restarting = true ∧
      advance s = .ok none s' ∧ s'.counters.restarts = s.counters.restarts + 1 ∧
      greatestLong < s'.limits.restart := by
  obtain ⟨s₀, place, s, hload, hrun, htest⟩ := exists_trial (fresh hasty {} {} false ()) hastyCalls 18
    (fun place s => place == .propagated && Decidable.decide (s.counters.conflicts < 2 ^ 32) && s.restarting &&
      (unreported? advance s).any fun s' : Solver Unit => Decidable.decide
        (s'.counters.restarts = s.counters.restarts + 1 ∧ greatestLong < s'.limits.restart)) (by decide +kernel)
  simp only [Bool.and_eq_true, decide_eq_true_eq] at htest
  obtain ⟨⟨⟨hplace, hfew⟩, hrestarting⟩, hadvance⟩ := htest
  obtain rfl := eq_of_beq hplace
  obtain ⟨s', hs', htest⟩ := (Option.any_eq_true ..).1 hadvance
  obtain ⟨hrestarts, hlimit⟩ := of_decide_eq_true htest
  exact ⟨s₀, s, s', hload, hasty_allows, hrun, hfew, hrestarting, unreported?_eq_some.1 hs', hrestarts, hlimit⟩

end Solver

end ClauseLearning
