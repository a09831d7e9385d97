import ClauseLearning.Proofs.Assign
import ClauseLearning.Solver.Schedule

/-!
# Restarts, resets of phases and modes keep the invariant

None of these touches a clause.  A reset of phases is only about where the search goes on.  A restart and a change
of mode take all levels back, and a change of mode also makes another order the active one.  That order has to
offer every variable that may be decided.

* `Solver.Restarted` — all levels were taken back.
* `Solver.Inv.enterMode`, `Solver.Inv.switchMode` — another order is active.
* `Solver.Inv.restart`, `Solver.aside_rephase` — the other two.
-/

namespace ClauseLearning

namespace Solver

variable {ε : Type} {lags : Prop} {s : Solver ε} {p : Nat}

/-! ## Back to the root -/

/-- All levels are taken back, after everything was propagated. -/
theorem Inv.backtrack_root (h : s.Inv lags s.trail.size) (hfull : s.trail.propagated = s.trail.size) :
    (s.backtrack 0).Inv lags (s.backtrack 0).trail.size ∧
      (s.backtrack 0).trail.propagated = (s.backtrack 0).trail.size ∧ (s.backtrack 0).trail.level = 0 := by
  by_cases h0 : s.trail.level = 0
  · rw [backtrack_of_le s (Nat.le_of_eq h0)]
    exact ⟨h, hfull, h0⟩
  · have hk : 0 < s.trail.level := Nat.pos_of_ne_zero h0
    obtain ⟨hlevel, -, hprop, -⟩ := h.toFrame.backtrack_trail hk
    exact ⟨h.backtrack hk (hfull ▸ h.trail.below), hprop, hlevel⟩

/-- What taking levels back does not touch. -/
theorem backtrack_same (s : Solver ε) (k : Nat) :
    (s.backtrack k).inconsistent = s.inconsistent ∧ (s.backtrack k).learned = s.learned ∧
      (s.backtrack k).iterating = s.iterating := by
  by_cases hk : k < s.trail.level
  · obtain ⟨ph, -, he⟩ := backtrack_eq s hk
    rw [he]
    exact ⟨rfl, rfl, rfl⟩
  · rw [backtrack_of_le s (Nat.le_of_not_lt hk)]
    exact ⟨rfl, rfl, rfl⟩

/-- What is so where all levels were taken back after everything was propagated. -/
structure Restarted (lags : Prop) (s s' : Solver ε) : Prop where
  /-- The invariant. -/
  inv : s'.Inv lags s'.trail.size
  /-- Nothing is left to be propagated. -/
  full : s'.trail.propagated = s'.trail.size
  /-- What is known. -/
  refines : Refines s s'
  /-- Nothing is refuted. -/
  inconsistent : s'.inconsistent = s.inconsistent
  /-- The clause learnt last stays as it is noted. -/
  learned : s'.learned = s.learned

theorem Restarted.aside {s' s'' : Solver ε} (h : Restarted lags s s') (ha : Aside s' s'') : Restarted lags s s'' where
  inv := by
    rw [ha.trail]
    exact ha.inv h.inv
  full := by rw [ha.trail, h.full]
  refines := h.refines.trans ha.refines
  inconsistent := ha.inconsistent.trans h.inconsistent
  learned := ha.learned.trans h.learned

theorem Inv.restarted {s₁ : Solver ε} (h : s.Inv lags s.trail.size)
    (hfull : s.trail.propagated = s.trail.size) (ha : Aside s s₁) : Restarted lags s (s₁.backtrack 0) := by
  have h₁ := ha.inv h
  rw [← ha.trail] at h₁
  obtain ⟨h₂, hprop, -⟩ := h₁.backtrack_root (by rw [ha.trail, hfull])
  obtain ⟨hinc, hlearned, -⟩ := backtrack_same s₁ 0
  exact ⟨h₂, hprop, ha.refines.trans (refines_backtrack h₁.toFrame 0), hinc.trans ha.inconsistent,
    hlearned.trans ha.learned⟩

/-! ## Modes -/

theorem mem_free (h : s.Frame) (v : Nat) : v ∈ s.free ↔ s.Free v := by
  have hsize : s.assignment.size = s.numbering.size := h.sized.records
  unfold Solver.free
  have hval : (s.assignment.valueOf v).isAssigned = false ↔ s.assignment.valueOf v = .unassigned := by
    cases s.assignment.valueOf v <;> simp [Value.isAssigned]
  rw [List.mem_filter, List.mem_range, hsize, Bool.and_eq_true, Bool.not_eq_true', Bool.not_eq_true', hval]
  exact and_assoc.symm

/-- Another order becomes the active one. -/
theorem enterMode_eq (s : Solver ε) (stable : Bool) : ∃ reluctant limits phases,
    s.enterMode stable =
      { s with orders := s.orders.switch stable s.free, reluctant, limits, phases } := by
  unfold enterMode onOrders
  cases stable with
  | true => exact ⟨_, _, _, rfl⟩
  | false => exact ⟨_, _, _, rfl⟩

theorem Inv.enterMode (h : s.Inv lags p) (stable : Bool) :
    (s.enterMode stable).Inv lags p ∧ Refines s (s.enterMode stable) := by
  obtain ⟨ho, hc⟩ := h.orders.switch stable fun v hv => ((mem_free h.toFrame v).1 hv).1
  obtain ⟨r, l, ph, he⟩ := enterMode_eq s stable
  rw [he]
  refine ⟨{ h with orders := ho, covers := hc.mono fun v hv => (mem_free h.toFrame v).2 hv }, ?_⟩
  exact ⟨rfl, rfl, rfl, rfl, rfl, rfl, rfl, id, fun v hv => { hv with }, fun v hv => { hv with }⟩

/-- A change of mode, after everything was propagated. -/
theorem Inv.switchMode (h : s.Inv lags s.trail.size) (hfull : s.trail.propagated = s.trail.size) :
    Restarted lags s s.switchMode := by
  have haside : Aside s (s.count fun c => { c with modeSwitches := c.modeSwitches + 1 }) :=
    ⟨_, s.limits, s.phases, s.fastGlue, s.slowGlue, s.reluctant, s.random, s.unflushed, rfl⟩
  obtain ⟨r, l, ph, he⟩ := enterMode_eq
    ((s.count fun c => { c with modeSwitches := c.modeSwitches + 1 }).backtrack 0) (!s.orders.stable)
  have hback := h.restarted hfull haside
  obtain ⟨hinv, href⟩ := hback.inv.enterMode (!s.orders.stable)
  have henter : Restarted lags s
      (((s.count fun c => { c with modeSwitches := c.modeSwitches + 1 }).backtrack 0).enterMode
        (!s.orders.stable)) := by
    rw [he] at hinv href ⊢
    exact ⟨hinv, hback.full, hback.refines.trans href, hback.inconsistent, hback.learned⟩
  exact henter.aside ⟨_, s.switchMode.limits, _, _, _, _, _, _, rfl⟩

/-! ## Restarts -/

/-- A restart, after everything was propagated. -/
theorem Inv.restart (h : s.Inv lags s.trail.size) (hfull : s.trail.propagated = s.trail.size) :
    Restarted lags s s.restart := by
  have haside : Aside s (s.count fun c => { c with restarts := c.restarts + 1 }) :=
    ⟨_, s.limits, s.phases, s.fastGlue, s.slowGlue, s.reluctant, s.random, s.unflushed, rfl⟩
  refine (h.restarted hfull haside).aside ?_
  unfold Solver.restart
  simp only
  split
  · exact ⟨_, _, _, _, _, _, _, _, rfl⟩
  · exact ⟨_, _, _, _, _, _, _, _, rfl⟩

/-! ## Resets of phases -/

/-- A reset of phases. -/
theorem aside_rephase (s : Solver ε) : Aside s s.rephase.2 := by
  unfold rephase resetPhases
  simp only
  split
  · exact ⟨_, _, _, _, _, _, _, _, rfl⟩
  · exact ⟨_, _, _, _, _, _, _, _, rfl⟩
  · exact ⟨_, _, _, _, _, _, _, _, rfl⟩
  · exact ⟨_, _, _, _, _, _, _, _, rfl⟩

end Solver

end ClauseLearning
