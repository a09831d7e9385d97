import ClauseLearning.Proofs.Trial

/-!
# A solve meets no fault

The first solve of a solver ends with a report, unless a clause was begun and not ended, or the store has no room.  No
place of its run is left by another fault.  What the procedures subtract is never more than what they subtract it from:
no more literals are on the trail than there are variables to be assigned, and the walk of an analysis takes from a
count, and goes down from a position, that are one or more.

* `Solver.Conflicted.exists_resolves` — the walk of an analysis begins.
* `Solver.solve_faults` — no fault is met, and no count goes below zero.
-/

namespace ClauseLearning

namespace Solver

variable {ε : Type} {lags : Prop} {s s₀ : Solver ε} {key : Key}

/-- The analysis of a conflict above the root begins its walk at the end of the trail. -/
theorem Conflicted.exists_resolves (h : Conflicted lags s key) (h0 : s.trail.level ≠ 0) :
    ∃ opened t, Resolves key s s.trail.level s.trail.size opened t := by
  obtain ⟨ls, hkey, hls, hlevel⟩ := h.exists_literals
  obtain ⟨opened, t, hnote, hr⟩ := (h.ends_noteAll h0 hls).exists_ok
  refine ⟨opened, t, ?_⟩
  rw [← hlevel, ← hr.trail]
  refine .start hkey (hlevel ▸ h0) ?_
  rwa [hlevel, backtrack_of_le s (Nat.le_refl _)]

variable {C : Settings} {hooks : Hooks ε} {limits : Limits} {stopped : Bool} {outside : ε} {calls : List Call}

/-- The first solve, with no clause begun, fails only if the store has no room.  Wherever its run comes to, no more
literals are assigned than there are variables to be assigned; and in the analysis of a conflict, neither the
position nor the count is zero before it is decreased. -/
theorem solve_faults (hload : calls.forM Call.run (fresh C hooks limits stopped outside) = .ok () s₀)
    (hpending : s₀.pending = #[]) :
    (∀ n e s, solve n s₀ = .error e s → e = .exhausted) ∧
    ∀ place s, Run false (.loaded, s₀) (place, s) →
      (∀ e, place = .failed e → e = .exhausted) ∧
      (place ≠ .failed .exhausted → s.trail.size ≤ s.active) ∧
      ∀ key, place = .conflicted key → ∀ level n opened t, Resolves key s.noteConflict level n opened t →
        1 ≤ n ∧ 1 ≤ opened := by
  have h₀ : s₀.Loaded (false = false) (Call.formula calls) := loaded_run hload
  have hfault : ∀ e s, Run false (.loaded, s₀) (.failed e, s) → e = .exhausted := fun e s hrun => by
    obtain ⟨hat, hev⟩ := hrun.at h₀
    exact hat.1.resolve_right fun hc => hc.2 (hev.pending.trans hpending)
  refine ⟨fun n e s he => hfault e s ((run_solve n s₀).of_error he), fun place s hrun => ⟨?_, fun _ => ?_, ?_⟩⟩
  · rintro e rfl
    exact hfault e s hrun
  · exact (hrun.at h₀).1.intact.frame.size_le_active
  · rintro key rfl level n opened t hres
    obtain ⟨hc, hi⟩ := (hrun.at h₀).1
    exact (hres.resolving (hc.note hi).1).2.2.pos

/-- A solve with a conflict on the second level. -/
theorem solve_faults_conflict : ∃ (s₀ s : Solver Unit) (key : Key) (level n : Nat) (opened : Int) (t : Solver Unit),
    [Call.clause [-1, 6], .clause [-6, -5, 2], .clause [-6, 3], .clause [-2, -3, -5]].forM Call.run
        (fresh {} {} {} false ()) = .ok () s₀ ∧ s₀.pending = #[] ∧
      Run false (.loaded, s₀) (.conflicted key, s) ∧ s.trail.size ≤ s.active ∧
      Resolves key s.noteConflict level n opened t ∧ 1 ≤ n ∧ 1 ≤ opened := by
  obtain ⟨s₀, place, s, hload, hrun, htest⟩ := exists_trial (fresh {} {} {} false ())
    [.clause [-1, 6], .clause [-6, -5, 2], .clause [-6, 3], .clause [-2, -3, -5]] 2
    (fun place s => match place with
      | .conflicted _ => Nat.ble 1 s.trail.level && s.pending == #[]
      | _ => false) (by decide +kernel)
  cases place with
  | conflicted key =>
    obtain ⟨hlev, hp⟩ := Bool.and_eq_true_iff.1 htest
    obtain ⟨hat, hev⟩ := hrun.at (loaded_run hload)
    have hpending : s₀.pending = #[] := hev.pending.symm.trans (eq_of_beq hp)
    obtain ⟨opened, t, hres⟩ := (hat.1.note hat.2).1.exists_resolves
      (Nat.one_le_iff_ne_zero.1 (Nat.le_of_ble_eq_true hlev))
    obtain ⟨-, hactive, hcount⟩ := (solve_faults hload hpending).2 _ s hrun
    exact ⟨s₀, s, key, _, _, opened, t, hload, hpending, hrun, hactive (by simp), hres,
      hcount key rfl _ _ _ _ hres⟩
  | _ => simp at htest

end Solver

end ClauseLearning
