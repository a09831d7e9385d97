import ClauseLearning.Proofs.Entailment
import ClauseLearning.Proofs.Lasting
import ClauseLearning.Proofs.Model
import ClauseLearning.Proofs.Termination
import ClauseLearning.Proofs.Trial

/-!
# Deciding a formula

With nothing that disturbs a search it ends with an answer, and the answer is right: there is a model exactly if the
formula is satisfiable.  How many passes it is given beyond those it needs does not matter.

* `Solver.search_of_le` — more passes make no difference to a search that has ended.
* `Solver.solve_decides` — a solve decides its formula.
-/

namespace ClauseLearning

variable {ε : Type}

namespace Solver

variable {s s' s₀ : Solver ε} {F : List (List Literal)} {report : Report}

/-! ## Passes beyond the end -/

/-- More passes make no difference to a search that has ended. -/
theorem search_of_le {n m : Nat} (hnm : n ≤ m) (h : search n s = .ok (some report) s') :
    search m s = .ok (some report) s' := by
  induction n generalizing m s with
  | zero => exact absurd h (by simp [search, pure, EStateM.pure])
  | succ n ih =>
    obtain ⟨m, rfl⟩ := Nat.exists_eq_add_of_le' (Nat.lt_of_lt_of_le (Nat.succ_pos n) hnm)
    simp only [search, bind, EStateM.bind] at h ⊢
    cases hp : pass s with
    | error e s₁ => simp [hp] at h
    | ok out s₁ =>
      rw [hp] at h
      cases out with
      | some r => exact h
      | none => exact ih (by omega) h

/-- A solve is its start, and then its search if there is no report yet. -/
theorem solve_of_start {s₁ : Solver ε} {out : Option Report} (h : startSolve s = .ok out s₁) (n : Nat) :
    solve n s = match out with
      | some report => .ok (some report) s₁
      | none => ending (search n) s₁ := by
  simp only [solve, bind, EStateM.bind, h]
  cases out <;> rfl

theorem solve_of_le {n m : Nat} (hnm : n ≤ m) (h : solve n s = .ok (some report) s') :
    solve m s = .ok (some report) s' := by
  cases hx : startSolve s with
  | error e s₁ => simp [solve, bind, EStateM.bind, hx] at h
  | ok out s₁ =>
    rw [solve_of_start hx] at h ⊢
    cases out with
    | some r => exact h
    | none =>
      simp only [ending] at h ⊢
      cases hy : search n s₁ with
      | error e s₂ => simp [hy] at h
      | ok out s₂ =>
        rw [hy] at h
        cases out with
        | none => simp at h
        | some r =>
          rw [search_of_le hnm hy]
          exact h

/-! ## The start -/

/-- A search is prepared without limits, if the solve has none. -/
theorem ends_prepare_unlimited (hs : s.stopped = false) (hc : s.limits.conflictBudget = none)
    (hd : s.limits.decisionBudget = none) :
    Ends prepare s (fun report s' => report = none → s'.Unlimited) fun _ _ => True := by
  have hgo : ∀ s' : Solver ε, s'.Unlimited → Ends (do
      if (← get).settings.preprocessing.value then
        preprocess
        if (← get).inconsistent then return some Report.unsatisfiable
      return none) s' (fun report s' => report = none → s'.Unlimited) fun _ _ => True := by
    intro s' h'
    simp only [ends_bind, ends_get, ends_ite, ends_pure]
    refine ⟨fun _ => ?_, fun _ _ => h'⟩
    exact (forward_preprocess s').imp (fun _ _ hf => ⟨fun _ hr => by simp at hr, fun _ _ => h'.timed hf.toTimed⟩)
      fun _ _ _ => trivial
  have hinit : s.initialLimits.Unlimited := ⟨hs, by simp [initialLimits, hc], by simp [initialLimits, hd]⟩
  unfold prepare
  simp only [ends_bind, ends_get, ends_ite, ends_pure, ends_modify] at hgo ⊢
  refine ⟨fun _ hr => by simp at hr, fun _ => ⟨fun _ => hgo _ ?_, fun _ => hgo _ hinit⟩⟩
  unfold enterMode onOrders
  exact ⟨hinit.stopped, hinit.conflicts, hinit.decisions⟩

theorem ends_startSolve_unlimited (hs : s.stopped = false) (hc : s.limits.conflictBudget = none)
    (hd : s.limits.decisionBudget = none) :
    Ends startSolve s (fun report s' => report = none → s'.Unlimited) fun _ _ => True := by
  have hend : ∀ status, Ends (ending prepare) { s with status } (fun report s' => report = none → s'.Unlimited)
      fun _ _ => True := fun status => by
    rw [ends_ending]
    refine (ends_prepare_unlimited (s := { s with status }) hs hc hd).imp (fun report s' h => ?_) fun _ _ _ => trivial
    cases report with
    | none => exact h
    | some r => exact fun hr => by simp at hr
  unfold startSolve beginSolve
  simp only [ends_bind, ends_get, ends_ite, ends_throw]
  refine ⟨fun _ => trivial, fun _ => ?_⟩
  split
  · exact hend _
  · exact hend _
  · trivial

/-! ## The answer -/

/-- Where nothing is handed in, what is known stays satisfied wherever the formula is. -/
theorem Loaded.told_alone (h₀ : s₀.Loaded (false = false) F) (ha : s₀.hooks.Aloof) {place : Place}
    (hrun : Run false (.loaded, s₀) (place, s)) {v : Valuation} (hv : v.Models F) :
    Told (Contract.alone ha.units ha.clauses v) s :=
  (hrun.at h₀).2.told _ ⟨rfl, trivial, fun _ => h₀.holds v hv, fun _ => .inl h₀.learned⟩

/-- A solve to which nothing is handed in answers that there is no model only if there is none. -/
theorem Loaded.not_satisfiable (h₀ : s₀.Loaded (false = false) F) (ha : s₀.hooks.Aloof) {n : Nat}
    (hs : solve n s₀ = .ok (some .unsatisfiable) s) : ¬ Satisfiable F := by
  rintro ⟨v, hv⟩
  have hrun : Run false (.loaded, s₀) (.ended .unsatisfiable, s) := (run_solve n s₀).of_ok hs
  have hconsistent := ((h₀.told_alone ha hrun hv).holds trivial).consistent
  rw [(hrun.at h₀).1.inconsistent] at hconsistent
  exact Bool.noConfusion hconsistent

/-- A solve that nothing disturbs ends with an answer. -/
theorem Loaded.exists_report (h₀ : s₀.Loaded (false = false) F) (hpending : s₀.pending = #[])
    (hplain : s₀.settings.Plain) (haloof : s₀.hooks.Aloof) (hstopped : s₀.stopped = false)
    (hconflicts : s₀.limits.conflictBudget = none) (hdecisions : s₀.limits.decisionBudget = none)
    (hroom : ∀ n s, solve n s₀ ≠ .error .exhausted s)
    (hlong : ∀ s, Run false (.loaded, s₀) (.propagated, s) → s.reducing = true →
      1 ≤ (s.count fun c => { c with reductions := c.reductions + 1 }).reduceDelta) :
    ∃ n report s, solve n s₀ = .ok (some report) s ∧ report ≠ .unknown := by
  have hstart := h₀.ends_startSolve.and (ends_startSolve_unlimited hstopped hconflicts hdecisions)
  cases hx : startSolve s₀ with
  | error e s => exact absurd hpending (hstart.of_error hx).1.2.1
  | ok out s₁ =>
    obtain ⟨⟨-, hc, hout⟩, hunlimited⟩ := hstart.of_ok hx
    cases out with
    | some report =>
      obtain rfl : report = .unsatisfiable := by simpa using hout
      exact ⟨0, _, s₁, solve_of_start hx 0, by simp⟩
    | none =>
      obtain ⟨-, hev⟩ := hc
      have hu : s₁.Undisturbed := ⟨hunlimited rfl, hev.settings ▸ hplain, hev.hooks ▸ haloof⟩
      have hsearch := ends_search_report h₀ hlong (remaining (.ready, s₁) + 1) (.single (.start hx)) hu
        (Nat.lt_succ_self _)
      have hs := solve_of_start hx (remaining (.ready, s₁) + 1)
      simp only [ending] at hs
      cases hy : search (remaining (.ready, s₁) + 1) s₁ with
      | ok out s₂ =>
        obtain ⟨report, rfl, hk⟩ := hsearch.of_ok hy
        rw [hy] at hs
        exact ⟨_, report, _, hs, hk⟩
      | error e s₂ =>
        rw [hy] at hs
        rcases (h₀.ends_solve rfl _).of_error hs with rfl | ⟨-, hp⟩
        · exact absurd hs (hroom _ _)
        · exact absurd hpending hp

variable {C : Settings} {hooks : Hooks ε} {limits : Limits} {outside : ε} {calls : List Call}

/-- A solve without restarts and changes of mode, to which nothing is handed in and which is not to stop, decides the
formula: with enough passes it ends, and answers that there is a model if there is one, and that there is none if
there is none.  Nothing more is assumed than that there is room, and that the time from a reduction to the next one
is positive whenever one is due. -/
theorem solve_decides (hload : calls.forM Call.run (fresh C hooks limits false outside) = .ok () s₀)
    (hpending : s₀.pending = #[]) (hplain : C.Plain) (haloof : hooks.Aloof)
    (hconflicts : limits.conflictBudget = none) (hdecisions : limits.decisionBudget = none)
    (hroom : ∀ n s, solve n s₀ ≠ .error .exhausted s)
    (hlong : ∀ s, Run false (.loaded, s₀) (.propagated, s) → s.reducing = true →
      1 ≤ (s.count fun c => { c with reductions := c.reductions + 1 }).reduceDelta) :
    ∃ n report s, (∀ m, n ≤ m → solve m s₀ = .ok (some report) s) ∧
      (report = .satisfiable ∧ Satisfiable (Call.formula calls) ∨
        report = .unsatisfiable ∧ ¬ Satisfiable (Call.formula calls)) := by
  have h₀ : s₀.Loaded (false = false) (Call.formula calls) := loaded_run hload
  have hapart := apart_run hload
  have htimed := (timed_calls calls).of_ok hload
  have hhooks : s₀.hooks.Aloof := by
    rw [hapart.hooks]
    exact haloof
  have hsettings : s₀.settings.Plain := by
    rw [hapart.settings]
    exact hplain
  obtain ⟨n, report, s, hs, hk⟩ := h₀.exists_report hpending hsettings hhooks htimed.stopped
    (by rw [htimed.limits]; exact hconflicts) (by rw [htimed.limits]; exact hdecisions) hroom hlong
  refine ⟨n, report, s, fun m hnm => solve_of_le hnm hs, ?_⟩
  cases report with
  | satisfiable =>
    obtain ⟨-, v, -, hv⟩ := Loaded.answers (loaded_run hload) hs
    exact .inl ⟨rfl, v, hv⟩
  | unsatisfiable => exact .inr ⟨rfl, h₀.not_satisfiable hhooks hs⟩
  | unknown => exact absurd rfl hk

/-- Clauses without a model, in focused mode and without restarts: there is room for them, and no reduction is due at
any place of their run. -/
theorem solve_decides_refutation : ∃ s₀ : Solver Unit,
    [Call.clause [1, 2], .clause [1, -2], .clause [-1, 3], .clause [-1, -3]].forM Call.run
      (fresh { restart := { restart := .switch false }, mode := ⟨.focused, .focused, .switching⟩ } {} {} false ()) =
        .ok () s₀ ∧
    ∃ n report s, (∀ m, n ≤ m → solve m s₀ = .ok (some report) s) ∧
      (report = .satisfiable ∧
        Satisfiable (Call.formula [.clause [1, 2], .clause [1, -2], .clause [-1, 3], .clause [-1, -3]]) ∨
      report = .unsatisfiable ∧
        ¬ Satisfiable (Call.formula [.clause [1, 2], .clause [1, -2], .clause [-1, 3], .clause [-1, -3]])) := by
  obtain ⟨⟨⟨⟩, s₀⟩, hload, htest⟩ := (Option.any_eq_true (fun x : Unit × Solver Unit =>
      x.2.pending.isEmpty && throughout
        (fun place s => place ≠ .failed .exhausted ∧ (place = .propagated → s.reducing = false)) 30 (.loaded, x.2))
    (result? ([Call.clause [1, 2], .clause [1, -2], .clause [-1, 3], .clause [-1, -3]].forM Call.run)
      (fresh { restart := { restart := .switch false }, mode := ⟨.focused, .focused, .switching⟩ } {} {} false ()))).1
    (by decide +kernel)
  rw [result?_eq_some] at hload
  obtain ⟨hpending, hplaces⟩ := Bool.and_eq_true_iff.1 htest
  refine ⟨s₀, hload, solve_decides hload (Array.isEmpty_iff.1 hpending) ⟨rfl, by simp, by decide⟩
    ⟨rfl, rfl, by simp⟩ rfl rfl (fun n s hs => ?_) fun s hrun hdue => ?_⟩
  · have hfail : Run false (.loaded, s₀) (.failed .exhausted, s) := (run_solve n s₀).of_error hs
    exact (of_decide_eq_true (hfail.throughout hplaces)).1 rfl
  · have hidle := (of_decide_eq_true (hrun.throughout hplaces)).2 rfl
    rw [hdue] at hidle
    exact Bool.noConfusion hidle

end Solver

end ClauseLearning
