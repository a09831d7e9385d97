import ClauseLearning.Proofs.Run

/-!
# Runs by evaluation

A run of a given solver is found by evaluating its procedures, so that what happens in it can be decided.

* `Solver.trial` — the state after some passes, when propagation has come to its end or to a conflict.
* `Solver.exists_trial` — it is the state of a run.
* `Solver.outcome`, `Solver.exists_outcome` — the same for whole solves.
* `Solver.next`, `Solver.throughout` — the step from a place, and whether something is so at every place from it on.
* `Solver.Run.throughout` — then it is so at every place of every run.
* `Solver.after`, `Solver.exists_prompt` — the place that a prompt run comes to after some steps.
-/

namespace ClauseLearning

namespace Solver

variable {ε : Type}

/-- What a procedure leaves behind if it has an answer. -/
def result? {α σ : Type} (x : EStateM Fault σ α) (s : σ) : Option (α × σ) :=
  match x s with
  | .ok a s => some (a, s)
  | .error _ _ => none

theorem result?_eq_some {α σ : Type} {x : EStateM Fault σ α} {s s' : σ} {a : α} :
    result? x s = some (a, s') ↔ x s = .ok a s' := by
  unfold result?
  split <;> rename_i hx <;> simp [hx]

/-- What a part of a search leaves behind if it has no report. -/
def unreported? (x : SolverM ε (Option Report)) (s : Solver ε) : Option (Solver ε) :=
  match result? x s with
  | some (none, s) => some s
  | _ => none

theorem unreported?_eq_some {x : SolverM ε (Option Report)} {s s' : Solver ε} :
    unreported? x s = some s' ↔ x s = .ok none s' := by
  unfold unreported?
  split
  · rename_i s₁ h
    rw [result?_eq_some] at h
    simp [h]
  · rename_i h
    simp only [reduceCtorEq, false_iff]
    exact fun hx => h s' (result?_eq_some.2 hx)

/-- The place that the propagation of the next pass comes to. -/
def propagation? (s : Solver ε) : Option (Place × Solver ε) := do
  let (_, s₁) ← result? importPass s.beginPass
  guard (¬ (s₁.trail.level = 0 ∧ s₁.inconsistent = true))
  let (out, s₂) ← result? propagatePass s₁
  return (out.elim .propagated .conflicted, s₂)

/-- What is loaded by some calls, and the place that the propagation after `n` passes comes to. -/
def trial (s : Solver ε) (calls : List Call) (n : Nat) : Option (Solver ε × Place × Solver ε) := do
  let (_, s₀) ← result? (calls.forM Call.run) s
  let s₁ ← unreported? startSolve s₀
  let s₂ ← unreported? (search n) s₁
  let x ← propagation? s₂
  return (s₀, x)

theorem run_propagation {s : Solver ε} {x : Place × Solver ε} (h : s.propagation? = some x) :
    Run false (.ready, s) x := by
  simp only [propagation?, Option.bind_eq_bind, Option.bind_eq_some_iff, guard, Option.pure_def] at h
  obtain ⟨⟨⟨⟩, s₁⟩, h₁, _, hn, ⟨out, s₂⟩, h₂, he⟩ := h
  rw [result?_eq_some] at h₁ h₂
  have htake : Run false (.ready, s) (.imported, s₁) := .single (.take h₁ (by
    intro hr
    simp [hr] at hn))
  obtain rfl := Option.some.inj he
  cases out with
  | none => exact htake.tail (.propagate h₂)
  | some key => exact htake.tail (.conflict h₂)

/-- What is found by evaluation is the state of a run. -/
theorem exists_trial (s : Solver ε) (calls : List Call) (n : Nat) (test : Place → Solver ε → Bool)
    (h : ((s.trial calls n).any fun x => test x.2.1 x.2.2) = true) :
    ∃ s₀ place s', calls.forM Call.run s = .ok () s₀ ∧ Run false (.loaded, s₀) (place, s') ∧
      test place s' = true := by
  obtain ⟨⟨s₀, place, s'⟩, htrial, htest⟩ := (Option.any_eq_true _ _).1 h
  simp only [trial, Option.bind_eq_bind, Option.bind_eq_some_iff, Option.pure_def] at htrial
  obtain ⟨⟨⟨⟩, _⟩, h₀, s₁, h₁, s₂, h₂, x, hx, he⟩ := htrial
  rw [result?_eq_some] at h₀
  rw [unreported?_eq_some] at h₁ h₂
  obtain ⟨rfl, rfl⟩ := Prod.mk.inj (Option.some.inj he)
  have hsearch : Run false (.ready, s₁) (.ready, s₂) := ((run_search n s₁).of_ok h₂ : _)
  exact ⟨_, place, s', h₀, ((Relation.ReflTransGen.single (.start h₁)).trans hsearch).trans (run_propagation hx),
    htest⟩

/-- What is loaded by some calls, and how a solve of at most `n` passes ends. -/
def outcome (s : Solver ε) (calls : List Call) (n : Nat) : Option (Solver ε × Option Report × Solver ε) := do
  let (_, s₀) ← result? (calls.forM Call.run) s
  let x ← result? (solve n) s₀
  return (s₀, x)

theorem exists_outcome (s : Solver ε) (calls : List Call) (n : Nat) (test : Option Report → Solver ε → Bool)
    (h : ((s.outcome calls n).any fun x => test x.2.1 x.2.2) = true) :
    ∃ s₀ report s', calls.forM Call.run s = .ok () s₀ ∧ solve n s₀ = .ok report s' ∧ test report s' = true := by
  obtain ⟨⟨s₀, report, s'⟩, hout, htest⟩ := (Option.any_eq_true _ _).1 h
  simp only [outcome, Option.bind_eq_bind, Option.bind_eq_some_iff, Option.pure_def] at hout
  obtain ⟨⟨⟨⟩, _⟩, h₀, x, hx, he⟩ := hout
  obtain ⟨rfl, rfl⟩ := Prod.mk.inj (Option.some.inj he)
  exact ⟨_, report, s', result?_eq_some.1 h₀, result?_eq_some.1 hx, htest⟩

/-! ## Every place of a run -/

/-- The place after another one, in the runs that search makes. -/
def next : Place × Solver ε → Option (Place × Solver ε)
  | (.loaded, s) => some <| match startSolve s with
    | .ok none s' => (.ready, s')
    | .ok (some r) s' => (.ended r, s')
    | .error e s' => (.failed e, s')
  | (.ready, s) => some <| match importPass s.beginPass with
    | .ok () s' => if s'.trail.level = 0 ∧ s'.inconsistent = true then
        (.ended .unsatisfiable, conclude .unsatisfiable s')
      else (.imported, s')
    | .error e s' => (.failed e, s'.fail)
  | (.imported, s) => some <| match propagatePass s with
    | .ok none s' => (.propagated, s')
    | .ok (some key) s' => (.conflicted key, s')
    | .error e s' => (.failed e, s'.fail)
  | (.propagated, s) => some <| match advance s with
    | .ok none s' => (.ready, s')
    | .ok (some r) s' => (.ended r, conclude r s')
    | .error e s' => (.failed e, s'.fail)
  | (.conflicted key, s) => some <| match analyze key s.noteConflict with
    | .ok (.asserting jump glue) s' => (.analyzed jump glue, s')
    | .ok .fundamental s' => (.ended .unsatisfiable, conclude .unsatisfiable s'.refute)
    | .error e s' => (.failed e, s'.fail)
  | (.analyzed jump glue, s) => some <| match learn jump glue s with
    | .ok () s' => (.ready, s')
    | .error e s' => (.failed e, s'.fail)
  | (.ended _, _) => none
  | (.failed _, _) => none

/-- A run goes on from a place in one way only. -/
theorem Step.next_eq {prompt : Bool} {x y : Place × Solver ε} (h : Step prompt x y) : next x = some y := by
  cases h with
  | take he hn => simp only [next, he, if_neg hn]
  | refute he hr => simp only [next, he, if_pos hr]
  | _ => simp only [next, *]

/-- Whether a test holds at a place, and at all that follow it in a run, which ends within `n` steps. -/
def throughout (test : Place → Solver ε → Bool) : Nat → Place × Solver ε → Bool
  | 0, _ => false
  | n + 1, x => test x.1 x.2 && match next x with
    | none => true
    | some y => throughout test n y

/-- What was tested from a place on holds at every place that a run from it comes to. -/
theorem Run.throughout {prompt : Bool} {test : Place → Solver ε → Bool} {x y : Place × Solver ε} {n : Nat}
    (hrun : Run prompt x y) (h : Solver.throughout test n x = true) : test y.1 y.2 = true := by
  induction hrun using Relation.ReflTransGen.head_induction_on generalizing n with
  | refl =>
    cases n with
    | zero => simp [Solver.throughout] at h
    | succ n => exact (Bool.and_eq_true_iff.1 h).1
  | head hstep _ ih =>
    cases n with
    | zero => simp [Solver.throughout] at h
    | succ n =>
      simp only [Solver.throughout, hstep.next_eq, Bool.and_eq_true] at h
      exact ih h.2

/-! ## Prompt runs -/

instance (s : Solver ε) (jump : Nat) : Decidable (s.Prompt jump) := inferInstanceAs (Decidable (_ ∨ _))

/-- Whether a prompt run may go on from a place. -/
def goesPromptly : Place × Solver ε → Bool
  | (.analyzed jump _, s) => s.Prompt jump
  | _ => true

/-- The place after `n` steps of a run, if it is prompt up to there. -/
def after : Nat → Place × Solver ε → Option (Place × Solver ε)
  | 0, x => some x
  | n + 1, x => if goesPromptly x then (next x).bind (after n) else none

theorem Step.of_next {x y : Place × Solver ε} (h : next x = some y) (hx : goesPromptly x = true) : Step true x y := by
  obtain ⟨place, s⟩ := x
  cases place with
  | loaded =>
    simp only [next, Option.some.injEq] at h
    split at h <;> rename_i he <;> subst h
    · exact .start he
    · exact .answer he
    · exact .refuse he
  | ready =>
    simp only [next, Option.some.injEq] at h
    split at h <;> rename_i he
    · split at h <;> rename_i hr <;> subst h
      · exact .refute he hr
      · exact .take he hr
    · subst h
      exact .untaken he
  | imported =>
    simp only [next, Option.some.injEq] at h
    split at h <;> rename_i he <;> subst h
    · exact .propagate he
    · exact .conflict he
    · exact .unpropagated he
  | propagated =>
    simp only [next, Option.some.injEq] at h
    split at h <;> rename_i he <;> subst h
    · exact .advance he
    · exact .finish he
    · exact .unfinished he
  | conflicted key =>
    simp only [next, Option.some.injEq] at h
    split at h <;> rename_i he <;> subst h
    · exact .analyze he
    · exact .fundamental he
    · exact .unanalyzed he
  | analyzed jump glue =>
    have hprompt : true = true → s.Prompt jump := fun _ => of_decide_eq_true hx
    simp only [next, Option.some.injEq] at h
    split at h <;> rename_i he <;> subst h
    · exact .learn hprompt he
    · exact .unlearnt hprompt he
  | ended report => simp [next] at h
  | failed fault => simp [next] at h

theorem run_after {n : Nat} {x y : Place × Solver ε} (h : after n x = some y) : Run true x y := by
  induction n generalizing x with
  | zero => exact Option.some.inj h ▸ .refl
  | succ n ih =>
    simp only [after] at h
    split at h
    · next hx =>
      obtain ⟨z, hz, hy⟩ := Option.bind_eq_some_iff.1 h
      exact .head (Step.of_next hz hx) (ih hy)
    · simp at h

/-- What is found by evaluating the steps of a prompt run is the state of one. -/
theorem exists_prompt (s : Solver ε) (calls : List Call) (n : Nat) (test : Place → Solver ε → Bool)
    (h : ((result? (calls.forM Call.run) s).any fun x => (after n (.loaded, x.2)).any fun y => test y.1 y.2) = true) :
    ∃ s₀ place s', calls.forM Call.run s = .ok () s₀ ∧ Run true (.loaded, s₀) (place, s') ∧ test place s' = true := by
  obtain ⟨⟨⟨⟩, s₀⟩, hload, h⟩ := (Option.any_eq_true _ _).1 h
  obtain ⟨⟨place, s'⟩, hrun, htest⟩ := (Option.any_eq_true _ _).1 h
  exact ⟨s₀, place, s', result?_eq_some.1 hload, run_after hrun, htest⟩

/-- A source that hands out the elements of a list. -/
def ofList {α : Type} : Source (List α) α where
  next
    | [] => (none, [])
    | a :: as => (some a, as)
  size := List.length
  size_lt {e e' a} h := by
    cases e with
    | nil => simp at h
    | cons b bs =>
      obtain ⟨-, rfl⟩ := Prod.mk.inj h
      exact Nat.lt_succ_self _

end Solver

end ClauseLearning
