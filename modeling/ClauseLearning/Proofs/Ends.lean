import ClauseLearning.Solver.Basic

/-!
# How procedures end

A procedure that may fail leaves a state behind in either case.  `Ends x s Q E` says of a procedure `x`
started in the state `s` that `Q` holds of its answer and of the state it leaves behind, or else `E` of
the fault and of the state.  The equations below take a procedure apart along its binds, so that a
statement about it becomes one about its steps.

* `Ends` — what holds after a procedure.
* `ends_bind`, `ends_pure`, `ends_modify`, … — one equation for each way to build procedures.
* `Ends.imp` — a weaker conclusion.
* `ends_allM`, `ends_filterM` — tests of the elements of a list.
-/

namespace ClauseLearning

variable {σ α β : Type}

/-- What holds after a procedure: `Q` if it has an answer, and `E` if it meets a fault. -/
def Ends (x : EStateM Fault σ α) (s : σ) (Q : α → σ → Prop) (E : Fault → σ → Prop) : Prop :=
  match x s with
  | .ok a s => Q a s
  | .error e s => E e s

variable {Q Q' : α → σ → Prop} {E E' : Fault → σ → Prop} {s : σ}

theorem ends_of_ok {x : EStateM Fault σ α} {a : α} {s' : σ} (h : x s = .ok a s') :
    Ends x s Q E ↔ Q a s' := by
  simp only [Ends, h]

theorem ends_of_error {x : EStateM Fault σ α} {e : Fault} {s' : σ} (h : x s = .error e s') :
    Ends x s Q E ↔ E e s' := by
  simp only [Ends, h]

/-- A weaker conclusion about the same procedure. -/
theorem Ends.imp {x : EStateM Fault σ α} (h : Ends x s Q E) (hQ : ∀ a s', Q a s' → Q' a s')
    (hE : ∀ e s', E e s' → E' e s') : Ends x s Q' E' := by
  unfold Ends at *
  split at h
  · exact hQ _ _ h
  · exact hE _ _ h

/-- Two conclusions about the same procedure hold together. -/
theorem Ends.and {x : EStateM Fault σ α} (h : Ends x s Q E) (h' : Ends x s Q' E') :
    Ends x s (fun a s => Q a s ∧ Q' a s) (fun e s => E e s ∧ E' e s) := by
  unfold Ends at *
  split at h <;> exact ⟨h, by simp_all⟩

/-- A procedure that never meets a fault. -/
theorem Ends.exists_ok {x : EStateM Fault σ α} (h : Ends x s Q fun _ _ => False) :
    ∃ a s', x s = .ok a s' ∧ Q a s' := by
  unfold Ends at h
  split at h
  · exact ⟨_, _, by assumption, h⟩
  · exact h.elim

theorem Ends.of_ok {x : EStateM Fault σ α} {a : α} {s' : σ} (h : Ends x s Q E)
    (hx : x s = .ok a s') : Q a s' := (ends_of_ok hx).1 h

theorem Ends.of_error {x : EStateM Fault σ α} {e : Fault} {s' : σ} (h : Ends x s Q E)
    (hx : x s = .error e s') : E e s' := (ends_of_error hx).1 h

@[simp] theorem ends_pure (a : α) : Ends (pure a) s Q E ↔ Q a s := Iff.rfl

@[simp] theorem ends_bind (x : EStateM Fault σ α) (f : α → EStateM Fault σ β)
    {Q : β → σ → Prop} :
    Ends (x >>= f) s Q E ↔ Ends x s (fun a s => Ends (f a) s Q E) E := by
  simp only [Ends, bind, EStateM.bind]
  cases x s <;> rfl

@[simp] theorem ends_get {Q : σ → σ → Prop} : Ends get s Q E ↔ Q s s := Iff.rfl

@[simp] theorem ends_modify (f : σ → σ) {Q : PUnit → σ → Prop} :
    Ends (modify f) s Q E ↔ Q ⟨⟩ (f s) := Iff.rfl

@[simp] theorem ends_modifyGet (f : σ → α × σ) :
    Ends (modifyGet f) s Q E ↔ Q (f s).1 (f s).2 := Iff.rfl

@[simp] theorem ends_throw (e : Fault) : Ends (throw e : EStateM Fault σ α) s Q E ↔ E e s := Iff.rfl

@[simp] theorem ends_ite (c : Prop) [Decidable c] (x y : EStateM Fault σ α) :
    Ends (if c then x else y) s Q E ↔ (c → Ends x s Q E) ∧ (¬ c → Ends y s Q E) := by
  split <;> simp_all

/-! ## Procedures over lists

What is found out about an element stays true while others are gone through. -/

section List

variable {f : α → EStateM Fault σ Bool} {P : σ → Prop} {R : σ → σ → Prop} {G : α → σ → Prop}
  (hrefl : ∀ s, R s s) (htrans : ∀ s s' s'', R s s' → R s' s'' → R s s'')
  (hmono : ∀ a s s', R s s' → G a s → G a s')
include hrefl htrans hmono

/-- If the answer is that all elements of a list pass a test, then all do. -/
theorem ends_allM {ls : List α} (h : ∀ a ∈ ls, ∀ s, P s →
      Ends (f a) s (fun b s' => P s' ∧ R s s' ∧ (b = true → G a s')) fun _ _ => False) (hs : P s) :
    Ends (ls.allM f) s (fun b s' => P s' ∧ R s s' ∧ (b = true → ∀ a ∈ ls, G a s'))
      fun _ _ => False := by
  induction ls generalizing s with
  | nil => exact ⟨hs, hrefl s, fun _ a ha => by simp at ha⟩
  | cons a ls ih =>
    rw [List.allM, ends_bind]
    refine (h a (List.mem_cons_self ..) s hs).imp (fun b s₁ h₁ => ?_) fun _ _ hf => hf
    obtain ⟨hs₁, hr₁, hg₁⟩ := h₁
    cases b with
    | false => exact ⟨hs₁, hr₁, fun hb => by simp at hb⟩
    | true =>
      refine (ih (fun a' ha' => h a' (List.mem_cons_of_mem _ ha')) hs₁).imp (fun b s₂ h₂ => ?_)
        fun _ _ hf => hf
      obtain ⟨hs₂, hr₂, hg₂⟩ := h₂
      refine ⟨hs₂, htrans _ _ _ hr₁ hr₂, fun hb a' ha' => ?_⟩
      rcases List.mem_cons.1 ha' with rfl | ha'
      · exact hmono _ _ _ hr₂ (hg₁ rfl)
      · exact hg₂ hb a' ha'

/-- The elements of a list that pass a test are some of it in order, and what failed did fail. -/
theorem ends_filterM {ls : List α} (h : ∀ a ∈ ls, ∀ s, P s →
      Ends (f a) s (fun b s' => P s' ∧ R s s' ∧ (b = false → G a s')) fun _ _ => False) (hs : P s) :
    Ends (ls.filterM f) s
      (fun kept s' => P s' ∧ R s s' ∧ kept.Sublist ls ∧ ∀ a ∈ ls, a ∉ kept → G a s')
      fun _ _ => False := by
  have haux : ∀ acc, Ends (ls.filterAuxM f acc) s
      (fun out s' => P s' ∧ R s s' ∧ ∃ kept : List α, out = kept.reverse ++ acc ∧ kept.Sublist ls ∧
        ∀ a ∈ ls, a ∉ kept → G a s') fun _ _ => False := by
    induction ls generalizing s with
    | nil => exact fun acc => ⟨hs, hrefl s, [], rfl, .refl _, fun a ha => by simp at ha⟩
    | cons a ls ih =>
      intro acc
      rw [List.filterAuxM, ends_bind]
      refine (h a (List.mem_cons_self ..) s hs).imp (fun b s₁ h₁ => ?_) fun _ _ hf => hf
      obtain ⟨hs₁, hr₁, hg₁⟩ := h₁
      refine (ih (fun a' ha' => h a' (List.mem_cons_of_mem _ ha')) hs₁ _).imp (fun out s₂ h₂ => ?_)
        fun _ _ hf => hf
      obtain ⟨hs₂, hr₂, kept, rfl, hsub, hg₂⟩ := h₂
      refine ⟨hs₂, htrans _ _ _ hr₁ hr₂, ?_⟩
      cases b with
      | true =>
        refine ⟨a :: kept, by simp, hsub.cons_cons a, fun a' ha' hn => ?_⟩
        rcases List.mem_cons.1 ha' with rfl | ha'
        · exact absurd (List.mem_cons_self ..) hn
        · exact hg₂ a' ha' fun hk => hn (List.mem_cons_of_mem _ hk)
      | false =>
        refine ⟨kept, rfl, hsub.cons a, fun a' ha' hn => ?_⟩
        rcases List.mem_cons.1 ha' with rfl | ha'
        · exact hmono _ _ _ hr₂ (hg₁ rfl)
        · exact hg₂ a' ha' hn
  rw [List.filterM, ends_bind]
  refine (haux []).imp (fun out s' h' => ?_) fun _ _ hf => hf
  obtain ⟨hs', hr', kept, rfl, hsub, hg'⟩ := h'
  rw [ends_pure, List.append_nil, List.reverse_reverse]
  exact ⟨hs', hr', hsub, hg'⟩

end List

namespace Solver

variable {ε : Type} {s : Solver ε} {Q : α → Solver ε → Prop} {E : Fault → Solver ε → Prop}

theorem ends_ofExcept (x : Except Fault α) :
    Ends (ofExcept x) s Q E ↔ (∀ a, x = .ok a → Q a s) ∧ (∀ e, x = .error e → E e s) := by
  cases x <;> simp [Ends, ofExcept]

theorem ends_onStore (x : StoreM α) :
    Ends (onStore x) s Q E ↔
      Ends x s.store (fun a store => Q a { s with store }) (fun e store => E e { s with store }) := by
  simp only [Ends, onStore]
  cases x s.store <;> rfl

end Solver

end ClauseLearning
