import ClauseLearning.Proofs.Ends
import ClauseLearning.Proofs.Store.Shrink
import ClauseLearning.Solver.Propagate
import ClauseLearning.Solver.Simplify
import Mathlib.Order.Defs.Unbundled

/-!
# What a procedure leaves alone

Some of a state is not touched by a procedure, however it ends.  This needs no invariant, and is so wherever a
procedure is built only from steps that do not touch it.

* `Keeps` — a procedure leads only to states that are related to the one it begins in.
* `Keeps.bind`, `Keeps.modify`, … — one rule for each way to build procedures.
* `Store.SameEpoch` — between sweeps no epoch begins.
* `Store.sweep_keeps` — what is handed on during a sweep.
-/

namespace ClauseLearning

/-- A procedure leads only to states that are related to the one it begins in. -/
def Keeps {σ α : Type} (R : σ → σ → Prop) (x : EStateM Fault σ α) : Prop :=
  ∀ s, Ends x s (fun _ s' => R s s') fun _ s' => R s s'

namespace Keeps

variable {σ α β : Type} {R R' : σ → σ → Prop} {x : EStateM Fault σ α}

theorem of_ok {a : α} {s s' : σ} (h : Keeps R x) (hx : x s = .ok a s') : R s s' := (h s).of_ok hx

theorem mono (h : Keeps R x) (hR : ∀ s s', R s s' → R' s s') : Keeps R' x := fun s =>
  (h s).imp (fun _ _ => hR _ _) fun _ _ => hR _ _

theorem modify {f : σ → σ} (h : ∀ s, R s (f s)) : Keeps R (modify f) := h

theorem modifyGet {f : σ → α × σ} (h : ∀ s, R s (f s).2) : Keeps R (modifyGet f : EStateM Fault σ α) := h

section Preorder

variable [Std.Refl R] [IsTrans σ R]

omit [IsTrans σ R] in
theorem pure (a : α) : Keeps R (pure a : EStateM Fault σ α) := fun s => refl_of R s

omit [IsTrans σ R] in
theorem get : Keeps R (get : EStateM Fault σ σ) := fun s => refl_of R s

omit [IsTrans σ R] in
theorem throw (e : Fault) : Keeps R (throw e : EStateM Fault σ α) := fun s => refl_of R s

omit [Std.Refl R] in
theorem bind {f : α → EStateM Fault σ β} (hx : Keeps R x) (hf : ∀ a, Keeps R (f a)) : Keeps R (x >>= f) := fun s =>
  (ends_bind x f).2 <| (hx s).imp
    (fun a s' h => (hf a s').imp (fun _ _ => trans_of R h) fun _ _ => trans_of R h) fun _ _ h => h

omit [Std.Refl R] in
/-- What is done first only in some cases. -/
theorem when {b : Prop} [Decidable b] {x : EStateM Fault σ PUnit} {f : PUnit → EStateM Fault σ β} (hx : Keeps R x)
    (hf : ∀ u, Keeps R (f u)) : Keeps R (if b then x >>= f else f ⟨⟩) := by
  split
  · exact .bind hx hf
  · exact hf _

omit [Std.Refl R] in
theorem recover {f : Fault → EStateM Fault σ α} (hx : Keeps R x) (hf : ∀ e, Keeps R (f e)) :
    Keeps R (tryCatch x f) := fun s => by
  have h := hx s
  simp only [Ends, tryCatch, tryCatchThe, MonadExceptOf.tryCatch, EStateM.tryCatch] at h ⊢
  cases he : x s with
  | ok a s' => rwa [he] at h
  | error e s' =>
    rw [he] at h
    exact (hf e _).imp (fun _ _ => trans_of R h) fun _ _ => trans_of R h

theorem allM {f : α → EStateM Fault σ Bool} (h : ∀ a, Keeps R (f a)) (ls : List α) : Keeps R (ls.allM f) := by
  induction ls with
  | nil => exact .pure _
  | cons a ls ih =>
    refine .bind (h a) fun b => ?_
    cases b with
    | true => exact ih
    | false => exact .pure _

theorem filterM {f : α → EStateM Fault σ Bool} (h : ∀ a, Keeps R (f a)) (ls : List α) : Keeps R (ls.filterM f) := by
  have haux : ∀ acc, Keeps R (ls.filterAuxM f acc) := by
    induction ls with
    | nil => exact fun _ => .pure _
    | cons a ls ih => exact fun acc => .bind (h a) fun _ => ih _
  exact .bind (haux []) fun _ => .pure _

theorem forM {f : α → EStateM Fault σ Unit} (h : ∀ a, Keeps R (f a)) (ls : List α) : Keeps R (ls.forM f) := by
  induction ls with
  | nil => exact .pure _
  | cons a ls ih => exact .bind (h a) fun _ => ih

end Preorder

end Keeps

theorem List.foldl_related {σ α : Type} {R : σ → σ → Prop} [Std.Refl R] [IsTrans σ R] {f : σ → α → σ}
    (h : ∀ s a, R s (f s a)) (ls : List α) (s : σ) : R s (ls.foldl f s) := by
  induction ls generalizing s with
  | nil => exact refl_of R s
  | cons a ls ih => exact trans_of R (h s a) (ih _)

/-- The same where a count or the like goes along with the state. -/
theorem List.foldl_related_snd {σ α β : Type} {R : σ → σ → Prop} [Std.Refl R] [IsTrans σ R] {f : β × σ → α → β × σ}
    (h : ∀ x a, R x.2 (f x a).2) (ls : List α) (x : β × σ) : R x.2 (ls.foldl f x).2 := by
  induction ls generalizing x with
  | nil => exact refl_of R x.2
  | cons a ls ih => exact trans_of R (h x a) (ih _)

namespace Store

/-- A change of the store in which no epoch begins. -/
def SameEpoch (s s' : Store) : Prop := s'.epoch = s.epoch

instance : Std.Refl SameEpoch := ⟨fun _ => rfl⟩
instance : IsTrans Store SameEpoch := ⟨fun _ _ _ h h' => Eq.trans h' h⟩

theorem sameEpoch_locate (r : Reference) : Keeps SameEpoch (locate r) := fun s => by
  unfold Ends locate
  cases s.size? r <;> rfl

theorem sameEpoch_updateFlags (r : Reference) (f : Flags → Flags) : Keeps SameEpoch (updateFlags r f) :=
  .bind (sameEpoch_locate r) fun _ => .modify fun _ => rfl

theorem sameEpoch_markGarbage (r : Reference) : Keeps SameEpoch (markGarbage r) := by
  refine .bind (sameEpoch_locate r) fun _ => .bind .get fun s => ?_
  dsimp only
  split
  · exact .pure _
  · exact .bind (.modify fun _ => rfl) fun _ => .pure _

theorem sameEpoch_allocate (ls : Array Literal) (redundant : Bool) (glue : Nat) :
    Keeps SameEpoch (allocate ls redundant glue) := by
  unfold allocate
  refine .when (.throw _) fun _ => .bind .get fun s => .when (.throw _) fun _ => ?_
  exact .bind (.modify fun _ => rfl) fun _ => .pure _

theorem epoch_cutAt (s : Store) (o size n : Nat) : (s.cutAt o size n).epoch = s.epoch := by
  unfold cutAt
  dsimp only
  split <;> exact epoch_pad _ _ _

theorem sameEpoch_shrink (r : Reference) (n : Nat) : Keeps SameEpoch (shrink r n) := by
  refine .bind (sameEpoch_locate r) fun size => .when (.throw _) fun _ => ?_
  split
  · exact .modify fun s => epoch_cutAt s _ _ _
  · exact .pure _

theorem epoch_visitAt (s : Store) (a : Assignment) (no : Literal) (o n : Nat) :
    (s.visitAt a no o n).2.epoch = s.epoch := by
  unfold visitAt
  dsimp only
  split
  · rfl
  · split <;> rfl

theorem sameEpoch_visit (a : Assignment) (no : Literal) (r : Reference) : Keeps SameEpoch (visit a no r) := fun s => by
  unfold Ends visit
  cases s.size? r with
  | error e => rfl
  | ok n =>
    dsimp only
    -- the false literal is moved to position one
    have hswap : (if s.literalAt r.offset 0 = no then s.swapAt r.offset 0 1 else s).epoch = s.epoch := by
      split
      · exact epoch_swapAt ..
      · rfl
    generalize (if s.literalAt r.offset 0 = no then s.swapAt r.offset 0 1 else s) = t at hswap
    by_cases h1 : t.literalAt r.offset 1 = no
    · rw [if_pos h1]
      exact (epoch_visitAt t a no _ n).trans hswap
    · rw [if_neg h1]
      exact hswap

section Sweep

variable {σ : Type} {P : σ → Prop}

/-- What every visit keeps of the state that is handed on is kept while clauses are visited. -/
theorem compactFrom_keeps {visit : Visitor σ} (h : ∀ x old new c, P x → P (visit x old new c).2) (s : Store)
    (p q : Nat) (x : σ) (hx : P x) : P (s.compactFrom visit p q x).2.2 := by
  fun_induction s.compactFrom visit p q x with
  | case1 s p q x _ _ ih => exact ih hx
  | case2 s p q x _ _ size old new next x' hvisit ih =>
    exact ih (by simpa only [hvisit] using h x old new (s.recordAt p) hx)
  | case3 s p q x _ _ size old new next c n x' hvisit n' ih =>
    exact ih (by simpa only [hvisit] using h x old new (s.recordAt p) hx)
  | case4 => exact hx

theorem SweepRule.visitor_snd (rule : SweepRule σ) (x : σ) (old new : Reference) (c : Record) :
    (rule.visitor x old new c).2 = (rule x old new c).2 := by
  rw [visitor]
  split <;> simp only [*]

/-- What every visit keeps of the state that is handed on is kept by a sweep. -/
theorem sweep_keeps {rule : SweepRule σ} (h : ∀ x old new c, P x → P (rule x old new c).2) (s : Store) (start : Nat)
    (x : σ) (hx : P x) : P (s.sweep start rule x).2.2 :=
  compactFrom_keeps (fun x old new c hx => (rule.visitor_snd x old new c).symm ▸ h x old new c hx) s _ _ x hx

end Sweep

end Store

end ClauseLearning
