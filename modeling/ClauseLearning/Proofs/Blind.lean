import ClauseLearning.Proofs.Keeps

/-!
# What a procedure does not look at

A procedure may be started in a state and in its image under some map.  It is blind to the map if it then goes the
same way in both: it ends alike, and the state that it leaves behind is the image again.  The two states may be of
different types, and so the procedure is written down for both.

* `SameEnd` — two procedures that end in the same way.
* `imageOf` — the image of an end.
* `Blind` — a procedure is blind to a map.
* `Blind.bind`, `Blind.get`, `Blind.modify`, … — one rule for each way to build procedures.
* `blind_foldl` — changes that are made one after another.
-/

namespace ClauseLearning

variable {σ τ α β : Type}

theorem bind_apply (x : EStateM Fault σ α) (g : α → EStateM Fault σ β) (s : σ) :
    (x >>= g) s = match x s with
      | .ok a s' => g a s'
      | .error e s' => .error e s' := by
  simp only [Bind.bind, EStateM.bind]
  cases x s <;> rfl

theorem get_bind_apply (g : σ → EStateM Fault σ β) (s : σ) : (get >>= g) s = g s s := rfl

theorem modify_apply (f : σ → σ) (s : σ) : (modify f : EStateM Fault σ PUnit) s = .ok ⟨⟩ (f s) := rfl

theorem modify_bind_apply (f : σ → σ) (g : PUnit → EStateM Fault σ β) (s : σ) : (modify f >>= g) s = g ⟨⟩ (f s) := rfl

/-- Two procedures ended alike, in states that are related. -/
inductive SameEnd (P : σ → τ → Prop) : EStateM.Result Fault σ α → EStateM.Result Fault τ α → Prop
  /-- They have the same answer. -/
  | ok {a s s'} : P s s' → SameEnd P (.ok a s) (.ok a s')
  /-- They met the same fault. -/
  | error {e s s'} : P s s' → SameEnd P (.error e s) (.error e s')

theorem SameEnd.mono {P Q : σ → τ → Prop} {r : EStateM.Result Fault σ α} {r' : EStateM.Result Fault τ α}
    (h : SameEnd P r r') (hPQ : ∀ s s', P s s' → Q s s') : SameEnd Q r r' := by
  cases h with
  | ok h => exact .ok (hPQ _ _ h)
  | error h => exact .error (hPQ _ _ h)

/-- The image of how a procedure ends. -/
def imageOf (f : σ → τ) : EStateM.Result Fault σ α → EStateM.Result Fault τ α
  | .ok a s => .ok a (f s)
  | .error e s => .error e (f s)

/-- A procedure, written down for two kinds of states, goes the same way in a state and in its image. -/
def Blind (f : σ → τ) (x : EStateM Fault σ α) (y : EStateM Fault τ α) : Prop := ∀ s, y (f s) = imageOf f (x s)

namespace Blind

variable {f : σ → τ} {x : EStateM Fault σ α} {y : EStateM Fault τ α}

theorem pure (a : α) : Blind f (pure a) (pure a) := fun _ => rfl

theorem throw (e : Fault) : Blind f (throw e : EStateM Fault σ α) (throw e) := fun _ => rfl

theorem modify {g : σ → σ} {h : τ → τ} (heq : ∀ s, h (f s) = f (g s)) : Blind f (modify g) (modify h) := fun s =>
  congrArg (EStateM.Result.ok PUnit.unit) (heq s)

theorem modifyGet {g : σ → α × σ} {h : τ → α × τ} (heq : ∀ s, h (f s) = ((g s).1, f (g s).2)) :
    Blind f (modifyGet g : EStateM Fault σ α) (modifyGet h) := by
  intro s
  show EStateM.Result.ok (h (f s)).1 (h (f s)).2 = _
  rw [heq s]
  rfl

theorem bind {g : α → EStateM Fault σ β} {h : α → EStateM Fault τ β} (hx : Blind f x y)
    (hg : ∀ a, Blind f (g a) (h a)) :
    Blind f (x >>= g) (y >>= h) := by
  intro s
  rw [bind_apply, bind_apply, hx s]
  cases x s with
  | ok a s' => exact hg a s'
  | error e s' => rfl

/-- What is done next may depend on the state, as long as it is the same for the image. -/
theorem get {g : σ → EStateM Fault σ β} {h : τ → EStateM Fault τ β} (hg : ∀ s, Blind f (g s) (h (f s))) :
    Blind f (get >>= g) (get >>= h) := fun s => hg s s

theorem ite {b : Prop} [Decidable b] {x' : EStateM Fault σ α} {y' : EStateM Fault τ α} (hx : b → Blind f x y)
    (hx' : ¬ b → Blind f x' y') : Blind f (if b then x else x') (if b then y else y') := by
  by_cases hb : b
  · rw [if_pos hb, if_pos hb]
    exact hx hb
  · rw [if_neg hb, if_neg hb]
    exact hx' hb

/-- What is done first only in some cases. -/
theorem when {b : Prop} [Decidable b] {x : EStateM Fault σ PUnit} {y : EStateM Fault τ PUnit}
    {g : PUnit → EStateM Fault σ β} {h : PUnit → EStateM Fault τ β} (hx : Blind f x y) (hg : ∀ u, Blind f (g u) (h u)) :
    Blind f (if b then x >>= g else g ⟨⟩) (if b then y >>= h else h ⟨⟩) :=
  .ite (fun _ => .bind hx hg) fun _ => hg _

theorem recover {g : Fault → EStateM Fault σ α} {h : Fault → EStateM Fault τ α} (hx : Blind f x y)
    (hg : ∀ e, Blind f (g e) (h e)) : Blind f (tryCatch x g) (tryCatch y h) := by
  intro s
  simp only [tryCatch, tryCatchThe, MonadExceptOf.tryCatch, EStateM.tryCatch]
  rw [hx s]
  cases x s with
  | ok a s' => rfl
  | error e s' => exact hg e _

theorem allM {g : α → EStateM Fault σ Bool} {h : α → EStateM Fault τ Bool} (hg : ∀ a, Blind f (g a) (h a))
    (ls : List α) : Blind f (ls.allM g) (ls.allM h) := by
  induction ls with
  | nil => exact .pure _
  | cons a ls ih =>
    refine .bind (hg a) fun b => ?_
    cases b with
    | true => exact ih
    | false => exact .pure _

theorem filterM {g : α → EStateM Fault σ Bool} {h : α → EStateM Fault τ Bool} (hg : ∀ a, Blind f (g a) (h a))
    (ls : List α) : Blind f (ls.filterM g) (ls.filterM h) := by
  have haux : ∀ acc, Blind f (ls.filterAuxM g acc) (ls.filterAuxM h acc) := by
    induction ls with
    | nil => exact fun _ => .pure _
    | cons a ls ih => exact fun acc => .bind (hg a) fun _ => ih _
  exact .bind (haux []) fun _ => .pure _

end Blind

/-- Changes that are made one after another to a state and to its image. -/
theorem blind_foldl {f : σ → τ} {g : σ → α → σ} {h : τ → α → τ} (heq : ∀ s a, h (f s) a = f (g s a)) (ls : List α)
    (s : σ) : ls.foldl h (f s) = f (ls.foldl g s) := by
  induction ls generalizing s with
  | nil => rfl
  | cons a ls ih => rw [List.foldl_cons, List.foldl_cons, heq, ih]

end ClauseLearning
