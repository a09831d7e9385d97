import ClauseLearning.Proofs.Entailment
import ClauseLearning.Proofs.Facing
import ClauseLearning.Proofs.Trial

/-!
# Whether an offer is accepted changes nothing

Two solvers with the same settings are given the same clauses.  They deal with what is outside in the same way, except
that one may accept an offer which the other one rejects.  Then they go in lockstep to the end.

* `Lockstep` — two procedures that end in the same way, with a rule for each way to build procedures.
* `Hooks.Rivals` — hooks that differ only in which offers are accepted.
* `Solver.Twins` — two solvers that differ only in how many offers were accepted, and each learnt clause was offered.
* `Solver.lockstep_of_unaware` — procedures that do not look at what is outside keep it so.
* `Solver.lockstep_learn` — learning does, although it makes an offer.
* `Solver.lockstep_pass`, `Solver.lockstep_solve` — and so does a solve.
* `Solver.Unaffected`, `Solver.unaffected_of_rivals` — so whatever is accepted, a solve ends in the same way.
-/

namespace ClauseLearning

/-! ## Lockstep -/

section Lockstep

variable {σ τ α β : Type} {P : σ → τ → Prop}

/-- Two procedures end alike whenever they begin in related states. -/
def Lockstep (P : σ → τ → Prop) (x : EStateM Fault σ α) (y : EStateM Fault τ α) : Prop :=
  ∀ s s', P s s' → SameEnd P (x s) (y s')

/-- The same answer, with states that are related. -/
def Agree (P : σ → τ → Prop) (x : α × σ) (y : α × τ) : Prop := x.1 = y.1 ∧ P x.2 y.2

namespace Lockstep

variable {x : EStateM Fault σ α} {y : EStateM Fault τ α}

theorem pure (a : α) : Lockstep P (pure a) (pure a) := fun _ _ h => .ok h

theorem throw (e : Fault) : Lockstep P (throw e : EStateM Fault σ α) (throw e) := fun _ _ h => .error h

theorem bind {g : α → EStateM Fault σ β} {h : α → EStateM Fault τ β} (hx : Lockstep P x y)
    (hg : ∀ a, Lockstep P (g a) (h a)) : Lockstep P (x >>= g) (y >>= h) := by
  intro s s' hs
  have hend := hx s s' hs
  rw [bind_apply, bind_apply]
  generalize x s = r, y s' = r' at hend
  cases hend with
  | ok h₁ => exact hg _ _ _ h₁
  | error h₁ => exact .error h₁

theorem modifyGet {g : σ → α × σ} {h : τ → α × τ} (hg : ∀ s s', P s s' → Agree P (g s) (h s')) :
    Lockstep P (modifyGet g : EStateM Fault σ α) (modifyGet h) := by
  intro s s' hs
  obtain ⟨hans, hs₁⟩ := hg s s' hs
  show SameEnd P (EStateM.Result.ok (g s).1 (g s).2) (EStateM.Result.ok (h s').1 (h s').2)
  rw [hans]
  exact .ok hs₁

theorem ite {b : Prop} [Decidable b] {x' : EStateM Fault σ α} {y' : EStateM Fault τ α} (hx : b → Lockstep P x y)
    (hx' : ¬ b → Lockstep P x' y') : Lockstep P (if b then x else x') (if b then y else y') := by
  by_cases hb : b
  · rw [if_pos hb, if_pos hb]
    exact hx hb
  · rw [if_neg hb, if_neg hb]
    exact hx' hb

/-- What is done first only in some cases. -/
theorem when {b : Prop} [Decidable b] {x : EStateM Fault σ PUnit} {y : EStateM Fault τ PUnit}
    {g : PUnit → EStateM Fault σ β} {h : PUnit → EStateM Fault τ β} (hx : Lockstep P x y)
    (hg : ∀ u, Lockstep P (g u) (h u)) :
    Lockstep P (if b then x >>= g else g ⟨⟩) (if b then y >>= h else h ⟨⟩) :=
  .ite (fun _ => .bind hx hg) fun _ => hg _

end Lockstep

end Lockstep

/-! ## Hooks -/

variable {ε ε' α : Type} {R : ε → ε' → Prop}

/-- Hooks that do the same as long as what is outside is related, except that one may accept an offer which the other
one rejects. -/
structure Hooks.Rivals (R : ε → ε' → Prop) (h : Hooks ε) (h' : Hooks ε') : Prop where
  /-- They ask to stop at the same times. -/
  terminate : Option.Rel (fun f f' => ∀ e e', R e e' → Agree R (f e) (f' e')) h.terminate h'.terminate
  /-- They take note of offers in the same way. -/
  exportClause : ∃ f f', h.exportClause = some f ∧ h'.exportClause = some f' ∧
    ∀ ls glue e e', R e e' → R (f ls glue e).2 (f' ls glue e').2
  /-- They hand out the same units. -/
  units : Option.Rel (fun a a' => ∀ e e', R e e' → Agree R (a.next e) (a'.next e')) h.units h'.units
  /-- They hand out the same clauses. -/
  clauses : Option.Rel (fun a a' => ∀ e e', R e e' → Agree R (a.next e) (a'.next e')) h.clauses h'.clauses

/-- What is outside is related, and so far the same was handed in and out. -/
def Recorded (R : ε → ε' → Prop) (x : ε × List Event) (y : ε' × List Event) : Prop := R x.1 y.1 ∧ x.2 = y.2

theorem optionRel_map {β γ δ : Type} {r : α → β → Prop} {r' : γ → δ → Prop} {f : α → γ} {g : β → δ}
    (hr : ∀ a b, r a b → r' (f a) (g b)) {x : Option α} {y : Option β} (h : Option.Rel r x y) :
    Option.Rel r' (x.map f) (y.map g) := by
  cases h with
  | none => exact .none
  | some h => exact .some (hr _ _ h)

/-- A source that keeps a record hands out the same if it did so before. -/
theorem Agree.recorded {a : Source ε α} {a' : Source ε' α} (event : α → Event)
    (h : ∀ e e', R e e' → Agree R (a.next e) (a'.next e')) (x : ε × List Event) (y : ε' × List Event)
    (hxy : Recorded R x y) : Agree (Recorded R) ((a.recorded event).next x) ((a'.recorded event).next y) := by
  obtain ⟨hout, hlog⟩ := hxy
  obtain ⟨hnext, hrest⟩ := h _ _ hout
  refine ⟨hnext, hrest, ?_⟩
  show x.2 ++ (a.next x.1).1.toList.map event = y.2 ++ (a'.next y.1).1.toList.map event
  rw [hlog, hnext]

/-- What hooks hand in and out is recorded in the same way, whatever is accepted. -/
theorem Hooks.Rivals.recorded {h : Hooks ε} {h' : Hooks ε'} (hr : h.Rivals R h') :
    h.recorded.Rivals (Recorded R) h'.recorded where
  terminate := optionRel_map (fun _ _ hf _ _ hxy => ⟨(hf _ _ hxy.1).1, (hf _ _ hxy.1).2, hxy.2⟩) hr.terminate
  exportClause := by
    obtain ⟨f, f', hf, hf', hR⟩ := hr.exportClause
    refine ⟨_, _, congrArg (Option.map _) hf, congrArg (Option.map _) hf', fun ls glue x y hxy => ?_⟩
    refine ⟨hR _ _ _ _ hxy.1, ?_⟩
    exact congrArg (· ++ [Event.exported ls glue]) hxy.2
  units := optionRel_map (fun _ _ ha => Agree.recorded .unit ha) hr.units
  clauses := optionRel_map (fun _ _ ha => Agree.recorded .clause ha) hr.clauses

/-- The same hooks with two ways to answer offers, which do the same to what is outside. -/
theorem Hooks.rivals_of_effect (h : Hooks ε) (f f' : List Int → Nat → ε → Bool × ε)
    (heffect : ∀ ls glue e, (f ls glue e).2 = (f' ls glue e).2) :
    { h with exportClause := some f }.Rivals Eq { h with exportClause := some f' } where
  terminate := by
    cases h.terminate with
    | none => exact .none
    | some g => exact .some fun e e' he => he ▸ ⟨rfl, rfl⟩
  exportClause := ⟨f, f', rfl, rfl, fun ls glue e e' he => he ▸ heffect ls glue e⟩
  units := by
    cases h.units with
    | none => exact .none
    | some a => exact .some fun e e' he => he ▸ ⟨rfl, rfl⟩
  clauses := by
    cases h.clauses with
    | none => exact .none
    | some a => exact .some fun e e' he => he ▸ ⟨rfl, rfl⟩

/-- The count of offers. -/
def Counters.offered (c : Counters) : Nat := c.exported + c.exportRejected

/-- The count of learnt clauses. -/
def Counters.learned (c : Counters) : Nat := c.learnedUnits + c.learnedBinaries + c.learnedLarge

namespace Solver

/-! ## Twins -/

/-- What is outside of two solvers, their hooks for it, and what they count of it. -/
structure Outsides (R : ε → ε' → Prop) (s : Solver ε) (s' : Solver ε') : Prop where
  /-- As many units were learnt. -/
  units : s'.counters.learnedUnits = s.counters.learnedUnits
  /-- As many binary clauses were learnt. -/
  binaries : s'.counters.learnedBinaries = s.counters.learnedBinaries
  /-- As many longer clauses were learnt. -/
  large : s'.counters.learnedLarge = s.counters.learnedLarge
  /-- Each clause that one of them learnt was offered. -/
  offered : s.counters.offered = s.counters.learned
  /-- Each clause that the other one learnt was offered. -/
  offered' : s'.counters.offered = s'.counters.learned
  /-- What is outside is related. -/
  outside : R s.outside s'.outside
  /-- They differ in which offers are accepted. -/
  hooks : s.hooks.Rivals R s'.hooks

/-- Two solvers that are the same up to what is outside of them, and to how many offers were accepted there. -/
structure Twins (R : ε → ε' → Prop) (s : Solver ε) (s' : Solver ε') : Prop extends Outsides R s s' where
  /-- Nothing else is different. -/
  same : s' = facing s' s

variable {s t : Solver ε} {s' t' : Solver ε'} {x : SolverM ε α} {y : SolverM ε' α}

/-- The counts of twins are the same up to how many offers were accepted. -/
theorem Twins.counters (h : Twins R s s') : s'.counters =
    { s.counters with exported := s'.counters.exported, exportRejected := s'.counters.exportRejected } := by
  have hsame := congrArg Solver.counters h.same
  rw [hsame]
  simp only [facing, h.units, h.binaries, h.large]

/-- One solver in front of either outside. -/
theorem Outsides.facing (h : Outsides R t t') (s : Solver ε) : Twins R (facing t s) (Solver.facing t' s) where
  units := h.units
  binaries := h.binaries
  large := h.large
  offered := h.offered
  offered' := h.offered'
  outside := h.outside
  hooks := h.hooks
  same := rfl

/-- What a procedure does that does not look at what is outside. -/
theorem lockstep_of_unaware (hx : ∀ t : Solver ε, Blind (facing t) x x) (hy : ∀ t : Solver ε', Blind (facing t) x y) :
    Lockstep (Twins R) x y := by
  intro s s' h
  have hs : x s = imageOf (facing s) (x s) := hx s s
  have hs' : y s' = imageOf (facing s') (x s) := (congrArg y h.same).trans (hy s' s)
  rw [hs']
  cases hend : x s with
  | ok a s₁ =>
    rw [hend] at hs
    have hs₁ : s₁ = facing s s₁ := (EStateM.Result.ok.inj hs).2
    rw [hs₁]
    exact .ok (h.facing s₁)
  | error e s₁ =>
    rw [hend] at hs
    have hs₁ : s₁ = facing s s₁ := (EStateM.Result.error.inj hs).2
    rw [hs₁]
    exact .error (h.facing s₁)

/-- What is done next may depend on anything but the outside. -/
theorem lockstep_get {β : Type} {g : Solver ε → SolverM ε β} {h : Solver ε' → SolverM ε' β}
    (hg : ∀ s t, Twins R s (facing t s) → Lockstep (Twins R) (g s) (h (facing t s))) :
    Lockstep (Twins R) (get >>= g) (get >>= h) := by
  intro s s' hs
  have hs₁ := hs
  rw [hs.same] at hs₁ ⊢
  exact hg s s' hs₁ s (facing s' s) hs₁

/-- What a change does that does not look at what is outside. -/
theorem Twins.map (h : Twins R s s') {g : Solver ε → Solver ε} {g' : Solver ε' → Solver ε'}
    (hg : ∀ (t : Solver ε) s, g (facing t s) = facing t (g s))
    (hg' : ∀ (t : Solver ε') s, g' (facing t s) = facing t (g s)) : Twins R (g s) (g' s') := by
  have hs : g s = facing s (g s) := hg s s
  have hs' : g' s' = facing s' (g s) := (congrArg g' h.same).trans (hg' s' s)
  rw [hs', hs]
  exact h.facing (g s)

theorem lockstep_modify {g : Solver ε → Solver ε} {g' : Solver ε' → Solver ε'}
    (hg : ∀ (t : Solver ε) s, g (facing t s) = facing t (g s))
    (hg' : ∀ (t : Solver ε') s, g' (facing t s) = facing t (g s)) : Lockstep (Twins R) (modify g) (modify g') :=
  fun _ _ h => .ok (h.map hg hg')

/-! ## Stopping and taking over -/

/-- Something else is outside now. -/
theorem Twins.move (h : Twins R s s') {e : ε} {e' : ε'} (he : R e e') :
    Twins R { s with outside := e } { s' with outside := e' } where
  units := h.units
  binaries := h.binaries
  large := h.large
  offered := h.offered
  offered' := h.offered'
  outside := he
  hooks := h.hooks
  same := congrArg (fun s : Solver ε' => { s with outside := e' }) h.same

/-- Twins are asked to stop at the same times. -/
theorem Twins.isTerminated (h : Twins R s s') : Agree (Twins R) s.isTerminated s'.isTerminated := by
  have hstopped : s'.stopped = s.stopped := congrArg Solver.stopped h.same
  have hterminate := h.hooks.terminate
  unfold Solver.isTerminated
  by_cases hs : s.stopped = true
  · rw [if_pos hs, if_pos (hstopped.trans hs)]
    exact ⟨rfl, h⟩
  · rw [if_neg hs, if_neg (hstopped ▸ hs)]
    generalize s.hooks.terminate = f, s'.hooks.terminate = f' at hterminate
    cases hterminate with
    | none => exact ⟨rfl, h⟩
    | some hf =>
      obtain ⟨hanswer, houtside⟩ := hf _ _ h.outside
      exact ⟨hanswer, h.move houtside⟩

/-- Twins take over the same from sources that hand out the same.  The induction is on how much there may be. -/
theorem lockstep_drain {a : Source ε α} {a' : Source ε' α} (hsource : ∀ e e', R e e' → Agree R (a.next e) (a'.next e'))
    {take : α → SolverM ε Unit} {take' : α → SolverM ε' Unit} (htake : ∀ x, Lockstep (Twins R) (take x) (take' x))
    {e : ε} {e' : ε'} (he : R e e') : Lockstep (Twins R) (drain a take e) (drain a' take' e') := by
  induction hn : a.size e using Nat.strongRecOn generalizing e e' with
  | _ n ih =>
    intro s s' h
    have hinconsistent : s'.inconsistent = s.inconsistent := congrArg Solver.inconsistent h.same
    obtain ⟨hnext, hrest⟩ := hsource e e' he
    rw [drain_eq, drain_eq]
    by_cases hi : s.inconsistent = true
    · rw [if_pos hi, if_pos (hinconsistent.trans hi)]
      exact .ok (h.move he)
    · rw [if_neg hi, if_neg (hinconsistent ▸ hi)]
      have hsize : ∀ x e₁, a.next e = (some x, e₁) → a.size e₁ < a.size e := fun _ _ => a.size_lt
      generalize a.next e = r, a'.next e' = r' at hnext hrest hsize
      obtain ⟨next, e₁⟩ := r
      obtain ⟨next', e₁'⟩ := r'
      obtain rfl : next = next' := hnext
      cases next with
      | none => exact .ok (h.move hrest)
      | some x =>
        have hend := htake x s s' h
        dsimp only
        generalize take x s = r, take' x s' = r' at hend
        cases hend with
        | ok h₁ => exact ih _ (hn ▸ hsize x e₁ rfl) hrest rfl _ _ h₁
        | error h₁ => exact .error (h₁.move hrest)

theorem lockstep_importUnits : Lockstep (Twins R) (importUnits : SolverM ε Unit) importUnits := by
  unfold importUnits
  refine lockstep_get fun s t h => .when (.throw _) fun _ => ?_
  have hunits := h.hooks.units
  dsimp only
  generalize s.hooks.units = a, (facing t s).hooks.units = a' at hunits
  cases hunits with
  | none => exact .pure _
  | some hsource =>
    exact lockstep_drain hsource (fun e => lockstep_modify (importUnit_facing · e) (importUnit_facing · e)) h.outside

theorem lockstep_importClauses : Lockstep (Twins R) (importClauses : SolverM ε Unit) importClauses := by
  unfold importClauses
  refine lockstep_get fun s t h => .when (.throw _) fun _ => ?_
  have hclauses := h.hooks.clauses
  dsimp only
  generalize s.hooks.clauses = a, (facing t s).hooks.clauses = a' at hclauses
  cases hclauses with
  | none => exact .pure _
  | some hsource =>
    refine lockstep_drain hsource (fun c => ?_) h.outside
    exact lockstep_of_unaware (unaware_importClause · c.literals c.glue) (unaware_importClause · c.literals c.glue)

theorem lockstep_importPass : Lockstep (Twins R) (importPass : SolverM ε Unit) importPass := by
  unfold importPass
  exact lockstep_get fun _ _ _ => .ite (fun _ => .bind lockstep_importUnits fun _ => lockstep_importClauses)
    fun _ => .pure _

/-! ## Learning -/

/-- Counts a learnt clause, and offers it. -/
def tell (clause : Array Literal) (glue : Nat) (s : Solver ε) : Solver ε :=
  if clause.isEmpty then s else (s.noteLearned clause).exportClause clause glue

/-- An offer is about nothing but what is outside. -/
theorem exportClause_facing (clause : Array Literal) (glue : Nat) (t : Solver ε') (s : Solver ε) :
    (facing t s).exportClause clause glue = facing (t.exportClause clause glue) s := by
  have hhooks : (facing t s).hooks = t.hooks := rfl
  have houtside : (facing t s).outside = t.outside := rfl
  unfold exportClause
  rw [hhooks, houtside]
  cases t.hooks.exportClause with
  | none => rfl
  | some f =>
    dsimp only
    split <;> rfl

/-- Learning is the same in front of either outside, which is told of the clause. -/
theorem learn_facing (jump glue : Nat) (t : Solver ε') (s : Solver ε) :
    learn jump glue (facing t s) =
      match storeLearned s.learned jump glue { s with learned := #[] } with
      | .ok _ s₁ => .ok () (facing (t.tell s.learned glue) { s₁ with learned := s.learned })
      | .error e s₁ => .error e (facing t s₁) := by
  have hstore := storeLearned_facing t s.learned jump glue { s with learned := #[] }
  have hclear : ({ facing t s with learned := #[] } : Solver ε') = facing t { s with learned := #[] } := rfl
  unfold learn
  rw [get_bind_apply, learned_facing, modify_bind_apply, bind_apply, hclear, hstore]
  cases storeLearned s.learned jump glue { s with learned := #[] } with
  | error e s₁ => rfl
  | ok _ s₁ =>
    dsimp only
    rw [modify_apply]
    unfold tell
    cases hempty : s.learned.isEmpty with
    | false =>
      simp only [Bool.false_eq_true, if_false, exportClause_facing]
      rfl
    | true =>
      have hls : s.learned.toList = [] := by simpa using hempty
      simp only [noteLearned, hls, if_true]
      rfl

/-- A learnt clause is counted once. -/
theorem learned_noteLearned (s : Solver ε) {clause : Array Literal} (hne : clause.isEmpty = false) :
    (s.noteLearned clause).counters.learned = s.counters.learned + 1 := by
  unfold noteLearned Counters.learned count
  split
  · next hnil => simp [← Array.isEmpty_toList, hnil] at hne
  · dsimp only
    omega
  · dsimp only
    omega
  · exact (Nat.add_assoc _ _ _).symm

/-- To be told of a clause is to count it, and to accept or to reject it. -/
theorem tell_of_some {f : List Int → Nat → ε → Bool × ε} (hf : s.hooks.exportClause = some f) {clause : Array Literal}
    (hne : clause.isEmpty = false) (glue : Nat) :
    ∃ exported exportRejected, exported + exportRejected = s.counters.offered + 1 ∧
      s.tell clause glue = { s with
        counters := { (s.noteLearned clause).counters with exported, exportRejected }
        outside := (f (clause.toList.map Numbering.toExternal) glue s.outside).2 } := by
  have hnote : s.noteLearned clause = { s with counters := (s.noteLearned clause).counters } := by
    unfold noteLearned
    split <;> rfl
  have hoffered : (s.noteLearned clause).counters.offered = s.counters.offered := by
    unfold noteLearned
    split <;> rfl
  unfold tell
  rw [hne, if_neg Bool.false_ne_true, ← hoffered, hnote]
  generalize (s.noteLearned clause).counters = c
  unfold exportClause
  dsimp only
  rw [hf]
  dsimp only
  split
  · exact ⟨_, _, Nat.succ_add _ _, rfl⟩
  · exact ⟨c.exported, c.exportRejected + 1, rfl, rfl⟩

/-- Twins count a learnt clause in the same way. -/
theorem Outsides.noteLearned (h : Outsides R t t') (clause : Array Literal) :
    (t'.noteLearned clause).counters.learnedUnits = (t.noteLearned clause).counters.learnedUnits ∧
      (t'.noteLearned clause).counters.learnedBinaries = (t.noteLearned clause).counters.learnedBinaries ∧
      (t'.noteLearned clause).counters.learnedLarge = (t.noteLearned clause).counters.learnedLarge := by
  unfold Solver.noteLearned
  split
  · exact ⟨h.units, h.binaries, h.large⟩
  · exact ⟨congrArg (· + 1) h.units, h.binaries, h.large⟩
  · exact ⟨h.units, congrArg (· + 1) h.binaries, h.large⟩
  · exact ⟨h.units, h.binaries, congrArg (· + 1) h.large⟩

/-- Both outsides are told of a learnt clause.  One may accept what the other one rejects. -/
theorem Outsides.tell (h : Outsides R t t') (clause : Array Literal) (glue : Nat) :
    Outsides R (t.tell clause glue) (t'.tell clause glue) := by
  cases hne : clause.isEmpty with
  | true =>
    unfold Solver.tell
    rw [hne]
    exact h
  | false =>
    obtain ⟨f, f', hf, hf', hR⟩ := h.hooks.exportClause
    obtain ⟨exported, rejected, hoffered, htell⟩ := tell_of_some hf hne glue
    obtain ⟨exported', rejected', hoffered', htell'⟩ := tell_of_some hf' hne glue
    obtain ⟨hunits, hbinaries, hlarge⟩ := h.noteLearned clause
    have hlearned := learned_noteLearned t hne
    have hlearned' := learned_noteLearned t' hne
    rw [htell, htell']
    exact {
      units := hunits
      binaries := hbinaries
      large := hlarge
      offered := (hoffered.trans (congrArg (· + 1) h.offered)).trans hlearned.symm
      offered' := (hoffered'.trans (congrArg (· + 1) h.offered')).trans hlearned'.symm
      outside := hR _ _ _ _ h.outside
      hooks := h.hooks }

theorem lockstep_learn (jump glue : Nat) : Lockstep (Twins R) (learn jump glue : SolverM ε Unit) (learn jump glue) := by
  intro s s' h
  have hs : learn jump glue s = _ := learn_facing jump glue s s
  have hs' : learn jump glue s' = _ := (congrArg (learn jump glue) h.same).trans (learn_facing jump glue s' s)
  rw [hs, hs']
  cases storeLearned s.learned jump glue { s with learned := #[] } with
  | ok _ s₁ => exact .ok ((h.toOutsides.tell s.learned glue).facing _)
  | error e s₁ => exact .error (h.facing s₁)

/-! ## Passes -/

theorem lockstep_resolveConflict (key : Key) :
    Lockstep (Twins R) (resolveConflict key : SolverM ε (Option Report)) (resolveConflict key) := by
  unfold resolveConflict
  refine .bind (lockstep_modify (fun _ _ => rfl) fun _ _ => rfl) fun _ =>
    .bind (lockstep_of_unaware (unaware_analyze · key) (unaware_analyze · key)) fun out => ?_
  cases out with
  | fundamental => exact .bind (lockstep_modify (fun _ _ => rfl) fun _ _ => rfl) fun _ => .pure _
  | asserting jump glue => exact .bind (lockstep_learn jump glue) fun _ => .pure _

theorem lockstep_simplifyPass : Lockstep (Twins R) (simplifyPass : SolverM ε (Option Report)) simplifyPass :=
  .bind (lockstep_of_unaware unaware_simplify unaware_simplify) fun _ => lockstep_get fun _ _ _ => .pure _

theorem lockstep_decidePass : Lockstep (Twins R) (decidePass : SolverM ε (Option Report)) decidePass := by
  unfold decidePass
  refine .bind (lockstep_of_unaware (fun t => .modifyGet (decide_facing t)) fun t => .modifyGet (decide_facing t))
    fun l => ?_
  cases l with
  | some l => exact .pure _
  | none => exact .throw _

theorem lockstep_proceed : Lockstep (Twins R) (proceed : SolverM ε (Option Report)) proceed := by
  unfold proceed
  refine lockstep_get fun _ _ _ => .ite (fun _ => .pure _) fun _ => .ite (fun _ => ?reduce) fun _ =>
    .ite (fun _ => ?restart) fun _ => .ite (fun _ => ?rephase) fun _ => .ite (fun _ => ?switch) fun _ =>
      .ite (fun _ => lockstep_simplifyPass) fun _ => .ite (fun _ => .pure _) fun _ => lockstep_decidePass
  case reduce => exact .bind (lockstep_of_unaware unaware_reduce unaware_reduce) fun _ => .pure _
  case restart => exact .bind (lockstep_modify restart_facing restart_facing) fun _ => .pure _
  case rephase => exact .bind (lockstep_modify rephase_facing rephase_facing) fun _ => .pure _
  case switch => exact .bind (lockstep_modify switchMode_facing switchMode_facing) fun _ => .pure _

theorem lockstep_isTerminated : Lockstep (Twins R) (modifyGet isTerminated : SolverM ε Bool) (modifyGet isTerminated) :=
  .modifyGet fun _ _ h => h.isTerminated

theorem lockstep_advance : Lockstep (Twins R) (advance : SolverM ε (Option Report)) advance := by
  unfold advance
  exact lockstep_get fun _ _ _ => .ite (fun _ => lockstep_simplifyPass) fun _ => .ite (fun _ => .pure _) fun _ =>
    .bind lockstep_isTerminated fun _ => .ite (fun _ => .pure _) fun _ => lockstep_proceed

theorem lockstep_pass : Lockstep (Twins R) (pass : SolverM ε (Option Report)) pass := by
  unfold pass
  refine .bind (lockstep_modify (fun _ _ => rfl) fun _ _ => rfl) fun _ => .bind lockstep_importPass fun _ =>
    lockstep_get fun _ _ _ => .ite (fun _ => .pure _) fun _ =>
      .bind (lockstep_of_unaware unaware_propagatePass unaware_propagatePass) fun out => ?_
  cases out with
  | some key => exact lockstep_resolveConflict key
  | none => exact lockstep_advance

/-- Passes up to a report.  The induction is on their number. -/
theorem lockstep_search (n : Nat) : Lockstep (Twins R) (search n : SolverM ε (Option Report)) (search n) := by
  induction n with
  | zero => exact .pure _
  | succ n ih =>
    unfold search
    refine .bind lockstep_pass fun report => ?_
    cases report with
    | some report => exact .pure _
    | none => exact ih

/-! ## Solves -/

theorem lockstep_eliminateRounds (n : Nat) :
    Lockstep (Twins R) (eliminateRounds n : SolverM ε Unit) (eliminateRounds n) := by
  induction n with
  | zero => exact .throw _
  | succ n ih =>
    unfold eliminateRounds
    refine .bind lockstep_isTerminated fun _ => .ite (fun _ => .pure _) fun _ => .bind ?_ fun _ =>
      .ite (fun _ => .pure _) fun _ => ih
    exact lockstep_of_unaware (fun t => .recover (unaware_eliminatePure t) fun _ => .throw _)
      fun t => .recover (unaware_eliminatePure t) fun _ => .throw _

theorem lockstep_preprocess : Lockstep (Twins R) (preprocess : SolverM ε Unit) preprocess := by
  unfold preprocess
  refine lockstep_get fun _ _ _ => .when (.throw _) fun _ =>
    .bind (lockstep_of_unaware unaware_propagateRoot unaware_propagateRoot) fun _ => .ite (fun _ => ?_) fun _ => .pure _
  exact lockstep_get fun _ _ _ => lockstep_eliminateRounds _

theorem lockstep_prepare : Lockstep (Twins R) (prepare : SolverM ε (Option Report)) prepare := by
  unfold prepare
  refine lockstep_get fun _ _ _ => .ite (fun _ => .pure _) fun _ =>
    .bind (lockstep_modify (fun _ _ => rfl) fun _ _ => rfl) fun _ => lockstep_get fun _ _ _ =>
      .when (lockstep_modify (enterMode_facing · true) (enterMode_facing · true)) fun _ => lockstep_get fun _ _ _ =>
        .ite (fun _ => ?_) fun _ => .pure _
  exact .bind lockstep_preprocess fun _ => lockstep_get fun _ _ _ => .ite (fun _ => .pure _) fun _ => .pure _

/-- Twins end a part of a solve in the same way. -/
theorem lockstep_ending {x : SolverM ε (Option Report)} {y : SolverM ε' (Option Report)} (hx : Lockstep (Twins R) x y) :
    Lockstep (Twins R) (ending x) (ending y) := by
  intro s s' h
  have hend := hx s s' h
  unfold ending
  generalize x s = r, y s' = r' at hend
  cases hend with
  | @ok report s₁ s₁' h₁ =>
    cases report with
    | none => exact .ok h₁
    | some report => exact .ok (h₁.map (conclude_facing · report) (conclude_facing · report))
  | @error e s₁ s₁' h₁ =>
    have hfail : Twins R s₁.fail s₁'.fail := h₁.map (fun _ _ => rfl) fun _ _ => rfl
    exact .error hfail

/-- Twins go in lockstep through a solve. -/
theorem lockstep_solve (n : Nat) : Lockstep (Twins R) (solve n : SolverM ε (Option Report)) (solve n) := by
  unfold solve startSolve
  refine .bind (.bind (lockstep_of_unaware unaware_beginSolve unaware_beginSolve) fun _ =>
    lockstep_ending lockstep_prepare) fun report => ?_
  cases report with
  | some report => exact .pure _
  | none => exact lockstep_ending (lockstep_search n)

/-- Twins are given the same clauses. -/
theorem lockstep_calls (calls : List Call) :
    Lockstep (Twins R) (calls.forM Call.run : SolverM ε PUnit) (calls.forM Call.run) := by
  induction calls with
  | nil => exact .pure _
  | cons c calls ih => exact .bind (lockstep_of_unaware (unaware_call · c) (unaware_call · c)) fun _ => ih

/-- Adds clauses, and solves with at most `n` passes. -/
def attempt (calls : List Call) (n : Nat) : SolverM ε (Option Report) := do
  calls.forM Call.run
  solve n

/-- Twins go in lockstep from the first clause to the end. -/
theorem lockstep_attempt (calls : List Call) (n : Nat) :
    Lockstep (Twins R) (attempt calls n : SolverM ε (Option Report)) (attempt calls n) :=
  .bind (lockstep_calls calls) fun _ => lockstep_solve n

/-- Solvers before any clause was added are twins if their hooks differ only in which offers are accepted. -/
theorem twins_fresh {h : Hooks ε} {h' : Hooks ε'} (hooks : h.Rivals R h') {e : ε} {e' : ε'} (he : R e e') (C : Settings)
    (limits : Limits) (stopped : Bool) : Twins R (fresh C h limits stopped e) (fresh C h' limits stopped e') where
  units := rfl
  binaries := rfl
  large := rfl
  offered := rfl
  offered' := rfl
  outside := he
  hooks := hooks
  same := rfl

/-- All that may be different at the end of two runs of which one accepts what the other one rejects.  What was handed
in and out is recorded. -/
structure Unaffected (R : ε → ε' → Prop) (s : Solver (ε × List Event)) (s' : Solver (ε' × List Event)) : Prop where
  /-- Nothing else is different. -/
  same : s' = { s with
    counters := { s.counters with exported := s'.counters.exported, exportRejected := s'.counters.exportRejected }
    hooks := s'.hooks
    outside := s'.outside }
  /-- The same was handed in, and the same clauses were offered with the same glue, all in the same order. -/
  record : s'.outside.2 = s.outside.2
  /-- What is outside is related. -/
  outside : R s.outside.1 s'.outside.1
  /-- The hooks differ only in which offers are accepted. -/
  hooks : s.hooks.Rivals (Recorded R) s'.hooks
  /-- There were as many offers. -/
  offered : s'.counters.exported + s'.counters.exportRejected = s.counters.exported + s.counters.exportRejected
  /-- Each learnt clause was offered once. -/
  learned : s.counters.exported + s.counters.exportRejected =
    s.counters.learnedUnits + s.counters.learnedBinaries + s.counters.learnedLarge

theorem Twins.unaffected {s : Solver (ε × List Event)} {s' : Solver (ε' × List Event)} (h : Twins (Recorded R) s s') :
    Unaffected R s s' where
  same := by
    have hcounters := h.counters
    rw [← hcounters]
    exact h.same.trans (congrArg (fun c => ({ s with counters := c, hooks := s'.hooks, outside := s'.outside } :
      Solver (ε' × List Event))) (congrArg Solver.counters h.same).symm)
  record := h.outside.2.symm
  outside := h.outside.1
  hooks := h.hooks
  offered := by
    have hlearned : s'.counters.learned = s.counters.learned := by
      simp only [Counters.learned, h.units, h.binaries, h.large]
    exact h.offered'.trans (hlearned.trans h.offered.symm)
  learned := h.offered

/-- Whatever is accepted and rejected, a solve ends in the same way. -/
theorem unaffected_of_rivals {h : Hooks ε} {h' : Hooks ε'} (hooks : h.Rivals R h') {e : ε} {e' : ε'} (he : R e e')
    (C : Settings) (limits : Limits) (stopped : Bool) (calls : List Call) (n : Nat) :
    SameEnd (Unaffected R) (attempt calls n (fresh C h.recorded limits stopped (e, [])))
      (attempt calls n (fresh C h'.recorded limits stopped (e', []))) := by
  have hrecord : Recorded R (e, []) (e', []) := ⟨he, rfl⟩
  have hbegin := twins_fresh hooks.recorded hrecord C limits stopped
  exact (lockstep_attempt calls n _ _ hbegin).mono fun _ _ => Twins.unaffected

/-- Clauses without a model: all offers are accepted in one run, and all are rejected in another. -/
theorem unaffected_refutation : ∃ s s' : Solver (Unit × List Event),
    attempt [Call.clause [1, 2], .clause [1, -2], .clause [-1, 3], .clause [-1, -3]] 10
      (fresh {} (Hooks.recorded { exportClause := some fun _ _ e => (true, e) }) {} false ((), [])) =
        .ok (some .unsatisfiable) s ∧
    attempt [Call.clause [1, 2], .clause [1, -2], .clause [-1, 3], .clause [-1, -3]] 10
      (fresh {} (Hooks.recorded { exportClause := some fun _ _ e => (false, e) }) {} false ((), [])) =
        .ok (some .unsatisfiable) s' ∧
    s.counters.exported = 1 ∧ s'.counters.exportRejected = 1 ∧ Unaffected Eq s s' := by
  have hend := unaffected_of_rivals
    (Hooks.rivals_of_effect {} (fun _ _ e => (true, e)) (fun _ _ e => (false, e)) fun _ _ _ => rfl) (Eq.refl ())
    {} {} false
    [Call.clause [1, 2], .clause [1, -2], .clause [-1, 3], .clause [-1, -3]] 10
  obtain ⟨⟨report, s⟩, hrun, htest⟩ := (Option.any_eq_true (fun x : Option Report × Solver (Unit × List Event) =>
      x.1 = some .unsatisfiable && x.2.counters.exported = 1)
    (result? (attempt [Call.clause [1, 2], .clause [1, -2], .clause [-1, 3], .clause [-1, -3]] 10)
      (fresh {} (Hooks.recorded { exportClause := some fun _ _ e => (true, e) }) {} false ((), [])))).1
    (by decide +kernel)
  obtain ⟨⟨report', s'⟩, hrun', htest'⟩ := (Option.any_eq_true (fun x : Option Report × Solver (Unit × List Event) =>
      x.1 = some .unsatisfiable && x.2.counters.exportRejected = 1)
    (result? (attempt [Call.clause [1, 2], .clause [1, -2], .clause [-1, 3], .clause [-1, -3]] 10)
      (fresh {} (Hooks.recorded { exportClause := some fun _ _ e => (false, e) }) {} false ((), [])))).1
    (by decide +kernel)
  rw [result?_eq_some] at hrun hrun'
  simp only [Bool.and_eq_true, decide_eq_true_eq] at htest htest'
  obtain ⟨rfl, hexported⟩ := htest
  obtain ⟨rfl, hrejected⟩ := htest'
  rw [hrun, hrun'] at hend
  cases hend with
  | ok h => exact ⟨s, s', hrun, hrun', hexported, hrejected, h⟩

end Solver

end ClauseLearning
