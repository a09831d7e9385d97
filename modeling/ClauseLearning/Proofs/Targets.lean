import ClauseLearning.Proofs.Errands
import ClauseLearning.Proofs.Snapshots

/-!
# Where target phases come from

Target phases change only where levels are taken back, and then all at once.  A reset sets their count back to zero, so
that the next assignment may be noted however small it is.  It leaves the phases themselves, and until then decisions
follow those of an assignment before the reset.

* `Solver.SameTargets`, `Solver.Retargets` — target phases that stay, and those that stay or are noted.
* `Solver.targets_importPass`, `Solver.retargets_learn`, … — which procedures do which.
* `Solver.Move.retargets` — every call does one of them.
* `Solver.Resets` — restarts, resets of phases, and the beginning of a mode.
* `Solver.decisionPhase_recorded` — which phases decisions follow.
-/

namespace ClauseLearning

namespace Phases

variable (p : Phases) (v : Nat)

theorem targetOf_growTo (n : Nat) : (p.growTo n).targetOf v = p.targetOf v := by
  unfold growTo
  split
  · unfold targetOf
    exact congrArg Value.toBool? (getD_append_replicate ..)
  · rfl

end Phases

namespace Solver

variable {ε α : Type} {C : Settings} {hooks : Hooks ε} {limits : Limits} {stopped : Bool} {outside : ε}
variable {s s' s'' : Solver ε} {x : SolverM ε α}

/-- Each variable keeps its target phase, or has none still. -/
def SameTargets (s s' : Solver ε) : Prop := ∀ v, s'.phases.targetOf v = s.phases.targetOf v

instance : Std.Refl (SameTargets (ε := ε)) := ⟨fun _ _ => rfl⟩
instance : IsTrans (Solver ε) SameTargets := ⟨fun _ _ _ h h' v => (h' v).trans (h v)⟩

/-- Whether going back notes target phases. -/
def Records (s : Solver ε) : Prop := s.Targeting ∧ s.phases.targetAssigned < s.below

/-- Target phases stay, or the current values become the target phases. -/
def Retargets (s s' : Solver ε) : Prop :=
  SameTargets s s' ∨ s.Records ∧ ∀ v, s'.phases.targetOf v = (s.currentValues.getD v .unassigned).toBool?

/-- After they were noted they may stay. -/
theorem Retargets.same (h : Retargets s s') (h' : SameTargets s' s'') : Retargets s s'' := by
  rcases h with h | ⟨hr, h⟩
  · exact .inl (trans_of SameTargets h h')
  · exact .inr ⟨hr, fun v => (h' v).trans (h v)⟩

theorem targets_of_eq (h : s'.phases.target = s.phases.target) : SameTargets s s' := fun v => by
  rw [Phases.targetOf, h, Phases.targetOf]

theorem retargets_of_same {α : Type} {x : SolverM ε α} (h : Keeps SameTargets x) : Keeps Retargets x :=
  h.mono fun _ _ => .inl

theorem retargets_backtrack (s : Solver ε) (k : Nat) : Retargets s (s.backtrack k) := by
  by_cases hk : k < s.trail.level
  · obtain ⟨saved, he⟩ := backtrack_phases hk
    rw [updatePhases_phases] at he
    by_cases hr : s.Records
    · refine .inr ⟨hr, fun v => ?_⟩
      rw [he, Phases.targetOf]
      exact congrArg (fun a : Array Value => (a.getD v .unassigned).toBool?) (if_pos hr)
    · refine .inl (targets_of_eq ?_)
      rw [he]
      exact if_neg hr
  · rw [backtrack_of_le s (Nat.le_of_not_lt hk)]
    exact .inl (refl_of SameTargets s)

/-! ## Procedures that leave target phases alone -/

theorem keeps_targets (h : ∀ t : Solver ε, Blind (within t) x x) : Keeps SameTargets x :=
  (keeps_clausal h).mono fun s s' hc => targets_of_eq (by rw [hc]; rfl)

theorem targets_onStore (x : StoreM α) : Keeps SameTargets (onStore x : SolverM ε α) :=
  keeps_targets fun t => blind_onStore t x

theorem targets_isTerminated (s : Solver ε) : SameTargets s s.isTerminated.2 := by
  obtain ⟨outside, he⟩ := isTerminated_eq s
  rw [he]
  exact refl_of SameTargets s

theorem targets_assign (s : Solver ε) (l : Literal) (reason : Reason) : SameTargets s (s.assign l reason) := by
  obtain ⟨u, he⟩ := assign_eq s l reason
  rw [he]
  exact fun _ => rfl

theorem targets_collect (start : Nat) (mode : CollectMode) : Keeps SameTargets (collect start mode : SolverM ε Unit) :=
  keeps_targets fun t => blind_collect t start mode

theorem targets_propagateRoot : Keeps SameTargets (propagateRoot : SolverM ε Bool) := keeps_targets blind_propagateRoot

theorem targets_reduce : Keeps SameTargets (reduce : SolverM ε Unit) := by
  have hpin : ∀ pin, Keeps SameTargets (pinReasons pin : SolverM ε Unit) := fun pin =>
    keeps_targets fun t => blind_pinReasons t pin
  unfold reduce
  refine .bind (.modify fun _ _ => rfl) fun _ => .bind (hpin true) fun _ => .bind .get fun _ =>
    .bind (keeps_targets fun t => blind_candidates t _ _) fun _ => .bind (hpin false) fun _ => .bind .get fun _ =>
      .bind (keeps_targets fun t => blind_markAll t _ _) fun _ => .bind (targets_collect _ .sparse) fun _ =>
        .modify fun _ _ => rfl

theorem targets_simplify : Keeps SameTargets (simplify : SolverM ε Unit) := by
  unfold simplify
  refine .bind .get fun s => .when (.throw _) fun _ => .bind .get fun s => ?_
  split
  · exact .pure _
  refine .bind targets_propagateRoot fun b => ?_
  split
  · exact .bind (.modify fun _ _ => rfl) fun _ => .bind .get fun _ =>
      .bind (keeps_targets fun t => blind_simplifyAll t _) fun _ => .bind (targets_collect 0 .sparse) fun _ =>
        .modify fun _ _ => rfl
  · exact .pure _

/-! ## Analysis -/

theorem targets_reasonLiterals (l : Literal) : Keeps SameTargets (reasonLiterals l : SolverM ε (Array Literal)) := by
  have hused : ∀ r, Keeps SameTargets (noteUsed r : SolverM ε Unit) := by
    intro r
    refine .bind (targets_onStore _) fun _ => .bind .get fun s => ?_
    split
    · exact targets_onStore _
    · exact .pure _
  refine .bind .get fun s => ?_
  split
  · exact .pure _
  · exact .bind (hused _) fun _ => .bind .get fun _ => .pure _
  · exact .throw _
  · exact .throw _

theorem targets_note (level : Nat) (x : Nat × Solver ε) (l : Literal) : SameTargets x.2 (note level x l).2 := by
  unfold note
  dsimp only
  split
  · exact refl_of SameTargets _
  · split <;> exact fun _ => rfl

theorem targets_noteAll (level : Nat) (ls : Array Literal) : Keeps SameTargets (noteAll level ls : SolverM ε Nat) := by
  intro s
  have hall := List.foldl_related_snd (targets_note level) ls.toList (0, s)
  rwa [Array.foldl_toList] at hall

theorem targets_resolve (level n : Nat) (opened : Int) :
    Keeps SameTargets (resolve level n opened : SolverM ε Literal) := by
  induction n generalizing opened with
  | zero => exact .throw _
  | succ n ih =>
    unfold resolve
    refine .bind .get fun s => ?_
    dsimp only
    split
    · split
      · exact .pure _
      · exact .bind (targets_reasonLiterals _) fun _ => .bind (targets_noteAll level _) fun _ => ih _
    · exact ih _

theorem targets_redundant (levels : Array Bool) (depth : Nat) (top : Bool) (v : Nat) :
    Keeps SameTargets (redundant levels depth top v : SolverM ε Bool) := by
  have hreason : ∀ record, Keeps SameTargets (minimizeReason levels record : SolverM ε (Option (Array Literal))) := by
    intro record
    unfold minimizeReason
    split
    · exact .pure _
    · split
      · exact .pure _
      · exact .pure _
      · exact .pure _
      · exact .bind .get fun _ => .bind (keeps_ofExcept _) fun _ => .pure _
  induction depth generalizing top v with
  | zero =>
    unfold redundant
    refine .bind .get fun s => ?_
    dsimp only
    split
    · exact .pure _
    · split
      · exact .pure _
      · split <;> exact .pure _
  | succ depth ih =>
    unfold redundant
    refine .bind .get fun s => ?_
    dsimp only
    split
    · exact .pure _
    · split
      · exact .pure _
      · split
        · exact .pure _
        · refine .bind (hreason _) fun others => ?_
          have hnote : ∀ b, Keeps SameTargets (do
              modify fun s => s.noteRedundant v b
              return b : SolverM ε Bool) := fun b => .bind (.modify fun _ _ => rfl) fun _ => .pure _
          cases others with
          | none => exact hnote false
          | some others => exact .bind (.allM (fun l => ih _ _) _) hnote

theorem targets_minimize (level : Nat) : Keeps SameTargets (minimize level : SolverM ε Unit) :=
  .bind .get fun _ => .bind (.modify fun _ _ => rfl) fun _ => .bind .get fun _ =>
    .bind (.filterM (fun _ => .bind (targets_redundant _ _ _ _) fun _ => .pure _) _) fun _ => .modify fun _ _ => rfl

/-- What an analysis does on the level of the conflict. -/
theorem targets_analyzeAt (level : Nat) (ls : Array Literal) : Keeps SameTargets (do
    modify fun s => { s with learned := #[.invalid], analyzed := #[] }
    let opened ← noteAll level ls
    let last ← resolve level (← get).trail.size opened
    modify fun s => { s with learned := s.learned.setIfInBounds 0 (-last) }
    if (← get).settings.minimize.value then minimize level
    let s ← get
    let glue := s.glueOf level s.learned.toList
    let jump ← modifyGet placeSecond
    modify bumpAnalyzed
    modify fun s => s.averageGlue glue
    return .asserting jump glue : SolverM ε Analysis) := by
  refine .bind (.modify fun _ _ => rfl) fun _ => .bind (targets_noteAll _ _) fun _ => .bind .get fun _ =>
    .bind (targets_resolve _ _ _) fun _ => .bind (.modify fun _ _ => rfl) fun _ => .bind .get fun s =>
      .when (targets_minimize _) fun _ => .bind .get fun _ => .bind (.modifyGet ?_) fun _ =>
        .bind (.modify fun _ _ => rfl) fun _ => .bind (.modify ?_) fun _ => .pure _
  · intro s
    unfold placeSecond
    dsimp only
    split <;> exact fun _ => rfl
  · intro s
    unfold averageGlue
    dsimp only
    split <;> exact fun _ => rfl

/-- An analysis may go back to the level of the conflict first. -/
theorem retargets_analyze (key : Key) : Keeps Retargets (analyze key : SolverM ε Analysis) := by
  intro s
  have hrefl : Retargets s s := .inl (refl_of SameTargets s)
  unfold analyze
  rw [ends_bind, ends_get, ends_bind]
  refine (ends_ofExcept _).2 ⟨fun ls _ => ?_, fun _ _ => hrefl⟩
  rw [ends_bind, ends_get]
  dsimp only
  split
  · exact hrefl
  -- nothing after that goes back again
  rw [ends_bind, ends_modify]
  have hback := retargets_backtrack s (s.highestLevel ls)
  exact (targets_analyzeAt _ ls _).imp (fun _ _ => hback.same) fun _ _ => hback.same

/-! ## Learning -/

theorem targets_subsumeRecent (s : Solver ε) (clause : Array Literal) : SameTargets s (s.subsumeRecent clause) := by
  have hone : ∀ (s : Solver ε) r, SameTargets s (subsumeOne clause.size s r) := by
    intro s r
    unfold subsumeOne
    split
    · have h := targets_onStore (Store.markGarbage r) s
      unfold Ends at h
      dsimp only
      split <;> rename_i he <;> rw [he] at h <;> exact h
    · exact refl_of SameTargets s
  unfold subsumeRecent
  split
  · exact refl_of SameTargets s
  · have hfold := List.foldl_related hone (s.mark clause true).recent.toList (s.mark clause true)
    exact fun v => hfold v

theorem targets_exportClause (s : Solver ε) (clause : Array Literal) (glue : Nat) :
    SameTargets s (s.exportClause clause glue) := by
  unfold exportClause
  split
  · exact refl_of SameTargets s
  · dsimp only
    split <;> exact fun _ => rfl

theorem targets_storeRedundant (clause : Array Literal) (glue : Nat) :
    Keeps SameTargets (storeRedundant clause glue : SolverM ε Reference) :=
  .bind (targets_onStore _) fun _ => .bind .get fun _ => .bind (targets_onStore _) fun _ =>
    .bind (.modify fun _ _ => rfl) fun _ => .pure _

/-- Once levels were taken back, a clause is stored and its first literal is assigned. -/
theorem retargets_storeLearned (clause : Array Literal) (jump glue : Nat) :
    Keeps Retargets (storeLearned clause jump glue : SolverM ε Unit) := by
  have hassign : ∀ (t : Solver ε) a reason, SameTargets t ((t.assign a reason).subsumeRecent clause) :=
    fun t a reason => trans_of SameTargets (targets_assign t a reason) (targets_subsumeRecent _ _)
  intro s
  unfold storeLearned
  split
  · exact .inl (refl_of SameTargets s)
  · next a _ =>
    rw [ends_modify]
    exact (retargets_backtrack s 0).same (targets_assign _ a .unit)
  · next a b _ =>
    rw [ends_modify]
    refine (retargets_backtrack s (s.backtrackLevel jump)).same ?_
    generalize s.backtrack (s.backtrackLevel jump) = t
    have h := hassign { t with watches := t.watches.addBinary a b true false } a (.binary b)
    exact fun v => h v
  · next a _ _ _ _ =>
    have hback := retargets_backtrack s (s.backtrackLevel jump)
    rw [ends_bind, ends_modify]
    have hstore : Keeps SameTargets (do
        let r ← storeRedundant clause glue
        modify fun s =>
          let s := (s.assign a (.large r)).subsumeRecent clause
          let s := { s with recent := s.recent.push r }
          s.count fun c => { c with learnedLarge := c.learnedLarge + 1 } : SolverM ε Unit) :=
      .bind (targets_storeRedundant _ _) fun r => .modify fun t => hassign t a (.large r)
    exact (hstore _).imp (fun _ _ => hback.same) fun _ _ => hback.same

theorem retargets_learn (jump glue : Nat) : Keeps Retargets (learn jump glue : SolverM ε Unit) := by
  intro s
  unfold learn
  rw [ends_bind, ends_get, ends_bind, ends_modify, ends_bind]
  refine (retargets_storeLearned s.learned jump glue { s with learned := #[] }).imp (fun _ t h => ?_) fun _ _ h => h
  rw [ends_modify]
  have hexport : SameTargets t (if s.learned.isEmpty then t else t.exportClause s.learned glue) := by
    split
    · exact refl_of SameTargets t
    · exact targets_exportClause t s.learned glue
  exact Retargets.same h hexport

/-! ## Taking over and adding -/

theorem targets_importUnit (s : Solver ε) (e : Int) : SameTargets s (s.importUnit e) := by
  unfold importUnit
  split
  · exact fun _ => rfl
  · split
    · exact fun _ => rfl
    · exact fun _ => rfl
    · exact targets_assign s _ .unit

theorem targets_importClause (clause : List Int) (glue : Nat) :
    Keeps SameTargets (importClause clause glue : SolverM ε Unit) := by
  refine .bind .get fun s => ?_
  split
  · exact .modify fun _ _ => rfl
  · split
    · exact .modify fun _ _ => rfl
    · exact .modify fun _ _ => rfl
    · exact .modify fun s => targets_assign s _ .unit
    · exact .modify fun _ _ => rfl
    · exact .bind (targets_storeRedundant _ _) fun _ => .modify fun _ _ => rfl

theorem targets_drain {β : Type} (source : Source ε β) {take : β → SolverM ε Unit}
    (h : ∀ b, Keeps SameTargets (take b)) (e : ε) : Keeps SameTargets (drain source take e) := by
  intro s
  induction hn : source.size e using Nat.strongRecOn generalizing e s with
  | _ n ih =>
    unfold Ends
    rw [drain_eq]
    by_cases hi : s.inconsistent = true
    · rw [if_pos hi]
      exact fun _ => rfl
    · rw [if_neg hi]
      cases hnext : source.next e with
      | mk next e' =>
        cases next with
        | none => exact fun _ => rfl
        | some b =>
          have hb := h b s
          unfold Ends at hb
          simp only
          cases ht : take b s with
          | ok _ s₁ =>
            rw [ht] at hb
            exact (ih _ (hn ▸ source.size_lt hnext) e' s₁ rfl).imp (fun _ _ => trans_of SameTargets hb)
              fun _ _ => trans_of SameTargets hb
          | error _ s₁ =>
            rw [ht] at hb
            exact hb

theorem targets_importUnits : Keeps SameTargets (importUnits : SolverM ε Unit) := by
  unfold importUnits
  refine .bind .get fun s => .when (.throw _) fun _ => ?_
  split
  · exact .pure _
  · exact targets_drain _ (fun e => .modify fun s => targets_importUnit s e) _

theorem targets_importClauses : Keeps SameTargets (importClauses : SolverM ε Unit) := by
  unfold importClauses
  refine .bind .get fun s => .when (.throw _) fun _ => ?_
  split
  · exact .pure _
  · exact targets_drain _ (fun c : SharedClause => targets_importClause c.literals c.glue) _

theorem targets_importPass : Keeps SameTargets (importPass : SolverM ε Unit) := by
  refine .bind .get fun s => ?_
  split
  · exact .bind targets_importUnits fun _ => targets_importClauses
  · exact .pure _

theorem targets_extendBy (s : Solver ε) (redundant : Bool) (l : Literal) (c : List Literal) :
    SameTargets s (s.extendBy redundant l c) := by
  unfold extendBy
  split <;> exact fun _ => rfl

theorem targets_removeMarked (rs : List Reference) : Keeps SameTargets (removeMarked rs : SolverM ε Unit) := by
  induction rs with
  | nil => exact .pure _
  | cons r rs ih =>
    unfold removeMarked
    refine .bind .get fun s => .bind (keeps_ofExcept _) fun c => ?_
    dsimp only
    split
    · split
      · exact .bind (.modify fun s => targets_extendBy s _ _ _) fun _ => .bind (targets_onStore _) fun _ => ih
      · exact ih
    · exact ih

theorem targets_removeMarkedBinary (s : Solver ε) (c : BinaryClause) : SameTargets s (removeMarkedBinary s c) := by
  unfold removeMarkedBinary
  exact fun v => targets_extendBy s _ _ _ v

theorem targets_eliminatePure : Keeps SameTargets (eliminatePure : SolverM ε Nat) := by
  have hrest : ∀ ls : List Literal, Keeps SameTargets (do
      modify fun s => s.mark ls.toArray true
      removeMarked (← get).store.references
      modify fun s =>
        let found := s.watches.binaries.filter fun c => s.isMarked c.a || s.isMarked c.b
        let s := found.foldl removeMarkedBinary s
        ls.foldl eliminate (s.mark ls.toArray false)
      collect 0 .dense
      return ls.length : SolverM ε Nat) := by
    intro ls
    have hmark : ∀ (s : Solver ε) ls b, SameTargets s (s.mark ls b) := fun _ _ _ _ => rfl
    have heliminate : ∀ (s : Solver ε) l, SameTargets s (s.eliminate l) := fun _ _ _ => rfl
    exact .bind (.modify fun s => hmark s _ true) fun _ => .bind .get fun _ =>
      .bind (targets_removeMarked _) fun _ =>
      .bind (.modify fun s => trans_of SameTargets (List.foldl_related targets_removeMarkedBinary _ s)
        (trans_of SameTargets (hmark _ _ false) (List.foldl_related heliminate _ _))) fun _ =>
          .bind (targets_collect 0 .dense) fun _ => .pure _
  unfold eliminatePure
  refine .bind .get fun s => ?_
  dsimp only
  split
  · exact .pure _
  · exact hrest _

theorem targets_eliminateRounds (n : Nat) : Keeps SameTargets (eliminateRounds n : SolverM ε Unit) := by
  induction n with
  | zero => exact .throw _
  | succ n ih =>
    unfold eliminateRounds
    refine .bind (.modifyGet targets_isTerminated) fun b => ?_
    split
    · exact .pure _
    · refine .bind (.recover targets_eliminatePure fun _ => .throw _) fun k => ?_
      split
      · exact .pure _
      · exact ih

theorem targets_preprocess : Keeps SameTargets (preprocess : SolverM ε Unit) := by
  refine .bind .get fun s => .when (.throw _) fun _ => .bind targets_propagateRoot fun b => ?_
  split
  · exact .bind .get fun _ => targets_eliminateRounds _
  · exact .pure _

theorem targets_ensureVariables (s : Solver ε) : SameTargets s s.ensureVariables := by
  unfold ensureVariables
  dsimp only
  split
  · exact refl_of SameTargets s
  · exact fun v => s.phases.targetOf_growTo v _

theorem targets_importLiterals (es : List Int) :
    Keeps SameTargets (importLiterals es : SolverM ε (List Literal)) := by
  induction es with
  | nil => exact .pure _
  | cons e es ih =>
    exact .bind .get fun _ => .bind (keeps_ofExcept _) fun _ => .bind (.modify fun _ _ => rfl) fun _ =>
      .bind ih fun _ => .pure _

theorem targets_addLiterals (ls : List Literal) : Keeps SameTargets (addLiterals ls : SolverM ε Unit) := by
  unfold addLiterals
  split
  · exact .modify fun _ _ => rfl
  · exact .bind (.modify fun s => targets_assign s _ _) fun _ => .bind targets_propagateRoot fun _ => .pure _
  · exact .modify fun _ _ => rfl
  · exact .bind (targets_onStore _) fun _ => .modify fun _ _ => rfl

theorem targets_addChecked (clause : List Int) : Keeps SameTargets (addChecked clause : SolverM ε Unit) := by
  refine .bind (targets_importLiterals _) fun ls => .bind (.modify targets_ensureVariables) fun _ => .bind .get fun s => ?_
  split
  · exact .pure _
  · split
    · exact .pure _
    · exact targets_addLiterals _

theorem targets_call (c : Call) : Keeps SameTargets (c.run : SolverM ε Unit) := by
  have hbegin : Keeps SameTargets (beginInput : SolverM ε Unit) := by
    refine .bind .get fun s => ?_
    split
    · exact .modify fun _ _ => rfl
    · exact .modify fun _ _ => rfl
    · exact .throw _
  cases c with
  | clause ls =>
    exact .bind hbegin fun _ => .bind .get fun _ => .when (.throw _) fun _ => .bind (keeps_ofExcept _) fun _ =>
      targets_addChecked _
  | literal e =>
    refine .bind hbegin fun _ => ?_
    split
    · exact .bind .get fun _ => .bind (.modify fun _ _ => rfl) fun _ => targets_addChecked _
    · exact .bind (keeps_ofExcept _) fun _ => .modify fun _ _ => rfl

/-! ## The schedule -/

theorem targets_conclude (report : Report) (s : Solver ε) : SameTargets s (conclude report s) := by
  unfold conclude
  split <;> exact fun _ => rfl

/-- A reset of the count of target phases. -/
inductive Resets (s : Solver ε) : Solver ε → Prop
  /-- A restart in stable mode. -/
  | restart : s.orders.stable = true → Resets s s.restart
  /-- A reset of saved phases. -/
  | rephase : Resets s s.rephase.2
  /-- The beginning of a mode. -/
  | enterMode (stable : Bool) : Resets s (s.enterMode stable)
  /-- A change of the mode. -/
  | switchMode : Resets s s.switchMode

theorem enterMode_phases (s : Solver ε) (stable : Bool) :
    (s.enterMode stable).phases = { s.phases with targetAssigned := 0 } := by
  unfold enterMode
  dsimp only
  split <;> rfl

theorem rephase_phases (s : Solver ε) :
    ∃ saved, s.rephase.2.phases = { s.phases with saved, bestAssigned := 0, targetAssigned := 0 } := by
  unfold rephase
  dsimp only
  cases Rephase.ofCount s.counters.rephases <;> exact ⟨_, rfl⟩

theorem targets_rephase (s : Solver ε) : SameTargets s s.rephase.2 := by
  obtain ⟨saved, he⟩ := s.rephase_phases
  exact targets_of_eq (by rw [he])

theorem targets_enterMode (s : Solver ε) (stable : Bool) : SameTargets s (s.enterMode stable) :=
  targets_of_eq (by rw [enterMode_phases])

theorem retargets_restart (s : Solver ε) : Retargets s s.restart := by
  have hback := retargets_backtrack (s.count fun c => { c with restarts := c.restarts + 1 }) 0
  unfold restart
  dsimp only
  split <;> exact hback

theorem retargets_switchMode (s : Solver ε) : Retargets s s.switchMode := by
  have hback := retargets_backtrack (s.count fun c => { c with modeSwitches := c.modeSwitches + 1 }) 0
  exact hback.same (targets_enterMode _ _)

/-- A reset is one of the count.  It notes target phases, or leaves those that were noted last. -/
theorem Resets.retargets (h : Resets s s') : s'.phases.targetAssigned = 0 ∧ Retargets s s' := by
  cases h with
  | restart hs =>
    refine ⟨?_, retargets_restart s⟩
    have hstable : (backtrack (s.count fun c => { c with restarts := c.restarts + 1 }) 0).orders.stable = true :=
      (backtrack_scheduled _ 0).1.stable.trans hs
    unfold Solver.restart
    dsimp only
    rw [if_pos hstable]
  | rephase =>
    obtain ⟨saved, he⟩ := s.rephase_phases
    exact ⟨by rw [he], .inl (targets_rephase s)⟩
  | enterMode stable => exact ⟨by rw [enterMode_phases], .inl (targets_enterMode s stable)⟩
  | switchMode =>
    refine ⟨?_, retargets_switchMode s⟩
    exact congrArg Phases.targetAssigned (enterMode_phases _ _)

theorem targets_decide (s : Solver ε) : SameTargets s s.decide.2 := by
  unfold decide
  dsimp only
  split
  · next he =>
    rw [← congrArg Prod.snd he]
    exact fun _ => rfl
  · next he =>
    obtain rfl := congrArg Prod.snd he
    exact fun _ => rfl

theorem targets_simplifyPass : Keeps SameTargets (simplifyPass : SolverM ε (Option Report)) :=
  .bind targets_simplify fun _ => .bind .get fun _ => .pure _

theorem targets_decidePass : Keeps SameTargets (decidePass : SolverM ε (Option Report)) :=
  .bind (.modifyGet targets_decide) fun l => by
    cases l with
    | none => exact .throw _
    | some _ => exact .pure _

/-- What is done next goes back to the root at most once. -/
theorem retargets_proceed : Keeps Retargets (proceed : SolverM ε (Option Report)) := by
  have hreduce : Keeps SameTargets (do reduce; return none : SolverM ε (Option Report)) :=
    .bind targets_reduce fun _ => .pure _
  have hpure : ∀ r : Option Report, Keeps SameTargets (pure r : SolverM ε (Option Report)) := fun r => .pure r
  intro s
  unfold proceed
  rw [ends_bind, ends_get]
  split
  · exact retargets_of_same (hpure _) s
  split
  · exact retargets_of_same hreduce s
  split
  · exact retargets_restart s
  split
  · exact .inl (targets_rephase s)
  split
  · exact retargets_switchMode s
  split
  · exact retargets_of_same targets_simplifyPass s
  split
  · exact retargets_of_same (hpure _) s
  · exact retargets_of_same targets_decidePass s

/-- Where a pass goes on, it goes back to the root at most once. -/
theorem retargets_advance : Keeps Retargets (advance : SolverM ε (Option Report)) := by
  have hpure : ∀ r : Option Report, Keeps SameTargets (pure r : SolverM ε (Option Report)) := fun r => .pure r
  intro s
  unfold advance
  rw [ends_bind, ends_get]
  split
  · exact retargets_of_same targets_simplifyPass s
  split
  · exact retargets_of_same (hpure _) s
  obtain ⟨outside, he⟩ := isTerminated_eq s
  rw [ends_bind, ends_modifyGet, he]
  split
  · exact retargets_of_same (hpure (some .unknown)) { s with outside }
  · exact retargets_proceed { s with outside }

theorem targets_beginSolve : Keeps SameTargets (beginSolve : SolverM ε Unit) := by
  unfold beginSolve
  refine .bind .get fun s => .when (.throw _) fun _ => ?_
  split
  · exact .modify fun _ _ => rfl
  · exact .modify fun _ _ => rfl
  · exact .throw _

theorem targets_prepare : Keeps SameTargets (prepare : SolverM ε (Option Report)) := by
  unfold prepare
  refine .bind .get fun s => ?_
  split
  · exact .pure _
  refine .bind (.modify fun _ _ => rfl) fun _ => .bind .get fun s =>
    .when (.modify fun s => targets_enterMode s true) fun _ => .bind .get fun s => ?_
  dsimp only
  split
  · refine .bind targets_preprocess fun _ => .bind .get fun s => ?_
    split <;> exact .pure _
  · exact .pure _

theorem targets_startSolve : Keeps SameTargets (startSolve : SolverM ε (Option Report)) := by
  refine .bind targets_beginSolve fun _ s => ?_
  rw [ends_ending]
  refine (targets_prepare s).imp (fun report s' h => ?_) fun _ s' h => h
  cases report with
  | none => exact h
  | some report => exact trans_of SameTargets h (targets_conclude report s')

/-! ## Runs -/

/-- A step of a run leaves the target phases, or notes the values before it. -/
theorem Step.retargets {prompt : Bool} {x y : Place × Solver ε} (h : Step prompt x y) : Retargets x.2 y.2 := by
  have hbegin : ∀ s : Solver ε, SameTargets s s.beginPass := fun _ _ => rfl
  have hfail : ∀ s : Solver ε, SameTargets s s.fail := fun _ _ => rfl
  have hpropagate : Keeps SameTargets (propagatePass : SolverM ε (Option Key)) := keeps_targets blind_propagatePass
  -- that a conflict is counted does not matter to what is noted
  have hanalyze : ∀ (s : Solver ε) key,
      Ends (Solver.analyze key) s.noteConflict (fun _ s' => Retargets s s') fun _ s' => Retargets s s' := fun s key =>
    retargets_analyze key s.noteConflict
  cases h with
  | start he => exact .inl (targets_startSolve.of_ok he)
  | answer he => exact .inl (targets_startSolve.of_ok he)
  | refuse he => exact .inl ((targets_startSolve _).of_error he)
  | take he => exact .inl (trans_of SameTargets (hbegin _) (targets_importPass.of_ok he))
  | refute he =>
    exact .inl (trans_of SameTargets (hbegin _) (trans_of SameTargets (targets_importPass.of_ok he)
      (targets_conclude _ _)))
  | untaken he =>
    exact .inl (trans_of SameTargets (hbegin _) (trans_of SameTargets ((targets_importPass _).of_error he) (hfail _)))
  | propagate he => exact .inl (hpropagate.of_ok he)
  | conflict he => exact .inl (hpropagate.of_ok he)
  | unpropagated he => exact .inl (trans_of SameTargets ((hpropagate _).of_error he) (hfail _))
  | analyze he => exact (hanalyze _ _).of_ok he
  | fundamental he => exact ((hanalyze _ _).of_ok he).same (targets_conclude _ _)
  | unanalyzed he => exact ((hanalyze _ _).of_error he).same (hfail _)
  | learn _ he => exact (retargets_learn _ _).of_ok he
  | unlearnt _ he => exact ((retargets_learn _ _ _).of_error he).same (hfail _)
  | advance he => exact retargets_advance.of_ok he
  | finish he => exact (retargets_advance.of_ok he).same (targets_conclude _ _)
  | unfinished he => exact ((retargets_advance _).of_error he).same (hfail _)

variable {x y : Moment × Solver ε} {moment : Moment}

/-- So does every call. -/
theorem Move.retargets (h : Move x y) : Retargets x.2 y.2 := by
  have hpropagate : Keeps SameTargets (Solver.propagate : SolverM ε Unit) := keeps_targets blind_propagate
  have hliteral : ∀ l (s : Solver ε) trail, Ends (propagateLiteral l) { s with trail }
      (fun _ s' => SameTargets s s') fun _ s' => SameTargets s s' := fun l s trail =>
    keeps_targets (fun t => blind_propagateLiteral t l) { s with trail }
  cases h with
  | step h _ => exact h.retargets
  | add he => exact .inl ((targets_call _).of_ok he)
  | refuse he => exact .inl ((targets_call _ _).of_error he)
  | settle _ => exact .inl (refl_of SameTargets _)
  | outside e => exact .inl fun _ => rfl
  | importUnit e _ => exact .inl (targets_importUnit _ e)
  | importClause _ he => exact .inl ((targets_importClause _ _).of_ok he)
  | importUnits _ he => exact .inl (targets_importUnits.of_ok he)
  | importClauses _ he => exact .inl (targets_importClauses.of_ok he)
  | preprocess _ he => exact .inl (targets_preprocess.of_ok he)
  | next _ he => exact .inl ((hliteral _ _ _).of_ok he)
  | clash _ he => exact .inl ((hliteral _ _ _).of_error he)
  | propagate he => exact .inl (hpropagate.of_ok he)
  | conflict he => exact .inl ((hpropagate _).of_error he)
  | backtrack k | unwind k => exact retargets_backtrack _ k
  | flee _ | forgo _ => exact retargets_backtrack _ _
  | resume _ => exact .inl (refl_of SameTargets _)
  | decide _ _ _ => exact .inl (targets_decide _)
  | refute => exact .inl fun _ => rfl
  | grow status pending _ => exact .inl (targets_ensureVariables _)
  | restart => exact retargets_restart _
  | rephase => exact .inl (targets_rephase _)
  | switchMode => exact retargets_switchMode _
  | enterMode stable => exact .inl (targets_enterMode _ stable)
  | mark _ _ => exact .inl fun _ => rfl
  | reduce he => exact .inl (targets_reduce.of_ok he)
  | simplify _ _ he => exact .inl (targets_simplify.of_ok he)
  | eliminatePure _ he => exact .inl (targets_eliminatePure.of_ok he)
  | collect _ he => exact .inl ((targets_collect _ _).of_ok he)

/-- The target phases of a state were noted by a call, as the values of the state before it, and have stayed since. -/
structure TargetsFrom (C : Settings) (hooks : Hooks ε) (limits : Limits) (stopped : Bool) (outside : ε)
    (x y : Moment × Solver ε) : Prop where
  /-- Before the call. -/
  reached : Reached C hooks limits stopped outside y
  /-- It noted them. -/
  records : y.2.Records
  /-- They have stayed since. -/
  stays : ∃ z, Move y z ∧ (∀ v, z.2.phases.targetOf v = (y.2.assignment.valueOf v).toBool?) ∧
    Relation.ReflTransGen (fun a b => Move a b ∧ SameTargets a.2 b.2) z x
  /-- They are these values. -/
  values : ∀ v, x.2.phases.targetOf v = (y.2.assignment.valueOf v).toBool?

/-- In every reachable state no target phases were noted yet, or they are the values of the assignment from which they
were noted last. -/
theorem Reached.recorded (h : Reached C hooks limits stopped outside x) :
    (∀ v, x.2.phases.targetOf v = none) ∨ ∃ y, TargetsFrom C hooks limits stopped outside x y := by
  induction h with
  | refl => exact .inl fun v => rfl
  | @tail y z hy hm ih =>
    rcases hm.retargets with hsame | ⟨hr, hz⟩
    · rcases ih with ih | ⟨a, ha⟩
      · exact .inl fun v => (hsame v).trans (ih v)
      · obtain ⟨b, hab, hb, hby⟩ := ha.stays
        exact .inr ⟨a, ha.reached, ha.records, ⟨b, hab, hb, hby.tail ⟨hm, hsame⟩⟩, fun v =>
          (hsame v).trans (ha.values v)⟩
    · obtain ⟨p, hp⟩ := (Reached.stands hy).intact
      have hz' : ∀ v, z.2.phases.targetOf v = (y.2.assignment.valueOf v).toBool? := by
        intro v
        rw [hz, hp.toFrame.currentValues_getD (Reached.saved hy)]
      exact .inr ⟨y, hy, hr, ⟨z, hm, hz', .refl⟩, hz'⟩

/-- The saved phase of a variable, or else the initial one. -/
def savedPhase (s : Solver ε) (v : Nat) : Bool := (s.phases.savedOf v).getD s.settings.phase.initial.value

/-- With target phases, a decision follows the target phase before the saved one. -/
theorem decisionPhase_targeting (ht : s.Targeting) (v : Nat) :
    s.decisionPhase v = (s.phases.targetOf v).getD (s.savedPhase v) := by
  unfold decisionPhase
  simp only [ht.1, ht.2, Bool.and_self, if_true]
  rfl

/-- **Resets do not forget target phases.**  With target phases in stable mode, a decision follows the saved phases as
long as no target phases were noted at all.  After that it follows, for each variable that had a value then, the value
it had when target phases were noted last.  A reset puts their count back to zero, and leaves what was noted last, which
may be what it notes itself. -/
theorem decisionPhase_recorded (h : Reached C hooks limits stopped outside (moment, s)) :
    (s.Targeting → (∀ v, s.decisionPhase v = s.savedPhase v) ∨
      ∃ y, TargetsFrom C hooks limits stopped outside (moment, s) y ∧
      ∀ v, s.decisionPhase v = ((y.2.assignment.valueOf v).toBool?).getD (s.savedPhase v)) ∧
    ∀ s', Resets s s' → s'.phases.targetAssigned = 0 ∧
      (SameTargets s s' ∨ s.Records ∧ ∀ v, s'.phases.targetOf v = (s.assignment.valueOf v).toBool?) := by
  refine ⟨?_, ?_⟩
  · intro ht
    rcases h.recorded with hnone | ⟨y, hy⟩
    · refine .inl fun v => ?_
      rw [decisionPhase_targeting ht, hnone v]
      rfl
    · refine .inr ⟨y, hy, fun v => ?_⟩
      rw [decisionPhase_targeting ht, hy.values v]
  · intro s' hs'
    obtain ⟨hzero, hsame | ⟨hr, hv⟩⟩ := hs'.retargets
    · exact ⟨hzero, .inl hsame⟩
    · obtain ⟨p, hp⟩ := h.stands.intact
      refine ⟨hzero, .inr ⟨hr, fun v => ?_⟩⟩
      rw [hv, hp.toFrame.currentValues_getD h.saved]

/-- Settings with which the mode is stable and every conflict leads to a restart. -/
def restless : Settings :=
  { mode := { value := .stable, least := .focused, greatest := .switching }
    restart := { reluctantPeriod := .number 1 1 greatestLong } }

/-- Clauses with a conflict after three decisions, from which a binary clause is learnt. -/
def restlessCalls : List Call :=
  [.clause [-1, -5, 4], .clause [-1, -5, -4], .clause [5, 2], .clause [5, 3], .clause [-2, -3, -6]]

/-- Before the restart after their conflict. -/
theorem decisionPhase_recorded_restless : ∃ s : Solver Unit, Reached restless {} {} false () (.quiet, s) ∧
    s.Targeting ∧
    (s.Targeting → (∀ v, s.decisionPhase v = s.savedPhase v) ∨
      ∃ y, TargetsFrom restless {} {} false () (.quiet, s) y ∧
      ∀ v, s.decisionPhase v = ((y.2.assignment.valueOf v).toBool?).getD (s.savedPhase v)) ∧
    ∀ s', Resets s s' → s'.phases.targetAssigned = 0 ∧
      (SameTargets s s' ∨ s.Records ∧ ∀ v, s'.phases.targetOf v = (s.assignment.valueOf v).toBool?) := by
  obtain ⟨s₀, place, s, hload, hrun, htest⟩ := exists_trial (fresh restless {} {} false ()) restlessCalls 4
    (fun place s => place == .propagated && Decidable.decide s.Targeting) (by decide +kernel)
  obtain ⟨hplace, ht⟩ := Bool.and_eq_true_iff.1 htest
  obtain rfl := eq_of_beq hplace
  have h := Run.reached hload hrun
  exact ⟨s, h, of_decide_eq_true ht, decisionPhase_recorded h⟩

/-- A pass may end with a restart after which a decision follows a value from before it. -/
theorem decisionPhase_outlives_restart : ∃ (s s' : Solver Unit) (v : Nat),
    Reached restless {} {} false () (.quiet, s) ∧ advance s = .ok none s' ∧
      s'.counters.restarts = s.counters.restarts + 1 ∧ s'.Targeting ∧ s'.phases.targetAssigned = 0 ∧
      s'.decisionPhase v ≠ s'.savedPhase v := by
  obtain ⟨s₀, place, s, hload, hrun, htest⟩ := exists_trial (fresh restless {} {} false ()) restlessCalls 4
    (fun place s => place == .propagated && (unreported? advance s).any fun s' : Solver Unit => Decidable.decide
      (s'.counters.restarts = s.counters.restarts + 1 ∧ s'.Targeting ∧ s'.phases.targetAssigned = 0 ∧
        s'.decisionPhase 5 ≠ s'.savedPhase 5)) (by decide +kernel)
  obtain ⟨hplace, htest⟩ := Bool.and_eq_true_iff.1 htest
  obtain rfl := eq_of_beq hplace
  obtain ⟨s', hs', htest⟩ := (Option.any_eq_true ..).1 htest
  obtain ⟨hrestarts, ht, hzero, hphase⟩ := of_decide_eq_true htest
  exact ⟨s, s', 5, Run.reached hload hrun, unreported?_eq_some.1 hs', hrestarts, ht, hzero, hphase⟩

end Solver

end ClauseLearning
