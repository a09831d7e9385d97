import ClauseLearning.Proofs.Keeping
import ClauseLearning.Proofs.Run

/-!
# What lasts through a run

Whatever a solver does, each epoch of the store that begins is counted as a collection, and each variable keeps a
saved phase.

* `Solver.lasting_learn`, `Solver.timed_importPass`, … — so it is for each procedure.
* `Solver.Call.lasting`, `Solver.Step.lasting` — for each call, and for each step of a run.
* `Store.iterate_nextEpoch_ne` — no epoch comes back before there were 2³² of them.
-/

namespace ClauseLearning

theorem Random.length_bools (n : Nat) (r : Random) : (r.bools n).1.length = n := by
  induction n generalizing r with
  | zero => rfl
  | succ n ih => exact congrArg (· + 1) (ih _)

/-- Epochs are counted in words of 32 bits. -/
theorem Store.iterate_nextEpoch_ne {n : Nat} (e : Nat) (h0 : n ≠ 0) (hn : n ≤ greatestWord) :
    nextEpoch^[n] e ≠ e := by
  have hnext : ∀ k, nextEpoch^[k + 1] e = lowWord (e + (k + 1)) := fun k => by
    induction k with
    | zero => rfl
    | succ k ih =>
      rw [Function.iterate_succ_apply', ih]
      simp only [nextEpoch, lowWord, greatestWord]
      omega
  obtain ⟨k, rfl⟩ := Nat.exists_eq_succ_of_ne_zero h0
  rw [hnext k]
  simp only [lowWord, greatestWord] at *
  omega

namespace Solver

variable {ε α : Type} {s s' : Solver ε} {x : SolverM ε α}

instance : Std.Refl (Lasting (ε := ε)) := ⟨Lasting.refl⟩
instance : IsTrans (Solver ε) Lasting := ⟨fun _ _ _ => Lasting.trans⟩

theorem keeps_lasting (h : Keeps Timed x) : Keeps Lasting x := h.mono fun _ _ => Timed.lasting

theorem lasting_forward (h : Keeps Forward x) : Keeps Lasting x := keeps_lasting (keeps_timed h)

theorem timed_still (h : Keeps Still x) : Keeps Timed x := keeps_timed (keeps_forward h)

theorem lasting_still (h : Keeps Still x) : Keeps Lasting x := lasting_forward (keeps_forward h)

theorem lasting_backtrack (s : Solver ε) (k : Nat) : Lasting s (s.backtrack k) := (timed_backtrack s k).lasting

theorem lasting_count (s : Solver ε) {f : Counters → Counters}
    (h : (f s.counters).collections = s.counters.collections) : Lasting s (s.count f) :=
  .of_eq rfl (Nat.le_of_eq h.symm) rfl rfl

theorem lasting_isTerminated (s : Solver ε) : Lasting s s.isTerminated.2 := (still_isTerminated s).lasting

/-! ## Learning and taking over -/

theorem lasting_learn (jump glue : Nat) : Keeps Lasting (learn jump glue : SolverM ε Unit) :=
  keeps_lasting (timed_learn jump glue)

theorem timed_assignImported (s : Solver ε) (l : Literal) : Timed s (s.assignImported l) := by
  have h := (forward_assign s l .unit).toTimed
  unfold assignImported
  generalize s.assign l .unit = t at h ⊢
  exact h.trans (timed_count t rfl rfl rfl)

theorem timed_importUnit (s : Solver ε) (e : Int) : Timed s (s.importUnit e) := by
  unfold importUnit
  split
  · exact timed_count s rfl rfl rfl
  · split
    · exact timed_count s rfl rfl rfl
    · exact ⟨rfl, rfl, rfl, .refl _, .refl _⟩
    · exact timed_assignImported s _

theorem timed_importClause (clause : List Int) (glue : Nat) :
    Keeps Timed (importClause clause glue : SolverM ε Unit) := by
  refine .bind .get fun s => ?_
  split
  · exact .modify fun s => timed_count s rfl rfl rfl
  · split
    · exact .modify fun s => timed_count s rfl rfl rfl
    · exact .modify fun _ => ⟨rfl, rfl, rfl, .refl _, .refl _⟩
    · exact .modify fun s => timed_assignImported s _
    · exact .modify fun s => (still_watches s _).toTimed.trans (timed_count _ rfl rfl rfl)
    · exact .bind (timed_still (still_storeRedundant _ _)) fun _ => .modify fun _ =>
        ⟨rfl, rfl, rfl, .refl _, .refl _⟩

theorem timed_drain {β : Type} (source : Source ε β) {take : β → SolverM ε Unit} (h : ∀ b, Keeps Timed (take b))
    (e : ε) : Keeps Timed (drain source take e) := by
  have houtside : ∀ (s : Solver ε) e, Timed s { s with outside := e } := fun s e =>
    ⟨rfl, rfl, rfl, .refl _, .refl _⟩
  intro s
  induction hn : source.size e using Nat.strongRecOn generalizing e s with
  | _ n ih =>
    unfold Ends
    rw [drain_eq]
    by_cases hi : s.inconsistent = true
    · rw [if_pos hi]
      exact houtside s e
    · rw [if_neg hi]
      cases hnext : source.next e with
      | mk next e' =>
        cases next with
        | none => exact houtside s e'
        | some b =>
          have hb := h b s
          unfold Ends at hb
          simp only
          cases ht : take b s with
          | ok _ s₁ =>
            rw [ht] at hb
            exact (ih _ (hn ▸ source.size_lt hnext) e' s₁ rfl).imp (fun _ _ => hb.trans) fun _ _ => hb.trans
          | error _ s₁ =>
            rw [ht] at hb
            exact hb.trans (houtside s₁ e')

theorem timed_importUnits : Keeps Timed (importUnits : SolverM ε Unit) := by
  unfold importUnits
  refine .bind .get fun s => .when (.throw _) fun _ => ?_
  split
  · exact .pure _
  · exact timed_drain _ (fun e => .modify fun s => timed_importUnit s e) _

theorem timed_importClauses : Keeps Timed (importClauses : SolverM ε Unit) := by
  unfold importClauses
  refine .bind .get fun s => .when (.throw _) fun _ => ?_
  split
  · exact .pure _
  · exact timed_drain _ (fun c : SharedClause => timed_importClause c.literals c.glue) _

theorem timed_importPass : Keeps Timed (importPass : SolverM ε Unit) := by
  refine .bind .get fun s => ?_
  split
  · exact .bind timed_importUnits fun _ => timed_importClauses
  · exact .pure _

/-! ## The schedule -/

theorem lasting_enterMode (s : Solver ε) (stable : Bool) : Lasting s (s.enterMode stable) := by
  unfold enterMode
  dsimp only
  split <;> exact .refl _

theorem lasting_switchMode (s : Solver ε) : Lasting s s.switchMode := by
  unfold switchMode
  dsimp only
  exact ((lasting_count s rfl).trans (lasting_backtrack _ 0)).trans ((lasting_enterMode _ _).trans (.refl _))

theorem lasting_restart (s : Solver ε) : Lasting s s.restart := by
  unfold restart
  dsimp only
  have h := (lasting_count s (f := fun c => { c with restarts := c.restarts + 1 }) rfl).trans (lasting_backtrack _ 0)
  split <;> exact h.trans (.refl _)

theorem lasting_rephase (s : Solver ε) : Lasting s s.rephase.2 := by
  have hreset : ∀ (s : Solver ε) kind, Lasting s (s.resetPhases kind) := fun s kind => by
    cases kind with
    | best => exact .of_eq rfl (Nat.le_refl _) Array.size_mapIdx rfl
    | initial => exact .of_eq rfl (Nat.le_refl _) Array.size_replicate rfl
    | inverted => exact .of_eq rfl (Nat.le_refl _) Array.size_replicate rfl
    | random =>
      refine .of_eq rfl (Nat.le_refl _) ?_ rfl
      simp only [resetPhases, List.size_toArray, List.length_map, Random.length_bools]
  unfold rephase
  exact ((lasting_count s rfl).trans (hreset _ _)).trans (.of_eq rfl (Nat.le_refl _) rfl rfl)

theorem lasting_decide (s : Solver ε) : Lasting s s.decide.2 := by
  unfold decide
  dsimp only
  split
  · next he =>
    rw [← congrArg Prod.snd he]
    exact .refl _
  · next he =>
    obtain rfl := congrArg Prod.snd he
    exact .of_eq rfl (Nat.le_refl _) rfl (size_set ..)

/-! ## The search -/

theorem lasting_reduce : Keeps Lasting (reduce : SolverM ε Unit) := by
  refine .bind (.modify fun s => lasting_count s rfl) fun _ => ?_
  refine .bind (lasting_still (still_pinReasons true)) fun _ => .bind .get fun _ =>
    .bind (lasting_still (still_candidates _ _)) fun _ => .bind (lasting_still (still_pinReasons false)) fun _ =>
      .bind .get fun _ => .bind (lasting_still (still_markAll _ _)) fun _ =>
        .bind (lasting_still (still_collect _ .sparse)) fun _ => .modify fun _ => .refl _

theorem timed_simplify : Keeps Timed (simplify : SolverM ε Unit) := by
  unfold simplify
  refine .bind .get fun s => .when (.throw _) fun _ => .bind .get fun s => ?_
  split
  · exact .pure _
  refine .bind (keeps_timed forward_propagateRoot) fun b => ?_
  split
  · exact .bind (.modify fun s => ⟨rfl, rfl, rfl, .refl _, .refl _⟩) fun _ => .bind .get fun _ =>
      .bind (timed_still (still_simplifyAll _)) fun _ => .bind (timed_still (still_collect 0 .sparse)) fun _ =>
        .modify fun _ => ⟨rfl, rfl, rfl, .refl _, .refl _⟩
  · exact .pure _

theorem timed_simplifyPass : Keeps Timed (simplifyPass : SolverM ε (Option Report)) :=
  .bind timed_simplify fun _ => .bind .get fun _ => .pure _

theorem lasting_advance : Keeps Lasting (advance : SolverM ε (Option Report)) := by
  have hsimplify : Keeps Lasting (simplifyPass : SolverM ε (Option Report)) := keeps_lasting timed_simplifyPass
  have hdecide : Keeps Lasting (decidePass : SolverM ε (Option Report)) :=
    .bind (.modifyGet lasting_decide) fun l => by
      cases l with
      | none => exact .throw _
      | some _ => exact .pure _
  have hproceed : Keeps Lasting (proceed : SolverM ε (Option Report)) := by
    refine .bind .get fun s => ?_
    split
    · exact .pure _
    split
    · exact .bind lasting_reduce fun _ => .pure _
    split
    · exact .bind (.modify lasting_restart) fun _ => .pure _
    split
    · exact .bind (.modify lasting_rephase) fun _ => .pure _
    split
    · exact .bind (.modify lasting_switchMode) fun _ => .pure _
    split
    · exact hsimplify
    split
    · exact .pure _
    · exact hdecide
  refine .bind .get fun s => ?_
  split
  · exact hsimplify
  split
  · exact .pure _
  refine .bind (.modifyGet lasting_isTerminated) fun b => ?_
  split
  · exact .pure _
  · exact hproceed

theorem lasting_prepare : Keeps Lasting (prepare : SolverM ε (Option Report)) := by
  unfold prepare
  refine .bind .get fun s => ?_
  split
  · exact .pure _
  refine .bind (.modify fun s => .refl _) fun _ => .bind .get fun s =>
    .when (.modify fun s => lasting_enterMode s true) fun _ => .bind .get fun s => ?_
  dsimp only
  split
  · refine .bind (lasting_forward forward_preprocess) fun _ => .bind .get fun s => ?_
    split <;> exact .pure _
  · exact .pure _

theorem timed_conclude (report : Report) (s : Solver ε) : Timed s (conclude report s) := by
  unfold conclude
  split <;> exact ⟨rfl, rfl, rfl, .refl _, .refl _⟩

theorem timed_fail (s : Solver ε) : Timed s s.fail := ⟨rfl, rfl, rfl, .refl _, .refl _⟩

theorem timed_refute (s : Solver ε) : Timed s s.refute := ⟨rfl, rfl, rfl, .refl _, .refl _⟩

theorem lasting_conclude (report : Report) (s : Solver ε) : Lasting s (conclude report s) :=
  (timed_conclude report s).lasting

theorem lasting_fail (s : Solver ε) : Lasting s s.fail := (timed_fail s).lasting

theorem lasting_ending {x : SolverM ε (Option Report)} (h : Keeps Lasting x) : Keeps Lasting (ending x) := fun s => by
  rw [ends_ending]
  refine (h s).imp (fun report s' h => ?_) fun _ s' h => h.trans (lasting_fail s')
  cases report with
  | none => exact h
  | some report => exact h.trans (lasting_conclude _ _)

theorem lasting_startSolve : Keeps Lasting (startSolve : SolverM ε (Option Report)) := by
  have hbegin : Keeps Lasting (beginSolve : SolverM ε Unit) := by
    unfold beginSolve
    refine .bind .get fun s => .when (.throw _) fun _ => ?_
    split
    · exact .modify fun _ => .refl _
    · exact .modify fun _ => .refl _
    · exact .throw _
  exact .bind hbegin fun _ => lasting_ending lasting_prepare

/-! ## Runs -/

theorem Call.timed (c : Call) : Keeps Timed (c.run : SolverM ε Unit) := by
  cases c with
  | clause ls => exact keeps_timed (forward_addClause ls)
  | literal e => exact keeps_timed (forward_addLiteral e)

/-- Adding clauses leaves the limits as they are. -/
theorem timed_calls (calls : List Call) : Keeps Timed (calls.forM Call.run : SolverM ε Unit) :=
  .forM Call.timed calls

theorem Call.lasting (c : Call) : Keeps Lasting (c.run : SolverM ε Unit) := keeps_lasting c.timed

/-- Something lasts through each step of a run. -/
theorem Step.lasting {prompt : Bool} {x y : Place × Solver ε} (h : Step prompt x y) : Lasting x.2 y.2 := by
  cases h with
  | start he => exact lasting_startSolve.of_ok he
  | answer he => exact lasting_startSolve.of_ok he
  | refuse he => exact (lasting_startSolve _).of_error he
  | take he => exact (lasting_count _ rfl).trans ((keeps_lasting timed_importPass).of_ok he)
  | refute he =>
    exact (lasting_count _ rfl).trans (((keeps_lasting timed_importPass).of_ok he).trans (lasting_conclude _ _))
  | untaken he =>
    exact (lasting_count _ rfl).trans (((keeps_lasting timed_importPass _).of_error he).trans (lasting_fail _))
  | propagate he => exact (lasting_forward forward_propagatePass).of_ok he
  | conflict he => exact (lasting_forward forward_propagatePass).of_ok he
  | unpropagated he => exact ((lasting_forward forward_propagatePass _).of_error he).trans (lasting_fail _)
  | analyze he => exact (lasting_count _ rfl).trans ((keeps_lasting (timed_analyze _)).of_ok he)
  | fundamental he =>
    exact (lasting_count _ rfl).trans (((keeps_lasting (timed_analyze _)).of_ok he).trans (lasting_conclude _ _))
  | unanalyzed he =>
    exact (lasting_count _ rfl).trans (((keeps_lasting (timed_analyze _) _).of_error he).trans (lasting_fail _))
  | learn _ he => exact (lasting_learn _ _).of_ok he
  | unlearnt _ he => exact ((lasting_learn _ _ _).of_error he).trans (lasting_fail _)
  | advance he => exact lasting_advance.of_ok he
  | finish he => exact (lasting_advance.of_ok he).trans (lasting_conclude _ _)
  | unfinished he => exact ((lasting_advance _).of_error he).trans (lasting_fail _)

end Solver

end ClauseLearning
