import ClauseLearning.Proofs.Clausework
import ClauseLearning.Proofs.Input

/-!
# What no procedure looks at

Apart from the few that deal with what is outside, no procedure looks at it, at the hooks, or at the counts of what was
learnt and what was offered.

* `Solver.facing` — a solver in front of what is outside of another one.
* `Solver.backtrack_facing`, `Solver.decide_facing`, … — changes are the same there.
* `Solver.unaware_of_within` — so is all work on clauses.
* `Solver.unaware_analyze`, `Solver.unaware_simplify`, … — and so are the procedures built from these.
* `Solver.storeLearned_facing` — of what storing a learnt clause does, only its count is not.
-/

namespace ClauseLearning

namespace Solver

variable {ε ε' α : Type}

/-- A solver in front of what is outside of another one, with the hooks of that one and its counts of what was learnt
and what was offered. -/
def facing (t : Solver ε') (s : Solver ε) : Solver ε' :=
  { s with
    counters := { s.counters with
      learnedUnits := t.counters.learnedUnits
      learnedBinaries := t.counters.learnedBinaries
      learnedLarge := t.counters.learnedLarge
      exported := t.counters.exported
      exportRejected := t.counters.exportRejected }
    hooks := t.hooks
    outside := t.outside }

variable (t : Solver ε')

@[simp] theorem settings_facing (s : Solver ε) : (facing t s).settings = s.settings := rfl

@[simp] theorem status_facing (s : Solver ε) : (facing t s).status = s.status := rfl

@[simp] theorem watches_facing (s : Solver ε) : (facing t s).watches = s.watches := rfl

@[simp] theorem assignment_facing (s : Solver ε) : (facing t s).assignment = s.assignment := rfl

@[simp] theorem trail_facing (s : Solver ε) : (facing t s).trail = s.trail := rfl

@[simp] theorem phases_facing (s : Solver ε) : (facing t s).phases = s.phases := rfl

@[simp] theorem orders_facing (s : Solver ε) : (facing t s).orders = s.orders := rfl

@[simp] theorem numbering_facing (s : Solver ε) : (facing t s).numbering = s.numbering := rfl

@[simp] theorem recent_facing (s : Solver ε) : (facing t s).recent = s.recent := rfl

@[simp] theorem learned_facing (s : Solver ε) : (facing t s).learned = s.learned := rfl

@[simp] theorem val_facing (l : Literal) (s : Solver ε) : (facing t s).val l = s.val l := rfl

@[simp] theorem isMarked_facing (s : Solver ε) : (facing t s).isMarked = s.isMarked := rfl

@[simp] theorem mark_facing (ls : Array Literal) (b : Bool) (s : Solver ε) :
    (facing t s).mark ls b = facing t (s.mark ls b) := rfl

/-! ## Work on clauses -/

/-- A procedure that looks at clauses, watches, the assignment and the trail only. -/
theorem unaware_of_within {x : SolverM ε α} {y : SolverM ε' α} (hx : ∀ t : Solver ε, Blind (within t) x x)
    (hy : ∀ t : Solver ε', Blind (within t) x y) : Blind (facing t) x y := by
  intro s
  have hclausal := keeps_clausal hx s
  have hfacing : facing t s = within (facing t s) s := rfl
  rw [hfacing, hy]
  unfold Ends at hclausal
  cases hend : x s with
  | ok a s' =>
    rw [hend] at hclausal
    have hs' : s' = within s s' := hclausal
    show EStateM.Result.ok a (within (facing t s) s') = EStateM.Result.ok a (facing t s')
    rw [hs']
    rfl
  | error e s' =>
    rw [hend] at hclausal
    have hs' : s' = within s s' := hclausal
    show EStateM.Result.error e (within (facing t s) s') = EStateM.Result.error e (facing t s')
    rw [hs']
    rfl

theorem unaware_onStore (x : StoreM α) : Blind (facing t) (onStore x : SolverM ε α) (onStore x) :=
  unaware_of_within t (fun t => blind_onStore t x) fun t => blind_onStore t x

theorem unaware_ofExcept (x : Except Fault α) : Blind (facing t) (ofExcept x : SolverM ε α) (ofExcept x) :=
  unaware_of_within t (fun t => blind_ofExcept t x) fun t => blind_ofExcept t x

theorem unaware_collect (start : Nat) (mode : CollectMode) :
    Blind (facing t) (collect start mode : SolverM ε Unit) (collect start mode) :=
  unaware_of_within t (fun t => blind_collect t start mode) fun t => blind_collect t start mode

theorem unaware_propagatePass : Blind (facing t) (propagatePass : SolverM ε (Option Key)) propagatePass :=
  unaware_of_within t blind_propagatePass blind_propagatePass

theorem unaware_propagateRoot : Blind (facing t) (propagateRoot : SolverM ε Bool) propagateRoot :=
  unaware_of_within t blind_propagateRoot blind_propagateRoot

theorem unaware_reduce : Blind (facing t) (reduce : SolverM ε Unit) reduce := by
  unfold reduce
  refine .bind (.modify fun _ => rfl) fun _ => .bind ?_ fun _ => .get fun s => .bind ?_ fun x => .bind ?_ fun _ =>
    .get fun _ => .bind ?_ fun _ => .bind (unaware_collect t _ .sparse) fun _ => .modify fun _ => rfl
  · exact unaware_of_within t (fun t => blind_pinReasons t true) fun t => blind_pinReasons t true
  · exact unaware_of_within t (fun t => blind_candidates t _ _) fun t => blind_candidates t _ _
  · exact unaware_of_within t (fun t => blind_pinReasons t false) fun t => blind_pinReasons t false
  · exact unaware_of_within t (fun t => blind_markAll t _ _) fun t => blind_markAll t _ _

theorem unaware_simplify : Blind (facing t) (simplify : SolverM ε Unit) simplify := by
  unfold simplify
  refine .get fun _ => .when (.throw _) fun _ => .get fun _ => .ite (fun _ => .pure _) fun _ =>
    .bind (unaware_propagateRoot t) fun _ => .ite (fun _ => ?_) fun _ => .pure _
  refine .bind (.modify fun _ => rfl) fun _ => .get fun _ => .bind ?_ fun _ => .bind (unaware_collect t 0 .sparse)
    fun _ => .modify fun _ => rfl
  exact unaware_of_within t (fun t => blind_simplifyAll t _) fun t => blind_simplifyAll t _

/-! ## Assigning and unassigning -/

theorem assign_facing (l : Literal) (reason : Reason) (s : Solver ε) :
    (facing t s).assign l reason = facing t (s.assign l reason) := by
  show (if s.trail.level = 0 then _ else _) = facing t (if s.trail.level = 0 then _ else _)
  split <;> rfl

theorem onOrders_facing (f : Orders → α × Orders) (s : Solver ε) :
    (facing t s).onOrders f = ((s.onOrders f).1, facing t (s.onOrders f).2) := rfl

theorem decide_facing (s : Solver ε) : (facing t s).decide = (s.decide.1, facing t s.decide.2) := by
  unfold decide
  dsimp only
  rw [assignment_facing, onOrders_facing]
  cases s.onOrders fun o => o.next? s.assignment with
  | mk v s => cases v <;> rfl

theorem updatePhases_facing (s : Solver ε) : (facing t s).updatePhases = facing t s.updatePhases := by
  -- as hypotheses, so that the instances in the conditions are rewritten too
  have hphases := phases_facing t s
  have horders := orders_facing t s
  have htrail := trail_facing t s
  have hsettings := settings_facing t s
  simp only [updatePhases, hphases, horders, htrail, hsettings]
  split <;> split <;> rfl

theorem unassignAll_facing (ls : List Literal) (s : Solver ε) :
    ls.foldl unassign (facing t s) = facing t (ls.foldl unassign s) :=
  blind_foldl (fun _ _ => rfl) ls s

theorem backtrack_facing (level : Nat) (s : Solver ε) :
    (facing t s).backtrack level = facing t (s.backtrack level) := by
  unfold backtrack
  rw [trail_facing]
  split
  · rfl
  · dsimp only
    rw [updatePhases_facing, trail_facing, unassignAll_facing]
    generalize (s.updatePhases.trail.above level).foldl unassign s.updatePhases = s
    rfl

/-! ## Schedules -/

theorem enterMode_facing (stable : Bool) (s : Solver ε) :
    (facing t s).enterMode stable = facing t (s.enterMode stable) := by
  cases stable <;> rfl

theorem switchMode_facing (s : Solver ε) : (facing t s).switchMode = facing t s.switchMode := by
  have hcount : (facing t s).count (fun c => { c with modeSwitches := c.modeSwitches + 1 }) =
      facing t (s.count fun c => { c with modeSwitches := c.modeSwitches + 1 }) := rfl
  unfold switchMode
  dsimp only
  rw [hcount, backtrack_facing, enterMode_facing]
  rfl

theorem restart_facing (s : Solver ε) : (facing t s).restart = facing t s.restart := by
  have hcount : (facing t s).count (fun c => { c with restarts := c.restarts + 1 }) =
      facing t (s.count fun c => { c with restarts := c.restarts + 1 }) := rfl
  unfold restart
  dsimp only
  rw [hcount, backtrack_facing]
  generalize backtrack _ 0 = s
  show (if s.orders.stable then _ else _) = facing t (if s.orders.stable then _ else _)
  split <;> rfl

theorem resetPhases_facing (kind : Rephase) (s : Solver ε) :
    (facing t s).resetPhases kind = facing t (s.resetPhases kind) := by
  cases kind <;> rfl

theorem rephase_facing (s : Solver ε) : (facing t s).rephase.2 = facing t s.rephase.2 := by
  have hcount : (facing t s).count (fun c => { c with rephases := c.rephases + 1 }) =
      facing t (s.count fun c => { c with rephases := c.rephases + 1 }) := rfl
  unfold rephase
  dsimp only
  rw [hcount, resetPhases_facing]
  rfl

/-! ## Analysis -/

theorem keyLiterals_facing (key : Key) (s : Solver ε) : (facing t s).keyLiterals key = s.keyLiterals key := by
  cases key <;> rfl

theorem unaware_noteUsed (r : Reference) : Blind (facing t) (noteUsed r : SolverM ε Unit) (noteUsed r) := by
  unfold noteUsed
  exact .bind (unaware_onStore t _) fun _ => .get fun s => .ite (fun _ => unaware_onStore t _) fun _ => .pure _

theorem unaware_reasonLiterals (l : Literal) :
    Blind (facing t) (reasonLiterals l : SolverM ε (Array Literal)) (reasonLiterals l) := by
  unfold reasonLiterals
  refine .get fun s => ?_
  rw [assignment_facing]
  cases s.assignment.reason l with
  | binary other => exact .pure _
  | large r => exact .bind (unaware_noteUsed t r) fun _ => .get fun _ => .pure _
  | _ => exact .throw _

theorem note_facing (level n : Nat) (l : Literal) (s : Solver ε) :
    note level (n, facing t s) l = ((note level (n, s) l).1, facing t (note level (n, s) l).2) := by
  have hassignment := assignment_facing t s
  simp only [note, hassignment]
  split
  · rfl
  · split <;> rfl

theorem unaware_noteAll (level : Nat) (ls : Array Literal) :
    Blind (facing t) (noteAll level ls : SolverM ε Nat) (noteAll level ls) := by
  intro s
  have hfold := blind_foldl (f := Prod.map id (facing t)) (g := note level) (h := note level)
    (fun x l => note_facing t level x.1 l x.2) ls.toList (0, s)
  simp only [Array.foldl_toList] at hfold
  unfold noteAll
  exact congrArg (fun x : Nat × Solver ε' => EStateM.Result.ok x.1 x.2) hfold

theorem unaware_resolve (level n : Nat) (opened : Int) :
    Blind (facing t) (resolve level n opened : SolverM ε Literal) (resolve level n opened) := by
  induction n generalizing opened with
  | zero => exact .throw _
  | succ n ih =>
    unfold resolve
    refine .get fun s => .ite (fun _ => .ite (fun _ => .pure _) fun _ => ?_) fun _ => ih _
    exact .bind (unaware_reasonLiterals t _) fun _ => .bind (unaware_noteAll t level _) fun _ => ih _

theorem unaware_minimizeReason (levels : Array Bool) (record : Assigned) :
    Blind (facing t) (minimizeReason levels record : SolverM ε _) (minimizeReason levels record) := by
  unfold minimizeReason
  refine .ite (fun _ => .pure _) fun _ => ?_
  cases record.reason with
  | large r => exact .get fun _ => .bind (unaware_ofExcept t _) fun _ => .pure _
  | _ => exact .pure _

theorem unaware_redundant (levels : Array Bool) (depth : Nat) (top : Bool) (v : Nat) :
    Blind (facing t) (redundant levels depth top v : SolverM ε Bool) (redundant levels depth top v) := by
  induction depth generalizing top v with
  | zero =>
    unfold redundant
    exact .get fun _ => .ite (fun _ => .pure _) fun _ => .ite (fun _ => .pure _) fun _ => .ite (fun _ => .pure _)
      fun _ => .pure _
  | succ depth ih =>
    unfold redundant
    refine .get fun _ => .ite (fun _ => .pure _) fun _ => .ite (fun _ => .pure _) fun _ => .ite (fun _ => .pure _)
      fun _ => .bind (unaware_minimizeReason t levels _) fun others => ?_
    cases others with
    | none => exact .bind (.pure _) fun _ => .bind (.modify fun _ => rfl) fun _ => .pure _
    | some others => exact .bind (.allM (fun l => ih _ _) _) fun _ => .bind (.modify fun _ => rfl) fun _ => .pure _

theorem unaware_minimize (level : Nat) : Blind (facing t) (minimize level : SolverM ε Unit) (minimize level) := by
  unfold minimize
  refine .get fun s => .bind (.modify fun _ => rfl) fun _ => .get fun _ => .bind (.filterM (fun l => ?_) _) fun _ =>
    .modify fun _ => rfl
  exact .bind (unaware_redundant t _ _ _ _) fun _ => .pure _

theorem highestFrom_facing (ls : Array Literal) (best i n : Nat) (s : Solver ε) :
    (facing t s).highestFrom ls best i n = s.highestFrom ls best i n := by
  induction n generalizing best i with
  | zero => rfl
  | succ n ih => exact ih _ _

theorem placeSecond_facing (s : Solver ε) :
    (facing t s).placeSecond = (s.placeSecond.1, facing t s.placeSecond.2) := by
  simp only [placeSecond, learned_facing, highestFrom_facing]
  split <;> rfl

theorem bumpAnalyzed_facing (s : Solver ε) : (facing t s).bumpAnalyzed = facing t s.bumpAnalyzed := by
  unfold bumpAnalyzed
  rfl

theorem averageGlue_facing (glue : Nat) (s : Solver ε) :
    (facing t s).averageGlue glue = facing t (s.averageGlue glue) := by
  show (if s.orders.stable then _ else _) = facing t (if s.orders.stable then _ else _)
  split <;> rfl

theorem unaware_analyze (key : Key) : Blind (facing t) (analyze key : SolverM ε Analysis) (analyze key) := by
  unfold analyze
  refine .get fun s => ?_
  rw [keyLiterals_facing]
  refine .bind (unaware_ofExcept t _) fun ls => .get fun s => .ite (fun _ => .pure _) fun _ => ?_
  refine .bind (.modify (backtrack_facing t _)) fun _ => .bind (.modify fun _ => rfl) fun _ =>
    .bind (unaware_noteAll t _ ls) fun _ => .get fun _ => .bind (unaware_resolve t _ _ _) fun _ =>
      .bind (.modify fun _ => rfl) fun _ => .get fun _ => .when (unaware_minimize t _) fun _ => .get fun _ => ?_
  exact .bind (.modifyGet (placeSecond_facing t)) fun _ => .bind (.modify (bumpAnalyzed_facing t)) fun _ =>
    .bind (.modify (averageGlue_facing t _)) fun _ => .pure _

/-! ## Learning -/

theorem subsumeOne_facing (n : Nat) (s : Solver ε) (r : Reference) :
    subsumeOne n (facing t s) r = facing t (subsumeOne n s r) := by
  have hsubsumed : (facing t s).isSubsumed n r = s.isSubsumed n r := rfl
  unfold subsumeOne
  rw [hsubsumed, unaware_onStore t (Store.markGarbage r) s]
  split
  · cases onStore (Store.markGarbage r) s with
    | ok b s => cases b <;> rfl
    | error e s => rfl
  · rfl

theorem subsumeRecent_facing (clause : Array Literal) (s : Solver ε) :
    (facing t s).subsumeRecent clause = facing t (s.subsumeRecent clause) := by
  unfold subsumeRecent
  rw [recent_facing]
  split
  · rfl
  · dsimp only
    rw [mark_facing, recent_facing, blind_foldl (subsumeOne_facing t _), mark_facing]

theorem unaware_storeRedundant (clause : Array Literal) (glue : Nat) :
    Blind (facing t) (storeRedundant clause glue : SolverM ε Reference) (storeRedundant clause glue) := by
  unfold storeRedundant
  exact .bind (unaware_onStore t _) fun _ => .get fun _ => .bind (unaware_onStore t _) fun _ =>
    .bind (.modify fun _ => rfl) fun _ => .pure _

/-- Counts a learnt clause by its size. -/
def noteLearned (clause : Array Literal) (s : Solver ε) : Solver ε :=
  match clause.toList with
  | [] => s
  | [_] => s.count fun c => { c with learnedUnits := c.learnedUnits + 1 }
  | [_, _] => s.count fun c => { c with learnedBinaries := c.learnedBinaries + 1 }
  | _ :: _ => s.count fun c => { c with learnedLarge := c.learnedLarge + 1 }

/-- Of what storing a learnt clause does, only its count is different. -/
theorem storeLearned_facing (clause : Array Literal) (jump glue : Nat) (s : Solver ε) :
    storeLearned clause jump glue (facing t s) =
      match storeLearned clause jump glue s with
      | .ok _ s' => .ok () (facing (t.noteLearned clause) s')
      | .error e s' => .error e (facing t s') := by
  have hlevel : (facing t s).backtrackLevel jump = s.backtrackLevel jump := rfl
  rcases hls : clause.toList with _ | ⟨a, _ | ⟨b, _ | ⟨c, ls⟩⟩⟩ <;> simp only [storeLearned, noteLearned, hls]
  · rfl
  · refine congrArg (EStateM.Result.ok PUnit.unit) ?_
    dsimp only
    rw [backtrack_facing, assign_facing]
    rfl
  · refine congrArg (EStateM.Result.ok PUnit.unit) ?_
    dsimp only
    rw [hlevel, backtrack_facing]
    generalize backtrack s _ = s
    have hbinary : ({ facing t s with watches := (facing t s).watches.addBinary a b true false } : Solver ε') =
      facing t { s with watches := s.watches.addBinary a b true false } := rfl
    rw [hbinary, assign_facing, subsumeRecent_facing]
    rfl
  · have hstore := unaware_storeRedundant t clause glue (s.backtrack (s.backtrackLevel jump))
    simp only [bind_apply, modify_apply, hlevel, backtrack_facing, hstore]
    cases storeRedundant clause glue (s.backtrack (s.backtrackLevel jump)) with
    | ok r s =>
      simp only [imageOf, assign_facing, subsumeRecent_facing]
      rfl
    | error e s => rfl

/-! ## Taking over units and clauses -/

theorem importUnit_facing (e : Int) (s : Solver ε) : (facing t s).importUnit e = facing t (s.importUnit e) := by
  unfold importUnit
  rw [numbering_facing]
  cases s.numbering.lookup? e with
  | none => rfl
  | some l =>
    dsimp only
    rw [val_facing]
    cases s.val l with
    | unassigned =>
      dsimp only
      unfold assignImported
      rw [assign_facing]
      rfl
    | _ => rfl

theorem unaware_importClause (clause : List Int) (glue : Nat) :
    Blind (facing t) (importClause clause glue : SolverM ε Unit) (importClause clause glue) := by
  have hskip : Blind (facing t) (modify skipImport : SolverM ε Unit) (modify skipImport) := .modify fun _ => rfl
  unfold importClause
  refine .get fun s => ?_
  rw [numbering_facing, assignment_facing]
  cases clause.mapM s.numbering.lookup? with
  | none => exact hskip
  | some ls =>
    dsimp only
    rcases s.assignment.rootClause ls with _ | (_ | ⟨a, _ | ⟨b, _ | ⟨c, ls⟩⟩⟩)
    · exact hskip
    · exact .modify fun _ => rfl
    · refine .modify fun s => ?_
      unfold assignImported
      rw [assign_facing]
      rfl
    · exact .modify fun _ => rfl
    · exact .bind (unaware_storeRedundant t _ _) fun _ => .modify fun _ => rfl

/-! ## Pure literals -/

theorem extendBy_facing (redundant : Bool) (witness : Literal) (clause : List Literal) (s : Solver ε) :
    (facing t s).extendBy redundant witness clause = facing t (s.extendBy redundant witness clause) := by
  cases redundant <;> rfl

theorem unaware_removeMarked (rs : List Reference) :
    Blind (facing t) (removeMarked rs : SolverM ε Unit) (removeMarked rs) := by
  induction rs with
  | nil => exact .pure _
  | cons r rs ih =>
    unfold removeMarked
    refine .get fun s => .bind (unaware_ofExcept t _) fun c => .ite (fun _ => ?_) fun _ => ih
    rw [isMarked_facing]
    cases c.literals.find? s.isMarked with
    | none => exact ih
    | some witness =>
      exact .bind (.modify (extendBy_facing t _ _ _)) fun _ => .bind (unaware_onStore t _) fun _ => ih

theorem removeMarkedBinary_facing (s : Solver ε) (c : BinaryClause) :
    removeMarkedBinary (facing t s) c = facing t (removeMarkedBinary s c) := by
  unfold removeMarkedBinary
  dsimp only
  rw [extendBy_facing]
  rfl

theorem pureLiterals_facing (s : Solver ε) : (facing t s).pureLiterals = s.pureLiterals := by
  unfold pureLiterals
  rfl

theorem unaware_eliminatePure : Blind (facing t) (eliminatePure : SolverM ε Nat) eliminatePure := by
  have heliminate : ∀ (s : Solver ε) l, (facing t s).eliminate l = facing t (s.eliminate l) := fun _ _ => rfl
  unfold eliminatePure
  refine .get fun s => ?_
  rw [pureLiterals_facing]
  refine .ite (fun _ => .pure _) fun _ => .bind (.modify (mark_facing t _ _)) fun _ => .get fun _ =>
    .bind (unaware_removeMarked t _) fun _ => .bind (.modify fun s => ?_) fun _ =>
      .bind (unaware_collect t 0 .dense) fun _ => .pure _
  dsimp only
  rw [watches_facing, isMarked_facing, blind_foldl (removeMarkedBinary_facing t), mark_facing, blind_foldl heliminate]

/-! ## Adding clauses -/

theorem unaware_beginInput : Blind (facing t) (beginInput : SolverM ε Unit) beginInput := by
  unfold beginInput
  refine .get fun s => ?_
  rw [status_facing]
  cases s.status with
  | configuration => exact .modify fun _ => rfl
  | input => exact .modify fun _ => rfl
  | _ => exact .throw _

theorem unaware_importLiterals (es : List Int) :
    Blind (facing t) (importLiterals es : SolverM ε (List Literal)) (importLiterals es) := by
  induction es with
  | nil => exact .pure _
  | cons e es ih =>
    exact .get fun _ => .bind (unaware_ofExcept t _) fun _ => .bind (.modify fun _ => rfl) fun _ => .bind ih fun _ =>
      .pure _

theorem ensureVariables_facing (s : Solver ε) : (facing t s).ensureVariables = facing t s.ensureVariables := by
  show (if s.numbering.size ≤ s.assignment.size then _ else _) =
    facing t (if s.numbering.size ≤ s.assignment.size then _ else _)
  split <;> rfl

theorem unaware_addLiterals (ls : List Literal) :
    Blind (facing t) (addLiterals ls : SolverM ε Unit) (addLiterals ls) := by
  rcases ls with _ | ⟨a, _ | ⟨b, _ | ⟨c, ls⟩⟩⟩
  · exact .modify fun _ => rfl
  · exact .bind (.modify (assign_facing t _ _)) fun _ => .bind (unaware_propagateRoot t) fun _ => .pure _
  · exact .modify fun _ => rfl
  · exact .bind (unaware_onStore t _) fun _ => .modify fun _ => rfl

theorem unaware_addChecked (clause : List Int) :
    Blind (facing t) (addChecked clause : SolverM ε Unit) (addChecked clause) := by
  unfold addChecked
  refine .bind (unaware_importLiterals t clause) fun ls => .bind (.modify (ensureVariables_facing t)) fun _ =>
    .get fun s => .ite (fun _ => .pure _) fun _ => ?_
  rw [assignment_facing]
  cases s.assignment.rootClause ls with
  | useless => exact .pure _
  | literals ls => exact unaware_addLiterals t ls

theorem unaware_addClause (clause : List Int) :
    Blind (facing t) (addClause clause : SolverM ε Unit) (addClause clause) := by
  unfold addClause
  exact .bind (unaware_beginInput t) fun _ => .get fun _ => .when (.throw _) fun _ =>
    .bind (unaware_ofExcept t _) fun _ => unaware_addChecked t clause

theorem unaware_addLiteral (e : Int) : Blind (facing t) (addLiteral e : SolverM ε Unit) (addLiteral e) := by
  unfold addLiteral
  refine .bind (unaware_beginInput t) fun _ => .ite (fun _ => ?_) fun _ => ?_
  · exact .get fun _ => .bind (.modify fun _ => rfl) fun _ => unaware_addChecked t _
  · exact .bind (unaware_ofExcept t _) fun _ => .modify fun _ => rfl

theorem unaware_call (c : Call) : Blind (facing t) (c.run : SolverM ε Unit) c.run := by
  cases c with
  | clause ls => exact unaware_addClause t ls
  | literal e => exact unaware_addLiteral t e

/-! ## Before and after the search -/

theorem unaware_beginSolve : Blind (facing t) (beginSolve : SolverM ε Unit) beginSolve := by
  unfold beginSolve
  refine .get fun s => .when (.throw _) fun _ => ?_
  rw [status_facing]
  cases s.status with
  | configuration => exact .modify fun _ => rfl
  | input => exact .modify fun _ => rfl
  | _ => exact .throw _

theorem conclude_facing (report : Report) (s : Solver ε) :
    conclude report (facing t s) = facing t (conclude report s) := by
  cases report <;> rfl

end Solver

end ClauseLearning
