import ClauseLearning.Proofs.Blind
import ClauseLearning.Proofs.Keeping

/-!
# Work on clauses

Propagation, collections, and what reductions and simplifications do to clauses, look at clauses, watches, the
assignment and the trail only, and change nothing else but a few counts.

* `Solver.within` — these parts of one solver, in another one.
* `Solver.blind_propagate`, `Solver.blind_collect`, … — procedures that look at nothing else.
* `Solver.Clausal`, `Solver.keeps_clausal` — nor do they change anything else.
* `Solver.ends_reduce_clausal`, `Solver.ends_simplify_clausal` — what reductions and simplifications do besides.
-/

namespace ClauseLearning

namespace Solver

variable {ε ε' α : Type}

/-- The clauses, watches, assignment and trail of one solver, in another one which is otherwise as it is. -/
def within (t : Solver ε') (s : Solver ε) : Solver ε' :=
  { t with
    settings := s.settings
    store := s.store
    watches := s.watches
    assignment := s.assignment
    trail := s.trail
    recent := s.recent
    unflushed := s.unflushed
    derived := s.derived
    inconsistent := s.inconsistent
    counters := { t.counters with
      propagations := s.counters.propagations
      collections := s.counters.collections
      hyperBinaries := s.counters.hyperBinaries } }

variable (t : Solver ε')

@[simp] theorem store_within (s : Solver ε) : (within t s).store = s.store := rfl

@[simp] theorem watches_within (s : Solver ε) : (within t s).watches = s.watches := rfl

@[simp] theorem assignment_within (s : Solver ε) : (within t s).assignment = s.assignment := rfl

@[simp] theorem trail_within (s : Solver ε) : (within t s).trail = s.trail := rfl

@[simp] theorem val_within (l : Literal) (s : Solver ε) : (within t s).val l = s.val l := rfl

theorem blind_onStore (x : StoreM α) : Blind (within t) (onStore x : SolverM ε α) (onStore x) := by
  intro s
  cases hx : x s.store <;> simp only [onStore, store_within, hx] <;> rfl

theorem blind_ofExcept (x : Except Fault α) : Blind (within t) (ofExcept x : SolverM ε α) (ofExcept x) := by
  intro s
  cases x <;> rfl

/-! ## Collections -/

theorem blind_pinLiterals (pin : Bool) (ls : List Literal) :
    Blind (within t) (pinLiterals pin ls : SolverM ε Unit) (pinLiterals pin ls) := by
  induction ls with
  | nil => exact .pure _
  | cons l ls ih =>
    unfold pinLiterals
    refine .get fun s => ?_
    rw [assignment_within]
    cases s.assignment.reason l with
    | large r => exact .bind (blind_onStore t _) fun _ => ih
    | _ => exact ih

theorem blind_pinReasons (pin : Bool) : Blind (within t) (pinReasons pin : SolverM ε Unit) (pinReasons pin) :=
  .get fun _ => blind_pinLiterals t pin _

theorem sweep_within (start : Nat) (mode : CollectMode) (s : Solver ε) :
    sweep start mode (within t s) = ((s.sweep start mode).1, within t (s.sweep start mode).2) := rfl

theorem retag_within (r : Store.Relocation) (mode : CollectMode) (s : Solver ε) :
    retag r mode (within t s) = within t (retag r mode s) := by
  unfold retag
  dsimp only
  split <;> rfl

theorem bestFrom_within (o n : Nat) (best i : Nat) (s : Solver ε) :
    (within t s).bestFrom o best i n = s.bestFrom o best i n := by
  induction n generalizing best i with
  | zero => rfl
  | succ n ih => exact ih _ _

theorem moveBest_within (o size i : Nat) (s : Solver ε) :
    moveBest o size i (within t s) = within t (moveBest o size i s) := by
  unfold moveBest
  rw [bestFrom_within]
  rfl

theorem blind_rewatchAll (rs : List Reference) :
    Blind (within t) (rewatchAll rs : SolverM ε Unit) (rewatchAll rs) := by
  induction rs with
  | nil => exact .pure _
  | cons r rs ih =>
    refine .bind (blind_onStore t _) fun size => .bind (.modify fun s => ?_) fun _ => ih
    dsimp only
    rw [moveBest_within, moveBest_within]
    rfl

theorem blind_collect (start : Nat) (mode : CollectMode) :
    Blind (within t) (collect start mode : SolverM ε Unit) (collect start mode) := by
  unfold collect
  refine .bind (.modify fun _ => rfl) fun _ => .bind (blind_pinReasons t true) fun _ =>
    .bind (.modify fun s => by cases mode <;> rfl) fun _ =>
      .bind (.modifyGet fun s => sweep_within t start mode s) fun r => .bind (.modify fun s => retag_within t r mode s)
        fun _ => .bind (.get fun _ => blind_rewatchAll t _) fun _ => .bind (blind_pinReasons t false) fun _ =>
          .modify fun _ => rfl

/-! ## Reductions and simplifications -/

theorem blind_candidates (rs : List Reference) (start : Nat) :
    Blind (within t) (candidates rs start : SolverM ε (Nat × List Candidate)) (candidates rs start) := by
  induction rs generalizing start with
  | nil => exact .pure _
  | cons r rs ih =>
    unfold candidates
    refine .bind (blind_onStore t _) fun size => .get fun s => .ite (fun _ => ih _) fun _ =>
      .ite (fun _ => ?_) fun _ => ?_
    · exact .bind (blind_onStore t _) fun _ => ih _
    · exact .bind (ih _) fun _ => .pure _

theorem blind_markAll (cs : List Candidate) (start : Nat) :
    Blind (within t) (markAll cs start : SolverM ε Nat) (markAll cs start) := by
  induction cs generalizing start with
  | nil => exact .pure _
  | cons c cs ih => exact .bind (blind_onStore t _) fun _ => ih _

theorem blind_simplifyOne (r : Reference) :
    Blind (within t) (simplifyOne r : SolverM ε Unit) (simplifyOne r) := by
  unfold simplifyOne
  refine .get fun s => .bind (blind_ofExcept t _) fun c => ?_
  rw [assignment_within]
  cases s.assignment.simplification c with
  | unchanged => exact .pure _
  | satisfied => exact .bind (blind_onStore t _) fun _ => .pure _
  | binary a b => exact .bind (.modify fun _ => rfl) fun _ => .bind (blind_onStore t _) fun _ => .pure _
  | shrunk ls => exact .bind (.modify fun _ => rfl) fun _ => blind_onStore t _

theorem blind_simplifyAll (rs : List Reference) :
    Blind (within t) (simplifyAll rs : SolverM ε Unit) (simplifyAll rs) := by
  induction rs with
  | nil => exact .pure _
  | cons r rs ih => exact .bind (blind_simplifyOne t r) fun _ => ih

/-! ## Propagation -/

theorem assign_within (l : Literal) (reason : Reason) (s : Solver ε) :
    (within t s).assign l reason = within t (s.assign l reason) := by
  show (if s.trail.level = 0 then _ else _) = within t (if s.trail.level = 0 then _ else _)
  split <;> rfl

theorem assignForced_within (l : Literal) (r : Reference) (s : Solver ε) :
    (within t s).assignForced l r = within t (s.assignForced l r) := by
  show (if s.trail.level = 1 ∧ s.settings.keep.hyperBinaries.value then _ else _) =
    within t (if s.trail.level = 1 ∧ s.settings.keep.hyperBinaries.value then _ else _)
  split
  · exact assign_within t l (.binary (-s.trail.decision 1))
      ({ s with derived := s.derived.push (-s.trail.decision 1, l) }.count fun c =>
        { c with hyperBinaries := c.hyperBinaries + 1 })
  · exact assign_within t l (.large r) s

/-- What becomes of one watch, within another solver. -/
theorem visitWatch_within (no : Literal) (w : Watch) (s : Solver ε) :
    (within t s).visitWatch no w = ((s.visitWatch no w).1, within t (s.visitWatch no w).2) := by
  unfold visitWatch
  cases w with
  | binary other redundant hyper =>
    dsimp only
    rw [val_within]
    cases s.val other with
    | tt => rfl
    | ff => rfl
    | unassigned =>
      dsimp only
      rw [assign_within]
  | large blocking r =>
    dsimp only
    rw [val_within, assignment_within, blind_onStore t (Store.visit s.assignment no r) s]
    split
    · rfl
    · cases onStore (Store.visit s.assignment no r) s with
      | error e s => rfl
      | ok v s =>
        cases v with
        | satisfied other => rfl
        | moved replacement other => rfl
        | forced other =>
          dsimp only [imageOf]
          rw [assignForced_within]
        | conflict => rfl

/-- What propagation does along a list of watches, within another solver. -/
theorem propagateList_within (no : Literal) (ws : List Watch) (kept : Array Watch) (s : Solver ε) :
    propagateList no ws kept (within t s) =
      ((propagateList no ws kept s).1, within t (propagateList no ws kept s).2) := by
  induction ws generalizing kept s with
  | nil => rfl
  | cons w ws ih =>
    rw [propagateList_cons, propagateList_cons, visitWatch_within]
    obtain ⟨out, s'⟩ := s.visitWatch no w
    cases out with
    | ok x => exact ih _ _
    | error e => rfl

theorem blind_propagateLiteral (l : Literal) :
    Blind (within t) (propagateLiteral l : SolverM ε Unit) (propagateLiteral l) := by
  intro s
  have h := propagateList_within t (-l) (s.watches.of (-l)).toList #[] { s with watches := s.watches.set (-l) #[] }
  have hs : ({ within t s with watches := (within t s).watches.set (-l) #[] } : Solver ε') =
      within t { s with watches := s.watches.set (-l) #[] } := rfl
  unfold propagateLiteral
  dsimp only
  rw [hs, watches_within, h]
  dsimp only
  cases (propagateList (-l) (s.watches.of (-l)).toList #[] { s with watches := s.watches.set (-l) #[] }).1.1 <;> rfl

theorem blind_propagateMany (n : Nat) :
    Blind (within t) (propagateMany n : SolverM ε Unit) (propagateMany n) := by
  induction n with
  | zero => exact .throw _
  | succ n ih =>
    unfold propagateMany
    refine .get fun s => ?_
    rw [trail_within]
    cases s.trail.next? with
    | none => exact .pure _
    | some x =>
      exact .bind (.modify fun _ => rfl) fun _ => .bind (.modify fun _ => rfl) fun _ =>
        .bind (blind_propagateLiteral t _) fun _ => ih

theorem blind_propagate : Blind (within t) (propagate : SolverM ε Unit) propagate :=
  .get fun _ => blind_propagateMany t _

theorem blind_propagatePass : Blind (within t) (propagatePass : SolverM ε (Option Key)) propagatePass := by
  intro s
  unfold propagatePass
  rw [blind_propagate t s]
  cases propagate s with
  | ok _ s' => rfl
  | error e s' => cases e <;> rfl

theorem blind_propagateRoot : Blind (within t) (propagateRoot : SolverM ε Bool) propagateRoot := by
  intro s
  unfold propagateRoot
  rw [blind_propagate t s]
  cases propagate s with
  | ok _ s' => rfl
  | error e s' => cases e <;> rfl

/-! ## What such work leaves alone -/

/-- Nothing changed but clauses, watches, the assignment and the trail. -/
def Clausal (s s' : Solver ε) : Prop := s' = within s s'

/-- A procedure that looks at nothing else changes nothing else. -/
theorem keeps_clausal {x : SolverM ε α} (h : ∀ t : Solver ε, Blind (within t) x x) : Keeps Clausal x := by
  intro s
  have hs : x s = imageOf (within s) (x s) := h s s
  unfold Ends
  cases hx : x s with
  | ok a s' =>
    rw [hx] at hs
    exact (EStateM.Result.ok.inj hs).2
  | error e s' =>
    rw [hx] at hs
    exact (EStateM.Result.error.inj hs).2

/-- The part of a reduction that is about clauses. -/
theorem clausal_reduceClauses : Keeps Clausal (do
    pinReasons true
    let s ← get
    let (start, found) ← candidates s.store.references s.store.words.size
    pinReasons false
    let sorted := found.mergeSort Candidate.worse
    let target := (← get).reduceTarget sorted.length
    let start ← markAll (sorted.take target) start
    collect start .sparse : SolverM ε Unit) :=
  keeps_clausal fun t => .bind (blind_pinReasons t true) fun _ => .get fun _ => .bind (blind_candidates t _ _) fun _ =>
    .bind (blind_pinReasons t false) fun _ => .get fun _ => .bind (blind_markAll t _ _) fun _ =>
      blind_collect t _ .sparse

/-- The part of a simplification that is about clauses. -/
theorem clausal_simplifyClauses : Keeps Clausal (do
    simplifyAll (← get).store.references
    collect 0 .sparse : SolverM ε Unit) :=
  keeps_clausal fun t => .get fun _ => .bind (blind_simplifyAll t _) fun _ => blind_collect t 0 .sparse

variable {s : Solver ε}

/-- What a reduction does besides: it is counted, and the next one is set. -/
theorem ends_reduce_clausal (s : Solver ε) :
    Ends reduce s
      (fun _ s' => ∃ t, Clausal (s.count fun c => { c with reductions := c.reductions + 1 }) t ∧
        s' = { t with limits.reduce := t.counters.conflicts + t.reduceDelta })
      fun _ _ => True := by
  have hclauses := clausal_reduceClauses (s.count fun c => { c with reductions := c.reductions + 1 })
  unfold reduce
  simp only [ends_bind, ends_get, ends_modify] at hclauses ⊢
  refine hclauses.imp (fun _ _ h₁ => h₁.imp (fun _ _ h₂ => h₂.imp (fun _ _ h₃ => h₃.imp (fun _ _ h₄ => h₄.imp
    (fun _ t h => ⟨t, h, rfl⟩) ?_) ?_) ?_) ?_) ?_ <;> exact fun _ _ _ => trivial

/-- What a simplification does besides: it is counted, and units that were learnt are no longer new. -/
theorem ends_simplify_clausal (hi : s.inconsistent = false) (hfull : s.trail.propagated = s.trail.size) :
    Ends simplify s
      (fun _ s' => Clausal { s with
        counters.simplifications := s.counters.simplifications + 1
        iterating := false } s')
      fun _ _ => True := by
  have hroot : propagateRoot s = .ok true s := by
    simp only [propagateRoot, propagate_full hfull]
  have hclauses := clausal_simplifyClauses { s with
    counters.simplifications := s.counters.simplifications + 1
    iterating := false }
  unfold simplify
  simp only [ends_bind, ends_get, ends_ite, ends_throw, ends_pure, ends_modify, hi, Bool.false_eq_true,
    ends_of_ok hroot] at hclauses ⊢
  refine ⟨fun _ => trivial, fun _ => ⟨False.elim, fun _ => ⟨fun _ => ?_, fun hb => absurd trivial hb⟩⟩⟩
  refine hclauses.imp (fun _ _ h₁ => h₁.imp (fun _ s' h₂ => ?_) fun _ _ _ => trivial) fun _ _ _ => trivial
  exact congrArg (fun t : Solver ε => { t with unflushed := 0 }) h₂

end Solver

end ClauseLearning
