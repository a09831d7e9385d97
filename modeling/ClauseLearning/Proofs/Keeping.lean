import ClauseLearning.Proofs.Keeps
import ClauseLearning.Proofs.Learning
import ClauseLearning.Solver.Search

/-!
# What the procedures of a solver leave alone

* `Solver.Lasting` — each epoch is counted as a collection, and each variable keeps a saved phase.
* `Solver.Timed` — the limits of the search and the count of its conflicts stay.
* `Solver.Forward` — besides, no level begins or ends, and nothing is taken from the trail.
* `Solver.Still` — besides, the trail stays, and whatever may be due.
-/

namespace ClauseLearning

/-- The counts that schedules depend on, but for the conflicts. -/
def Counters.clock (c : Counters) : Nat × Nat × Nat := (c.rephases, c.modeSwitches, c.decisions)

namespace Solver

variable {ε α : Type} {s s' s'' : Solver ε}

/-- Each epoch that begins is counted as a collection, and each variable keeps a saved phase. -/
def Lasting (s s' : Solver ε) : Prop :=
  (∃ n, s'.store.epoch = Store.nextEpoch^[n] s.store.epoch ∧ s.counters.collections + n ≤ s'.counters.collections) ∧
    (s.phases.saved.size = s.assignment.size → s'.phases.saved.size = s'.assignment.size)

namespace Lasting

theorem refl (s : Solver ε) : Lasting s s := ⟨⟨0, rfl, Nat.le_refl _⟩, id⟩

theorem trans (h : Lasting s s') (h' : Lasting s' s'') : Lasting s s'' := by
  obtain ⟨⟨n, he, hc⟩, hs⟩ := h
  obtain ⟨⟨n', he', hc'⟩, hs'⟩ := h'
  refine ⟨⟨n' + n, ?_, by omega⟩, hs' ∘ hs⟩
  rw [he', he, Function.iterate_add_apply]

/-- The epoch and the count of variables stay. -/
theorem of_eq (he : s'.store.epoch = s.store.epoch) (hc : s.counters.collections ≤ s'.counters.collections)
    (hp : s'.phases.saved.size = s.phases.saved.size) (ha : s'.assignment.size = s.assignment.size) :
    Lasting s s' := ⟨⟨0, he, hc⟩, fun hs => by rw [hp, ha, hs]⟩

/-- An epoch begins after a collection was counted. -/
theorem sweep {t : Solver ε} (h : Lasting (s.count fun c => { c with collections := c.collections + 1 }) t)
    (he : s'.store.epoch = Store.nextEpoch t.store.epoch) (hc : s'.counters.collections = t.counters.collections)
    (hp : s'.phases.saved.size = t.phases.saved.size) (ha : s'.assignment.size = t.assignment.size) :
    Lasting s s' := by
  obtain ⟨⟨n, he', hc'⟩, hs⟩ := h
  simp only [count] at he' hc' hs
  refine ⟨⟨n + 1, ?_, by omega⟩, fun hsize => by rw [hp, ha, hs hsize]⟩
  rw [he, he', Function.iterate_succ_apply']

end Lasting

/-- The settings and the mode stay, and so do the counts that the schedules depend on.  Reluctant doubling only
ticks. -/
def Clocked (s s' : Solver ε) : Prop :=
  (s'.settings = s.settings ∧ s'.orders.stable = s.orders.stable) ∧ s'.counters.clock = s.counters.clock ∧
    ∃ n, s'.reluctant = Reluctant.tick^[n] s.reluctant

namespace Clocked

theorem refl (s : Solver ε) : Clocked s s := ⟨⟨rfl, rfl⟩, rfl, 0, rfl⟩

theorem trans (h : Clocked s s') (h' : Clocked s' s'') : Clocked s s'' := by
  obtain ⟨⟨hc, ho⟩, hn, n, hr⟩ := h
  obtain ⟨⟨hc', ho'⟩, hn', n', hr'⟩ := h'
  exact ⟨⟨hc'.trans hc, ho'.trans ho⟩, hn'.trans hn, n' + n, by rw [hr', hr, Function.iterate_add_apply]⟩

/-- Something else changes in the orders or the counters. -/
theorem of_eq (ho : s'.orders.stable = s.orders.stable) (hn : s'.counters.clock = s.counters.clock)
    (hc : s'.settings = s.settings) (hr : s'.reluctant = s.reluctant) : Clocked s s' :=
  ⟨⟨hc, ho⟩, hn, 0, hr⟩

end Clocked

/-- The limits of the search and the count of its conflicts stay. -/
structure Timed (s s' : Solver ε) : Prop where
  /-- It was not asked to stop. -/
  stopped : s'.stopped = s.stopped
  /-- The limits. -/
  limits : s'.limits = s.limits
  /-- The count of conflicts. -/
  conflicts : s'.counters.conflicts = s.counters.conflicts
  /-- What lasts. -/
  lasting : Lasting s s'
  /-- What schedules depend on. -/
  clocked : Clocked s s'

/-- Besides, no level begins or ends, and nothing is taken from the trail. -/
structure Forward (s s' : Solver ε) : Prop extends Timed s s' where
  /-- The levels begin where they began. -/
  frames : s'.trail.frames = s.trail.frames
  /-- The trail only grows. -/
  size : s.trail.size ≤ s'.trail.size

/-- Besides, the trail stays, and whatever may be due. -/
structure Still (s s' : Solver ε) : Prop extends Timed s s' where
  /-- The trail. -/
  trail : s'.trail = s.trail
  /-- The count of reductions. -/
  reductions : s'.counters.reductions = s.counters.reductions
  /-- Whether a unit was learnt. -/
  iterating : s'.iterating = s.iterating
  /-- The count of root literals that were assigned. -/
  unflushed : s'.unflushed = s.unflushed

theorem Timed.trans (h : Timed s s') (h' : Timed s' s'') : Timed s s'' :=
  ⟨h'.stopped.trans h.stopped, h'.limits.trans h.limits, h'.conflicts.trans h.conflicts, h.lasting.trans h'.lasting,
    h.clocked.trans h'.clocked⟩

theorem Still.forward (h : Still s s') : Forward s s' :=
  ⟨h.toTimed, by rw [h.trail], Nat.le_of_eq (by rw [h.trail])⟩

instance : Std.Refl (Timed (ε := ε)) := ⟨fun _ => ⟨rfl, rfl, rfl, .refl _, .refl _⟩⟩
instance : IsTrans (Solver ε) Timed := ⟨fun _ _ _ => Timed.trans⟩

instance : Std.Refl (Forward (ε := ε)) := ⟨fun _ => ⟨⟨rfl, rfl, rfl, .refl _, .refl _⟩, rfl, Nat.le_refl _⟩⟩
instance : IsTrans (Solver ε) Forward := ⟨fun _ _ _ h h' =>
  ⟨h.toTimed.trans h'.toTimed, h'.frames.trans h.frames, Nat.le_trans h.size h'.size⟩⟩

instance : Std.Refl (Still (ε := ε)) := ⟨fun _ => ⟨⟨rfl, rfl, rfl, .refl _, .refl _⟩, rfl, rfl, rfl, rfl⟩⟩
instance : IsTrans (Solver ε) Still := ⟨fun _ _ _ h h' =>
  ⟨h.toTimed.trans h'.toTimed, h'.trail.trans h.trail, h'.reductions.trans h.reductions,
    h'.iterating.trans h.iterating, h'.unflushed.trans h.unflushed⟩⟩

theorem keeps_forward {x : SolverM ε α} (h : Keeps Still x) : Keeps Forward x := h.mono fun _ _ => Still.forward

theorem keeps_timed {x : SolverM ε α} (h : Keeps Forward x) : Keeps Timed x := h.mono fun _ _ => Forward.toTimed

theorem keeps_ofExcept {R : Solver ε → Solver ε → Prop} [Std.Refl R] (x : Except Fault α) :
    Keeps R (ofExcept x : SolverM ε α) := fun s =>
  (ends_ofExcept x).2 ⟨fun _ _ => refl_of R s, fun _ _ => refl_of R s⟩

theorem still_store (s : Solver ε) {store : Store} (h : store.epoch = s.store.epoch) : Still s { s with store } :=
  ⟨⟨rfl, rfl, rfl, .of_eq h (Nat.le_refl _) rfl rfl, .refl _⟩, rfl, rfl, rfl, rfl⟩

theorem still_assignment (s : Solver ε) {assignment : Assignment} (h : assignment.size = s.assignment.size) :
    Still s { s with assignment } :=
  ⟨⟨rfl, rfl, rfl, .of_eq rfl (Nat.le_refl _) rfl h, .refl _⟩, rfl, rfl, rfl, rfl⟩

theorem still_watches (s : Solver ε) (watches : Watches) : Still s { s with watches } :=
  ⟨⟨rfl, rfl, rfl, .refl _, .refl _⟩, rfl, rfl, rfl, rfl⟩

theorem still_onStore {x : StoreM α} (h : Keeps Store.SameEpoch x) : Keeps Still (onStore x : SolverM ε α) := fun s =>
  (ends_onStore x).2 <| (h s.store).imp (fun _ _ he => still_store s he) fun _ _ he => still_store s he

theorem still_isTerminated (s : Solver ε) : Still s s.isTerminated.2 := by
  obtain ⟨outside, he⟩ := isTerminated_eq s
  rw [he]
  exact ⟨⟨rfl, rfl, rfl, .refl _, .refl _⟩, rfl, rfl, rfl, rfl⟩

/-! ## Collections -/

theorem still_pinLiterals (pin : Bool) (ls : List Literal) : Keeps Still (pinLiterals pin ls : SolverM ε Unit) := by
  induction ls with
  | nil => exact .pure _
  | cons l ls ih =>
    unfold pinLiterals
    refine .bind .get fun s => ?_
    dsimp only
    split
    · exact .bind (still_onStore (Store.sameEpoch_updateFlags _ _)) fun _ => ih
    · exact ih

theorem still_pinReasons (pin : Bool) : Keeps Still (pinReasons pin : SolverM ε Unit) :=
  .bind .get fun _ => still_pinLiterals pin _

theorem size_modify (a : Assignment) (v : Nat) (f : Assigned → Assigned) : (a.modify v f).size = a.size :=
  Array.size_modify ..

theorem size_foldl_modify {β : Type} (vs : List β) (g : β → Nat) (f : Assigned → Assigned) (a : Assignment) :
    (vs.foldl (fun a v => a.modify (g v) f) a).size = a.size := by
  induction vs generalizing a with
  | nil => rfl
  | cons v vs ih => exact (ih _).trans (size_modify ..)

/-- The sweep of a collection.  It begins an epoch, once the collection was counted. -/
theorem Still.sweep {t : Solver ε} (h : Still (s.count fun c => { c with collections := c.collections + 1 }) t)
    (start : Nat) (mode : CollectMode) : Still s (t.sweep start mode).2 := by
  have hsize : ∀ rule : Store.SweepRule (Assignment × Watches),
      (∀ x old new c, x.1.size = t.assignment.size → (rule x old new c).2.1.size = t.assignment.size) →
      (t.store.sweep start rule (t.assignment, t.watches)).2.2.1.size = t.assignment.size := fun rule hrule =>
    Store.sweep_keeps hrule t.store _ _ rfl
  have hrehome : ∀ (x : Assignment × Watches) l reason, (rehome x l reason).1.size = x.1.size := fun x l reason =>
    size_modify ..
  cases mode with
  | sparse =>
    refine ⟨⟨h.stopped, h.limits, h.conflicts, h.lasting.sweep rfl rfl rfl (hsize _ fun x old new c hx => ?_),
      h.clocked⟩,
      h.trail, h.reductions, h.iterating, h.unflushed⟩
    change (sparseRule x old new c).2.1.size = _
    unfold sparseRule
    dsimp only
    split
    · exact hx
    split
    · exact hx
    split
    · exact hx
    split
    · split
      · exact (hrehome _ _ _).trans hx
      · exact hx
    · split
      · exact (hrehome _ _ _).trans hx
      · exact hx
  | dense =>
    refine ⟨⟨h.stopped, h.limits, h.conflicts, h.lasting.sweep rfl rfl rfl (hsize _ fun x old new c hx => ?_),
      h.clocked⟩,
      h.trail, h.reductions, h.iterating, h.unflushed⟩
    change (denseRule x old new c).2.1.size = _
    unfold denseRule
    by_cases h1 : (c.flags.garbage && !c.flags.reason) = true
    · rw [if_pos h1]
      exact hx
    · rw [if_neg h1]
      cases c.flags.reason with
      | true => exact (hrehome _ _ _).trans hx
      | false => exact hx

theorem still_retag (t : Store.Relocation) (mode : CollectMode) (s : Solver ε) : Still s (retag t mode s) := by
  have hsize := size_foldl_modify (s.trail.above 0) Literal.var (carryReason t) s.assignment
  unfold retag
  dsimp only
  split
  · exact trans_of Still (still_watches s ⟨s.watches.lists.map fun list => list.map (carryWatch t)⟩)
      (still_assignment _ hsize)
  · exact still_assignment s hsize

theorem still_moveBest (o size i : Nat) (s : Solver ε) : Still s (moveBest o size i s) :=
  still_store s (Store.epoch_swapAt ..)

theorem still_rewatchAll (rs : List Reference) : Keeps Still (rewatchAll rs : SolverM ε Unit) := by
  induction rs with
  | nil => exact .pure _
  | cons r rs ih =>
    exact .bind (still_onStore (Store.sameEpoch_locate r)) fun _ => .bind (.modify fun s =>
      trans_of Still (trans_of Still (still_moveBest _ _ 0 s) (still_moveBest _ _ 1 _)) (still_watches _ _)) fun _ => ih

theorem still_collect (start : Nat) (mode : CollectMode) : Keeps Still (collect start mode : SolverM ε Unit) := by
  intro s
  -- what comes after the sweep
  have hafter : ∀ (t : Store.Relocation) (from' : Nat), Keeps Still (do
      modify (retag t mode)
      rewatch from'
      pinReasons false
      modify fun s => { s with recent := s.recent.clear } : SolverM ε Unit) := fun t from' =>
    .bind (.modify fun s => still_retag t mode s) fun _ => .bind (.bind .get fun _ => still_rewatchAll _) fun _ =>
      .bind (still_pinReasons false) fun _ => .modify fun _ => ⟨⟨rfl, rfl, rfl, .refl _, .refl _⟩, rfl, rfl, rfl, rfl⟩
  have hcount : Still s (s.count fun c => { c with collections := c.collections + 1 }) :=
    ⟨⟨rfl, rfl, rfl, .of_eq rfl (Nat.le_succ _) rfl rfl, .refl _⟩, rfl, rfl, rfl, rfl⟩
  unfold collect
  rw [ends_bind, ends_modify, ends_bind]
  refine (still_pinReasons true _).imp (fun _ s₁ h₁ => ?_) fun _ _ h₁ => trans_of Still hcount h₁
  rw [ends_bind, ends_modify, ends_bind, ends_modifyGet]
  have hwatch : ∀ w, Still s (sweep start mode { s₁ with watches := w }).2 := fun w =>
    Still.sweep (trans_of Still h₁ (still_watches s₁ w)) start mode
  cases mode <;>
    exact (hafter _ _ _).imp (fun _ _ h₂ => trans_of Still (hwatch _) h₂) fun _ _ h₂ => trans_of Still (hwatch _) h₂

/-! ## Reductions and simplifications -/

theorem still_candidates (rs : List Reference) (start : Nat) :
    Keeps Still (candidates rs start : SolverM ε (Nat × List Candidate)) := by
  induction rs generalizing start with
  | nil => exact .pure _
  | cons r rs ih =>
    refine .bind (still_onStore (Store.sameEpoch_locate r)) fun _ => .bind .get fun s => ?_
    dsimp only
    split
    · exact ih _
    · split
      · exact .bind (still_onStore (Store.sameEpoch_updateFlags r _)) fun _ => ih _
      · exact .bind (ih _) fun _ => .pure _

theorem still_markAll (cs : List Candidate) (start : Nat) : Keeps Still (markAll cs start : SolverM ε Nat) := by
  induction cs generalizing start with
  | nil => exact .pure _
  | cons c cs ih => exact .bind (still_onStore (Store.sameEpoch_markGarbage _)) fun _ => ih _

theorem still_simplifyOne (r : Reference) : Keeps Still (simplifyOne r : SolverM ε Unit) := by
  have hset : ∀ (s : Solver ε) ls, Still s { s with store := s.store.setLiteralsAt r.offset 0 ls } := fun s ls =>
    still_store s (Store.epoch_setLiteralsAt _ _ _ ls)
  have hgarbage := still_onStore (ε := ε) (Store.sameEpoch_markGarbage r)
  refine .bind .get fun s => .bind (keeps_ofExcept _) fun c => ?_
  dsimp only
  split
  · exact .pure _
  · exact .bind hgarbage fun _ => .pure _
  · exact .bind (.modify fun s =>
      ⟨⟨rfl, rfl, rfl, .of_eq (Store.epoch_setLiteralsAt ..) (Nat.le_refl _) rfl rfl, .refl _⟩, rfl, rfl, rfl, rfl⟩) fun _ => .bind hgarbage fun _ => .pure _
  · exact .bind (.modify fun s => hset s _) fun _ => still_onStore (Store.sameEpoch_shrink r _)

theorem still_simplifyAll (rs : List Reference) : Keeps Still (simplifyAll rs : SolverM ε Unit) := by
  induction rs with
  | nil => exact .pure _
  | cons r rs ih => exact .bind (still_simplifyOne r) fun _ => ih

/-- The part of a reduction which is about clauses. -/
theorem still_reduceClauses : Keeps Still (do
    pinReasons true
    let s ← get
    let (start, found) ← candidates s.store.references s.store.words.size
    pinReasons false
    let sorted := found.mergeSort Candidate.worse
    let target := (← get).reduceTarget sorted.length
    let start ← markAll (sorted.take target) start
    collect start .sparse : SolverM ε Unit) :=
  .bind (still_pinReasons true) fun _ => .bind .get fun _ => .bind (still_candidates _ _) fun _ =>
    .bind (still_pinReasons false) fun _ => .bind .get fun _ => .bind (still_markAll _ _) fun _ =>
      still_collect _ .sparse

/-- What else a reduction does: it is counted, and the next one is set. -/
theorem ends_reduce_still (s : Solver ε) :
    Ends reduce s
      (fun _ s' => ∃ t, Still (s.count fun c => { c with reductions := c.reductions + 1 }) t ∧
        s' = { t with limits.reduce := t.counters.conflicts + t.reduceDelta })
      fun _ _ => True := by
  have hclauses := still_reduceClauses (s.count fun c => { c with reductions := c.reductions + 1 })
  unfold reduce
  simp only [ends_bind, ends_get, ends_modify] at hclauses ⊢
  refine hclauses.imp (fun _ _ h₁ => h₁.imp (fun _ _ h₂ => h₂.imp (fun _ _ h₃ => h₃.imp (fun _ _ h₄ => h₄.imp
    (fun _ t h => ⟨t, h, rfl⟩) ?_) ?_) ?_) ?_) ?_ <;> exact fun _ _ _ => trivial

/-- What a simplification does but for clauses: nothing is new any more. -/
structure Flushed (s s' : Solver ε) : Prop extends Timed s s' where
  /-- The trail. -/
  trail : s'.trail = s.trail
  /-- No unit was learnt since. -/
  iterating : s'.iterating = false
  /-- No root literal was assigned since. -/
  unflushed : s'.unflushed = 0

theorem ends_simplify_flushed (hi : s.inconsistent = false) (hfull : s.trail.propagated = s.trail.size) :
    Ends simplify s (fun _ s' => Flushed s s') fun _ _ => True := by
  have hroot : propagateRoot s = .ok true s := by
    simp only [propagateRoot, propagate_full hfull]
  unfold simplify
  simp only [ends_bind, ends_get, ends_ite, ends_throw, ends_pure, ends_modify, hi, Bool.false_eq_true,
    ends_of_ok hroot]
  refine ⟨fun _ => trivial, fun _ => ⟨False.elim, fun _ => ⟨fun _ => ?_, fun hb => absurd trivial hb⟩⟩⟩
  refine (still_simplifyAll _ _).imp (fun _ s₁ h₁ => (still_collect 0 .sparse s₁).imp (fun _ s₂ h₂ => ?_)
    fun _ _ _ => trivial) fun _ _ _ => trivial
  have h := trans_of Still h₁ h₂
  exact ⟨⟨h.stopped, h.limits, h.conflicts, h.lasting, h.clocked⟩, h.trail, h.iterating, rfl⟩

/-! ## Analysis -/

theorem still_noteUsed (r : Reference) : Keeps Still (noteUsed r : SolverM ε Unit) := by
  refine .bind (still_onStore (Store.sameEpoch_locate r)) fun _ => .bind .get fun s => ?_
  split
  · exact still_onStore (Store.sameEpoch_updateFlags r _)
  · exact .pure _

theorem still_reasonLiterals (l : Literal) : Keeps Still (reasonLiterals l : SolverM ε (Array Literal)) := by
  refine .bind .get fun s => ?_
  split
  · exact .pure _
  · exact .bind (still_noteUsed _) fun _ => .bind .get fun _ => .pure _
  · exact .throw _
  · exact .throw _

theorem still_note (level : Nat) (x : Nat × Solver ε) (l : Literal) : Still x.2 (note level x l).2 := by
  unfold note
  dsimp only
  split
  · exact refl_of Still _
  · split <;>
      exact ⟨⟨rfl, rfl, rfl, .of_eq rfl (Nat.le_refl _) rfl (size_modify ..), .refl _⟩, rfl, rfl, rfl, rfl⟩

theorem still_noteAll (level : Nat) (ls : Array Literal) : Keeps Still (noteAll level ls : SolverM ε Nat) := by
  intro s
  have hall := List.foldl_related_snd (still_note level) ls.toList (0, s)
  rwa [Array.foldl_toList] at hall

theorem still_resolve (level n : Nat) (opened : Int) : Keeps Still (resolve level n opened : SolverM ε Literal) := by
  induction n generalizing opened with
  | zero => exact .throw _
  | succ n ih =>
    unfold resolve
    refine .bind .get fun s => ?_
    dsimp only
    split
    · split
      · exact .pure _
      · exact .bind (still_reasonLiterals _) fun _ => .bind (still_noteAll level _) fun _ => ih _
    · exact ih _

theorem still_minimizeReason (levels : Array Bool) (record : Assigned) :
    Keeps Still (minimizeReason levels record : SolverM ε (Option (Array Literal))) := by
  unfold minimizeReason
  split
  · exact .pure _
  · split
    · exact .pure _
    · exact .pure _
    · exact .pure _
    · exact .bind .get fun _ => .bind (keeps_ofExcept _) fun _ => .pure _

theorem still_redundant (levels : Array Bool) (depth : Nat) (top : Bool) (v : Nat) :
    Keeps Still (redundant levels depth top v : SolverM ε Bool) := by
  induction depth generalizing top v with
  | zero =>
    unfold redundant
    refine .bind .get fun s => ?_
    dsimp only
    split
    · exact .pure _
    · split
      · exact .pure _
      · split <;> exact .pure _
  | succ depth ih =>
    unfold redundant
    refine .bind .get fun s => ?_
    dsimp only
    split
    · exact .pure _
    · split
      · exact .pure _
      · split
        · exact .pure _
        · refine .bind (still_minimizeReason _ _) fun others => ?_
          have hnote : ∀ b, Keeps Still (do
              modify fun s => s.noteRedundant v b
              return b : SolverM ε Bool) := fun b =>
            .bind (.modify fun s => ⟨⟨rfl, rfl, rfl, .of_eq rfl (Nat.le_refl _) rfl (size_modify ..), .refl _⟩,
              rfl, rfl, rfl, rfl⟩) fun _ => .pure _
          cases others with
          | none => exact hnote false
          | some others => exact .bind (.allM (fun l => ih _ _) _) hnote

theorem size_clearMinimized (s : Solver ε) : s.clearMinimized.assignment.size = s.assignment.size := by
  unfold clearMinimized
  rw [← Array.foldl_toList]
  exact size_foldl_modify s.minimized.toList id _ _

theorem still_minimize (level : Nat) : Keeps Still (minimize level : SolverM ε Unit) :=
  .bind .get fun _ => .bind (.modify fun _ => ⟨⟨rfl, rfl, rfl, .refl _, .refl _⟩, rfl, rfl, rfl, rfl⟩) fun _ =>
    .bind .get fun _ => .bind (.filterM (fun _ => .bind (still_redundant _ _ _ _) fun _ => .pure _) _) fun _ =>
      .modify fun s =>
        ⟨⟨rfl, rfl, rfl, .of_eq rfl (Nat.le_refl _) rfl (size_clearMinimized s), .refl _⟩, rfl, rfl, rfl, rfl⟩

theorem size_unsetAll (ls : List Literal) (a : Assignment) : (ls.foldl Assignment.unset a).size = a.size := by
  induction ls generalizing a with
  | nil => rfl
  | cons l ls ih => exact ih _

theorem stable_reinsert (o : Orders) (v : Nat) : (o.reinsert v).stable = o.stable := by
  unfold Orders.reinsert
  split <;> rfl

theorem stable_reinsertAll (ls : List Literal) (o : Orders) :
    (ls.foldl (fun o l => o.reinsert l.var) o).stable = o.stable := by
  induction ls generalizing o with
  | nil => rfl
  | cons l ls ih => exact (ih _).trans (stable_reinsert o l.var)

theorem stable_bump (o : Orders) (a : Assignment) (vs : List Nat) (conflicts : Nat) :
    (o.bump a vs conflicts).2.stable = o.stable := by
  unfold Orders.bump
  split <;> rfl

theorem timed_backtrack (s : Solver ε) (k : Nat) : Timed s (s.backtrack k) := by
  by_cases hk : k < s.trail.level
  · obtain ⟨phases, hp, he⟩ := backtrack_eq s hk
    rw [he]
    exact ⟨rfl, rfl, rfl, .of_eq rfl (Nat.le_refl _) ((Phases.size_saveAll _ _).trans (congrArg Array.size hp))
      (size_unsetAll _ _), .of_eq (stable_reinsertAll _ _) rfl rfl rfl⟩
  · rw [backtrack_of_le s (Nat.le_of_not_lt hk)]
    exact refl_of Timed s

theorem still_bumpAnalyzed (s : Solver ε) : Still s s.bumpAnalyzed :=
  ⟨⟨rfl, rfl, rfl, .of_eq rfl (Nat.le_refl _) rfl (size_foldl_modify _ id _ _),
    .of_eq (stable_bump ..) rfl rfl rfl⟩, rfl, rfl, rfl, rfl⟩

theorem still_averageGlue (s : Solver ε) (glue : Nat) : Still s (s.averageGlue glue) := by
  unfold averageGlue
  dsimp only
  split
  · exact ⟨⟨rfl, rfl, rfl, .refl _, ⟨rfl, rfl⟩, rfl, 1, rfl⟩, rfl, rfl, rfl, rfl⟩
  · exact ⟨⟨rfl, rfl, rfl, .refl _, .refl _⟩, rfl, rfl, rfl, rfl⟩

theorem still_placeSecond (s : Solver ε) : Still s s.placeSecond.2 := by
  unfold placeSecond
  dsimp only
  split
  · exact refl_of Still s
  · exact ⟨⟨rfl, rfl, rfl, .refl _, .refl _⟩, rfl, rfl, rfl, rfl⟩

theorem timed_analyze (key : Key) : Keeps Timed (analyze key : SolverM ε Analysis) := by
  refine .bind .get fun s => .bind (keeps_ofExcept _) fun ls => .bind .get fun s => ?_
  dsimp only
  split
  · exact .pure _
  refine .bind (.modify fun s => timed_backtrack s _) fun _ => keeps_timed (keeps_forward ?_)
  refine .bind (.modify fun _ => ⟨⟨rfl, rfl, rfl, .refl _, .refl _⟩, rfl, rfl, rfl, rfl⟩) fun _ =>
    .bind (still_noteAll _ _) fun _ => .bind .get fun _ => .bind (still_resolve _ _ _) fun _ =>
      .bind (.modify fun _ => ⟨⟨rfl, rfl, rfl, .refl _, .refl _⟩, rfl, rfl, rfl, rfl⟩) fun _ => .bind .get fun s =>
        .when (still_minimize _) fun _ => ?_
  exact .bind .get fun _ => .bind (.modifyGet still_placeSecond) fun _ => .bind (.modify still_bumpAnalyzed) fun _ =>
    .bind (.modify fun s => still_averageGlue s _) fun _ => .pure _

/-! ## Learning -/

theorem still_mark (s : Solver ε) (ls : Array Literal) (b : Bool) : Still s (s.mark ls b) :=
  ⟨⟨rfl, rfl, rfl, .refl _, .refl _⟩, rfl, rfl, rfl, rfl⟩

theorem still_subsumeRecent (s : Solver ε) (clause : Array Literal) : Still s (s.subsumeRecent clause) := by
  have hone : ∀ (s : Solver ε) r, Still s (subsumeOne clause.size s r) := fun s r => by
    unfold subsumeOne
    split
    · have h := still_onStore (Store.sameEpoch_markGarbage r) s
      unfold Ends at h
      dsimp only
      split <;> rename_i he <;> rw [he] at h
      all_goals exact ⟨⟨h.stopped, h.limits, h.conflicts, h.lasting, h.clocked⟩, h.trail, h.reductions, h.iterating,
        h.unflushed⟩
    · exact refl_of Still s
  unfold subsumeRecent
  split
  · exact refl_of Still s
  · exact trans_of Still (still_mark s clause true)
      (trans_of Still (List.foldl_related hone _ _) (still_mark _ clause false))

theorem still_exportClause (s : Solver ε) (clause : Array Literal) (glue : Nat) :
    Still s (s.exportClause clause glue) := by
  unfold exportClause
  split
  · exact refl_of Still s
  · dsimp only
    split <;> exact ⟨⟨rfl, rfl, rfl, .refl _, .refl _⟩, rfl, rfl, rfl, rfl⟩

theorem still_storeRedundant (clause : Array Literal) (glue : Nat) :
    Keeps Still (storeRedundant clause glue : SolverM ε Reference) :=
  .bind (still_onStore (Store.sameEpoch_allocate clause true glue)) fun _ => .bind .get fun _ =>
    .bind (still_onStore (Store.sameEpoch_updateFlags _ _)) fun _ =>
      .bind (.modify fun _ => ⟨⟨rfl, rfl, rfl, .refl _, .refl _⟩, rfl, rfl, rfl, rfl⟩) fun _ => .pure _

theorem size_set (a : Assignment) (l : Literal) (level : Nat) (reason : Reason) :
    (a.set l level reason).size = a.size := Array.size_setIfInBounds ..

theorem forward_assign (s : Solver ε) (l : Literal) (reason : Reason) : Forward s (s.assign l reason) := by
  obtain ⟨u, he⟩ := assign_eq s l reason
  rw [he]
  exact ⟨⟨rfl, rfl, rfl, .of_eq rfl (Nat.le_refl _) rfl (size_set ..), .refl _⟩, rfl, by simp [Trail.size_push]⟩

/-! ## Propagation -/

theorem forward_assignForced (s : Solver ε) (l : Literal) (r : Reference) : Forward s (s.assignForced l r) := by
  unfold assignForced
  dsimp only
  split
  · obtain ⟨h, hf, hs⟩ := forward_assign ((({ s with derived := s.derived.push (-s.trail.decision 1, l) }).count
      fun c => { c with hyperBinaries := c.hyperBinaries + 1 })) l (.binary (-s.trail.decision 1))
    exact ⟨⟨h.stopped, h.limits, h.conflicts, h.lasting, h.clocked⟩, hf, hs⟩
  · exact forward_assign s l _

theorem forward_visitWatch (no : Literal) (w : Watch) (s : Solver ε) : Forward s (s.visitWatch no w).2 := by
  unfold visitWatch
  cases w with
  | binary other redundant hyper =>
    dsimp only
    split
    · exact refl_of Forward s
    · exact refl_of Forward s
    · exact forward_assign s _ _
  | large blocking r =>
    have h := still_onStore (Store.sameEpoch_visit s.assignment no r) s
    dsimp only
    split
    · exact refl_of Forward s
    unfold Ends at h
    split <;> rename_i he <;> rw [he] at h
    · exact h.forward
    split
    · exact h.forward
    · exact trans_of Forward h.forward (still_watches _ _).forward
    · exact trans_of Forward h.forward (forward_assignForced _ _ _)
    · exact h.forward

theorem forward_propagateList (no : Literal) (ws : List Watch) (kept : Array Watch) (s : Solver ε) :
    Forward s (propagateList no ws kept s).2 := by
  refine propagateList_run (I := fun _ _ s' => Forward s s') (E := fun out => Forward s out.2) (fun _ _ h => h)
    (fun {w rest gone s₁ x s₂} h he => ?_) (fun {w rest gone s₁ e s₂} h he => ?_) (refl_of Forward s)
  · have hstep := forward_visitWatch no w s₁
    rw [he] at hstep
    exact trans_of Forward h hstep
  · have hstep := forward_visitWatch no w s₁
    rw [he] at hstep
    exact trans_of Forward h hstep

theorem forward_propagateLiteral (l : Literal) : Keeps Forward (propagateLiteral l : SolverM ε Unit) := fun s => by
  have h := forward_propagateList (-l) (s.watches.of (-l)).toList #[] { s with watches := s.watches.set (-l) #[] }
  obtain ⟨⟨h1, h2, h3, h4, h5⟩, h6, h7⟩ := h
  unfold Ends propagateLiteral
  dsimp only
  cases (propagateList (-l) (s.watches.of (-l)).toList #[] { s with watches := s.watches.set (-l) #[] }).1.1 with
  | none => exact ⟨⟨h1, h2, h3, h4, h5⟩, h6, h7⟩
  | some e => exact ⟨⟨h1, h2, h3, h4, h5⟩, h6, h7⟩

theorem forward_propagateMany (n : Nat) : Keeps Forward (propagateMany n : SolverM ε Unit) := by
  induction n with
  | zero => exact .throw _
  | succ n ih =>
    intro s
    unfold propagateMany
    rw [ends_bind, ends_get]
    cases hx : s.trail.next? with
    | none => exact refl_of Forward s
    | some x =>
      obtain ⟨l, trail⟩ := x
      have hnext : ∃ p, trail = { s.trail with propagated := p } := by
        unfold Trail.next? at hx
        split at hx
        · exact ⟨_, (Prod.mk.inj (Option.some.inj hx)).2.symm⟩
        · simp at hx
      obtain ⟨p, rfl⟩ := hnext
      have hgo : Keeps Forward (do
          propagateLiteral l
          propagateMany n : SolverM ε Unit) := .bind (forward_propagateLiteral l) fun _ => ih
      rw [ends_bind, ends_modify, ends_bind, ends_modify]
      have hstep : Forward s (count (fun c => { c with propagations := c.propagations + 1 })
          { s with trail := { s.trail with propagated := p } }) :=
        ⟨⟨rfl, rfl, rfl, .refl _, .refl _⟩, rfl, Nat.le_refl _⟩
      exact (hgo _).imp (fun _ _ h => trans_of Forward hstep h) fun _ _ h => trans_of Forward hstep h

theorem forward_propagate : Keeps Forward (propagate : SolverM ε Unit) :=
  .bind .get fun _ => forward_propagateMany _

theorem forward_propagatePass : Keeps Forward (propagatePass : SolverM ε (Option Key)) := fun s => by
  have h := forward_propagate s
  unfold Ends propagatePass at *
  cases hx : propagate s with
  | ok _ s' => rwa [hx] at h
  | error e s' =>
    rw [hx] at h
    cases e <;> exact h

theorem forward_propagateRoot : Keeps Forward (propagateRoot : SolverM ε Bool) := fun s => by
  have h := forward_propagate s
  unfold Ends propagateRoot at *
  cases hx : propagate s with
  | ok _ s' => rwa [hx] at h
  | error e s' =>
    rw [hx] at h
    obtain ⟨⟨h1, h2, h3, h4, h5⟩, h6, h7⟩ := h
    cases e <;> exact ⟨⟨h1, h2, h3, h4, h5⟩, h6, h7⟩

/-! ## Before the search -/

theorem still_removeMarked (rs : List Reference) : Keeps Still (removeMarked rs : SolverM ε Unit) := by
  induction rs with
  | nil => exact .pure _
  | cons r rs ih =>
    have hextend : ∀ (s : Solver ε) b l c, Still s (s.extendBy b l c) := fun s b l c => by
      unfold extendBy
      split <;> exact ⟨⟨rfl, rfl, rfl, .refl _, .refl _⟩, rfl, rfl, rfl, rfl⟩
    unfold removeMarked
    refine .bind .get fun s => .bind (keeps_ofExcept _) fun c => ?_
    dsimp only
    split
    · split
      · exact .bind (.modify fun s => hextend s _ _ _) fun _ =>
          .bind (still_onStore (Store.sameEpoch_markGarbage r)) fun _ => ih
      · exact ih
    · exact ih

theorem still_removeMarkedBinary (s : Solver ε) (c : BinaryClause) : Still s (removeMarkedBinary s c) := by
  unfold removeMarkedBinary extendBy
  dsimp only
  split <;> exact ⟨⟨rfl, rfl, rfl, .refl _, .refl _⟩, rfl, rfl, rfl, rfl⟩

theorem still_eliminate (s : Solver ε) (l : Literal) : Still s (s.eliminate l) :=
  ⟨⟨rfl, rfl, rfl, .refl _, .refl _⟩, rfl, rfl, rfl, rfl⟩

theorem still_removePure (ls : List Literal) : Keeps Still (do
    modify fun s => s.mark ls.toArray true
    removeMarked (← get).store.references
    modify fun s =>
      let found := s.watches.binaries.filter fun c => s.isMarked c.a || s.isMarked c.b
      let s := found.foldl removeMarkedBinary s
      ls.foldl eliminate (s.mark ls.toArray false)
    collect 0 .dense
    return ls.length : SolverM ε Nat) := by
  refine .bind (.modify fun s => still_mark s _ true) fun _ => .bind .get fun _ =>
    .bind (still_removeMarked _) fun _ => .bind (.modify fun s => ?_) fun _ =>
      .bind (still_collect 0 .dense) fun _ => .pure _
  exact trans_of Still (List.foldl_related still_removeMarkedBinary _ s)
    (trans_of Still (still_mark _ _ false) (List.foldl_related still_eliminate _ _))

theorem still_eliminatePure : Keeps Still (eliminatePure : SolverM ε Nat) := by
  unfold eliminatePure
  refine .bind .get fun s => ?_
  dsimp only
  split
  · exact .pure _
  · exact still_removePure _

theorem still_eliminateRounds (n : Nat) : Keeps Still (eliminateRounds n : SolverM ε Unit) := by
  induction n with
  | zero => exact .throw _
  | succ n ih =>
    unfold eliminateRounds
    refine .bind (.modifyGet still_isTerminated) fun b => ?_
    split
    · exact .pure _
    · refine .bind (.recover still_eliminatePure fun _ => .throw _) fun k => ?_
      split
      · exact .pure _
      · exact ih

theorem forward_preprocess : Keeps Forward (preprocess : SolverM ε Unit) := by
  refine .bind .get fun s => .when (.throw _) fun _ => .bind forward_propagateRoot fun b => ?_
  split
  · exact .bind .get fun _ => keeps_forward (still_eliminateRounds _)
  · exact .pure _

/-! ## Adding clauses -/

theorem still_beginInput : Keeps Still (beginInput : SolverM ε Unit) := by
  refine .bind .get fun s => ?_
  split
  · exact .modify fun _ => ⟨⟨rfl, rfl, rfl, .refl _, .refl _⟩, rfl, rfl, rfl, rfl⟩
  · exact .modify fun _ => ⟨⟨rfl, rfl, rfl, .refl _, .refl _⟩, rfl, rfl, rfl, rfl⟩
  · exact .throw _

theorem still_importLiterals (es : List Int) : Keeps Still (importLiterals es : SolverM ε (List Literal)) := by
  induction es with
  | nil => exact .pure _
  | cons e es ih =>
    exact .bind .get fun _ => .bind (keeps_ofExcept _) fun _ =>
      .bind (.modify fun _ => ⟨⟨rfl, rfl, rfl, .refl _, .refl _⟩, rfl, rfl, rfl, rfl⟩) fun _ =>
        .bind ih fun _ => .pure _

theorem still_ensureVariables (s : Solver ε) : Still s s.ensureVariables := by
  unfold ensureVariables
  dsimp only
  split
  · exact refl_of Still s
  · rename_i hn
    refine ⟨⟨rfl, rfl, rfl, ⟨⟨0, rfl, Nat.le_refl _⟩, fun hs => ?_⟩, .refl _⟩, rfl, rfl, rfl, rfl⟩
    have ha : s.assignment.size < s.numbering.size := Nat.lt_of_not_le hn
    have hp : s.phases.saved.size < s.numbering.size := hs ▸ ha
    rw [Assignment.growTo, Phases.growTo, if_pos ha, if_pos hp]
    unfold Assignment.size at hs ha ⊢
    simp only [Array.size_append, Array.size_replicate]
    omega

theorem forward_addLiterals (ls : List Literal) : Keeps Forward (addLiterals ls : SolverM ε Unit) := by
  unfold addLiterals
  split
  · exact .modify fun _ => ⟨⟨rfl, rfl, rfl, .refl _, .refl _⟩, rfl, Nat.le_refl _⟩
  · exact .bind (.modify fun s => forward_assign s _ _) fun _ => .bind forward_propagateRoot fun _ => .pure _
  · exact .modify fun s => (still_watches s _).forward
  · exact .bind (keeps_forward (still_onStore (Store.sameEpoch_allocate _ _ _))) fun _ =>
      .modify fun s => (still_watches s _).forward

theorem forward_addChecked (clause : List Int) : Keeps Forward (addChecked clause : SolverM ε Unit) := by
  refine .bind (keeps_forward (still_importLiterals _)) fun ls =>
    .bind (.modify fun s => (still_ensureVariables s).forward) fun _ => .bind .get fun s => ?_
  split
  · exact .pure _
  · split
    · exact .pure _
    · exact forward_addLiterals _

theorem forward_addClause (clause : List Int) : Keeps Forward (addClause clause : SolverM ε Unit) :=
  .bind (keeps_forward still_beginInput) fun _ => .bind .get fun _ => .when (.throw _) fun _ =>
    .bind (keeps_ofExcept _) fun _ => forward_addChecked _

theorem forward_addLiteral (e : Int) : Keeps Forward (addLiteral e : SolverM ε Unit) := by
  refine .bind (keeps_forward still_beginInput) fun _ => ?_
  split
  · exact .bind .get fun _ => .bind (.modify fun _ => ⟨⟨rfl, rfl, rfl, .refl _, .refl _⟩, rfl, Nat.le_refl _⟩) fun _ =>
      forward_addChecked _
  · exact .bind (keeps_ofExcept _) fun _ => .modify fun _ => ⟨⟨rfl, rfl, rfl, .refl _, .refl _⟩, rfl, Nat.le_refl _⟩

/-! ## Learning -/

theorem timed_count (s : Solver ε) {f : Counters → Counters} (hc : (f s.counters).conflicts = s.counters.conflicts)
    (hl : (f s.counters).collections = s.counters.collections) (hn : (f s.counters).clock = s.counters.clock) :
    Timed s (s.count f) :=
  ⟨rfl, rfl, hc, .of_eq rfl (Nat.le_of_eq hl.symm) rfl rfl, .of_eq rfl hn rfl rfl⟩

theorem timed_storeLearned (clause : Array Literal) (jump glue : Nat) :
    Keeps Timed (storeLearned clause jump glue : SolverM ε Unit) := by
  have hassign : ∀ (s : Solver ε) a reason, Timed s (s.assign a reason) := fun s a reason =>
    (forward_assign s a reason).toTimed
  have hsub : ∀ (s : Solver ε) a reason, Timed s ((s.assign a reason).subsumeRecent clause) := fun s a reason =>
    (hassign s a reason).trans (still_subsumeRecent _ _).toTimed
  unfold storeLearned
  split
  · exact .pure _
  · refine .modify fun s => (timed_backtrack s 0).trans ?_
    generalize s.backtrack 0 = t
    exact (hassign t _ .unit).trans ⟨rfl, rfl, rfl, .of_eq rfl (Nat.le_refl _) rfl rfl, .of_eq rfl rfl rfl rfl⟩
  · next a b _ =>
    refine .modify fun s => (timed_backtrack s (s.backtrackLevel jump)).trans ?_
    dsimp only
    generalize s.backtrack (s.backtrackLevel jump) = t
    have h := (still_watches t (t.watches.addBinary a b true false)).toTimed.trans (hsub _ a (.binary b))
    generalize subsumeRecent _ clause = u at h ⊢
    exact h.trans (timed_count u rfl rfl rfl)
  · next a _ _ _ _ =>
    refine .bind (.modify fun s => timed_backtrack s _) fun _ =>
      .bind (keeps_timed (keeps_forward (still_storeRedundant _ _))) fun r =>
        .modify fun s => (hsub s a (.large r)).trans ?_
    dsimp only
    generalize (s.assign a (.large r)).subsumeRecent clause = u
    exact ⟨rfl, rfl, rfl, .of_eq rfl (Nat.le_refl _) rfl rfl, .of_eq rfl rfl rfl rfl⟩

theorem timed_learn (jump glue : Nat) : Keeps Timed (learn jump glue : SolverM ε Unit) := by
  refine .bind .get fun s => .bind (.modify fun s => ⟨rfl, rfl, rfl, .refl _, .refl _⟩) fun _ =>
    .bind (timed_storeLearned _ _ _) fun _ => .modify fun s' => ?_
  dsimp only
  split
  · exact ⟨rfl, rfl, rfl, .refl _, .refl _⟩
  · exact (still_exportClause s' s.learned glue).toTimed.trans ⟨rfl, rfl, rfl, .refl _, .refl _⟩

/-- Some levels were taken back, and a literal was assigned. -/
structure Jumped (a : Literal) (s s' : Solver ε) : Prop extends Timed s s' where
  /-- The level that was gone back to, and the trail after that. -/
  trail : ∃ k < s.trail.level, s'.trail = (s.trail.truncate k).push a

theorem Jumped.still {a : Literal} (h : Jumped a s s') (h' : Still s' s'') : Jumped a s s'' := by
  obtain ⟨k, hk, ht⟩ := h.trail
  exact ⟨h.toTimed.trans h'.toTimed, k, hk, h'.trail.trans ht⟩

/-- After that something may be noted. -/
theorem Jumped.note {a : Literal} {iterating : Bool} {recent : Recent} {counters : Counters} (h : Jumped a s s')
    (hc : counters.conflicts = s'.counters.conflicts) (hl : counters.collections = s'.counters.collections)
    (hn : counters.clock = s'.counters.clock) : Jumped a s { s' with iterating, recent, counters } :=
  ⟨h.toTimed.trans ⟨rfl, rfl, hc, .of_eq rfl (Nat.le_of_eq hl.symm) rfl rfl, .of_eq rfl hn rfl rfl⟩, h.trail⟩

theorem jumped_assign {k : Nat} (hk : k < s.trail.level) (h : Still (s.backtrack k) s') (a : Literal)
    (reason : Reason) : Jumped a s (s'.assign a reason) := by
  refine ⟨(timed_backtrack s k).trans (h.toTimed.trans (forward_assign s' a reason).toTimed), k, hk, ?_⟩
  obtain ⟨u, he⟩ := assign_eq s' a reason
  obtain ⟨phases, -, he'⟩ := backtrack_eq s hk
  rw [he]
  change s'.trail.push a = _
  rw [h.trail, he']

theorem jumped_storeLearned {clause : Array Literal} {a : Literal} {rest : List Literal} {jump : Nat}
    (hl : clause.toList = a :: rest) (hj : jump < s.trail.level) (glue : Nat) :
    Ends (storeLearned clause jump glue) s (fun _ s' => Jumped a s s') fun _ s' => Timed s s' := by
  obtain ⟨-, hk, -⟩ := backtrackLevel_spec s hj
  unfold storeLearned
  rw [hl]
  rcases rest with _ | ⟨b, _ | ⟨c, rest⟩⟩
  · rw [ends_modify]
    exact (jumped_assign (Nat.zero_lt_of_lt hj) (refl_of Still _) a .unit).note rfl rfl rfl
  · rw [ends_modify]
    have hwatch := still_watches (s.backtrack (s.backtrackLevel jump))
      ((s.backtrack (s.backtrackLevel jump)).watches.addBinary a b true false)
    have h := (jumped_assign hk hwatch a (.binary b)).still (still_subsumeRecent _ clause)
    dsimp only
    generalize subsumeRecent _ clause = u at h ⊢
    exact h.note rfl rfl rfl
  · simp only [ends_bind, ends_modify]
    refine (still_storeRedundant clause glue _).imp (fun r s₂ h₂ => ?_) fun _ s₂ h₂ => ?_
    · have h := (jumped_assign hk h₂ a (.large r)).still (still_subsumeRecent _ clause)
      generalize (s₂.assign a (.large r)).subsumeRecent clause = u at h ⊢
      exact h.note rfl rfl rfl
    · exact (timed_backtrack s _).trans h₂.toTimed

/-- To learn a clause is to go back and to assign its first literal, as far as the trail is concerned. -/
theorem jumped_learn {a : Literal} {rest : List Literal} {jump : Nat} (hl : s.learned.toList = a :: rest)
    (hj : jump < s.trail.level) (glue : Nat) :
    Ends (learn jump glue) s (fun _ s' => Jumped a s s') fun _ s' => Timed s s' := by
  unfold learn
  simp only [ends_bind, ends_get, ends_modify]
  refine (jumped_storeLearned (s := { s with learned := #[] }) hl hj glue).imp (fun _ s' h => ?_) fun _ s' h => ?_
  · have hexport : Still s' (if s.learned.isEmpty then s' else s'.exportClause s.learned glue) := by
      split
      · exact refl_of Still s'
      · exact still_exportClause s' s.learned glue
    have hj := h.still hexport
    exact ⟨⟨hj.stopped, hj.limits, hj.conflicts, hj.lasting, hj.clocked⟩, hj.trail⟩
  · exact ⟨h.stopped, h.limits, h.conflicts, h.lasting, h.clocked⟩

end Solver

end ClauseLearning
