import ClauseLearning.Proofs.Asserting
import ClauseLearning.Proofs.Shadowing
import ClauseLearning.Proofs.Trial

/-!
# Binary clauses derived during propagation

Where a solver is told to derive binary clauses, a literal that a clause of the store forces on the first level is given
another reason, which is that the decision of the level implies it.  This is sound, since all that is on the level
follows from the decision, and it does not change where propagation leads.  The next sparse collection drops such a
clause, unless it is a reason then.

* `Solver.SameDerived`, `Solver.Readies` — steps that leave derived clauses alone.
* `Solver.KeepsReasons` — what a sparse collection does to derived clauses, with `Solver.ends_collect_kept`.
* `Solver.Derives` — what propagation comes to where clauses are derived, next to what it comes to otherwise.
* `Solver.propagate_derives` — propagation on the first level, and sparse collections.
-/

namespace ClauseLearning

/-- Another watch that is added does not matter. -/
theorem Watches.mem_view_add_iff {w : Watches} {m l : Literal} {x y : Watch} (hne : y ≠ x) :
    y ∈ (w.add m x).view l ↔ y ∈ w.view l := by
  rw [view_add_eq, List.mem_append, or_iff_left]
  split
  · simpa using hne
  · simp

namespace Solver

variable {ε α : Type} {s s' : Solver ε} {start p : Nat}

/-! ## Steps of a collection -/

/-- The same clauses that were derived during propagation are watched. -/
def SameDerived (s s' : Solver ε) : Prop :=
  ∀ l o r, .binary o r true ∈ s'.watches.view l ↔ .binary o r true ∈ s.watches.view l

/-- Besides, the assignment stays. -/
def Readies (s s' : Solver ε) : Prop := s'.assignment = s.assignment ∧ SameDerived s s'

instance : Std.Refl (SameDerived (ε := ε)) := ⟨fun _ _ _ _ => Iff.rfl⟩
instance : IsTrans (Solver ε) SameDerived := ⟨fun _ _ _ h h' l o r => (h' l o r).trans (h l o r)⟩

instance : Std.Refl (Readies (ε := ε)) := ⟨fun _ => ⟨rfl, fun _ _ _ => Iff.rfl⟩⟩
instance : IsTrans (Solver ε) Readies := ⟨fun _ _ _ h h' => ⟨h'.1.trans h.1, trans_of SameDerived h.2 h'.2⟩⟩

/-- Whatever is done to the store alone leaves the watches alone. -/
theorem readies_onStore (x : StoreM α) : Keeps Readies (onStore x : SolverM ε α) := fun s =>
  (ends_onStore x).2 <| by
    unfold Ends
    cases x s.store <;> exact refl_of Readies s

theorem readies_pinLiterals (pin : Bool) (ls : List Literal) : Keeps Readies (pinLiterals pin ls : SolverM ε Unit) := by
  induction ls with
  | nil => exact .pure _
  | cons l ls ih =>
    unfold pinLiterals
    refine .bind .get fun s => ?_
    dsimp only
    split
    · exact .bind (readies_onStore _) fun _ => ih
    · exact ih

theorem readies_pinReasons (pin : Bool) : Keeps Readies (pinReasons pin : SolverM ε Unit) :=
  .bind .get fun _ => readies_pinLiterals pin _

theorem readies_candidates (rs : List Reference) (start : Nat) :
    Keeps Readies (candidates rs start : SolverM ε (Nat × List Candidate)) := by
  induction rs generalizing start with
  | nil => exact .pure _
  | cons r rs ih =>
    refine .bind (readies_onStore _) fun _ => .bind .get fun s => ?_
    dsimp only
    split
    · exact ih _
    · split
      · exact .bind (readies_onStore _) fun _ => ih _
      · exact .bind (ih _) fun _ => .pure _

theorem readies_markAll (cs : List Candidate) (start : Nat) : Keeps Readies (markAll cs start : SolverM ε Nat) := by
  induction cs generalizing start with
  | nil => exact .pure _
  | cons c cs ih => exact .bind (readies_onStore _) fun _ => ih _

/-- A clause that is made of a stored one was not derived during propagation. -/
theorem mem_addBinary_derived {w : Watches} {a b l o : Literal} {r red : Bool} :
    .binary o r true ∈ (w.addBinary a b red false).view l ↔ .binary o r true ∈ w.view l := by
  rw [Watches.addBinary, Watches.mem_view_add_iff (by simp), Watches.mem_view_add_iff (by simp)]

theorem readies_simplifyAll (rs : List Reference) : Keeps Readies (simplifyAll rs : SolverM ε Unit) := by
  induction rs with
  | nil => exact .pure _
  | cons r rs ih =>
    have hone : Keeps Readies (simplifyOne r : SolverM ε Unit) := by
      refine .bind .get fun s => .bind (keeps_ofExcept _) fun c => ?_
      dsimp only
      split
      · exact .pure _
      · exact .bind (readies_onStore _) fun _ => .pure _
      · exact .bind (.modify fun s => ⟨rfl, fun _ _ _ => mem_addBinary_derived⟩) fun _ =>
          .bind (readies_onStore _) fun _ => .pure _
      · exact .bind (.modify fun s => ⟨rfl, fun _ _ _ => Iff.rfl⟩) fun _ => readies_onStore _
    exact .bind hone fun _ => ih

/-- A sparse sweep stores binary clauses, but none that was derived. -/
theorem sameDerived_sweep (start : Nat) (s : Solver ε) : SameDerived s (s.sweep start .sparse).2 := by
  refine Store.sweep_keeps
    (P := fun x : Assignment × Watches => ∀ l o r, .binary o r true ∈ x.2.view l ↔ .binary o r true ∈ s.watches.view l)
    (fun x old new c hx l o r => ?_) s.store _ (s.assignment, s.watches) fun _ _ _ => Iff.rfl
  unfold sparseRule
  dsimp only
  split
  · exact hx l o r
  split
  · exact hx l o r
  split
  · exact hx l o r
  split
  · split <;> exact mem_addBinary_derived.trans (hx l o r)
  · split <;> exact hx l o r

theorem sameDerived_retag (t : Store.Relocation) (mode : CollectMode) (s : Solver ε) :
    SameDerived s (retag t mode s) := by
  intro l o r
  unfold retag
  dsimp only
  split
  · dsimp only
    rw [view_map, List.mem_map]
    constructor
    · rintro ⟨w, hw, he⟩
      cases w with
      | binary o' r' y' => exact he ▸ hw
      | large b c => simp [carryWatch] at he
    · exact fun hw => ⟨_, hw, rfl⟩
  · exact Iff.rfl

theorem sameDerived_rewatchAll (rs : List Reference) : Keeps SameDerived (rewatchAll rs : SolverM ε Unit) := by
  induction rs with
  | nil => exact .pure _
  | cons r rs ih =>
    refine .bind ((readies_onStore _).mono fun _ _ h => h.2) fun _ => .bind (.modify fun s => ?_) fun _ => ih
    intro l o r
    dsimp only
    rw [Watches.addLarge, Watches.mem_view_add_iff (by simp), Watches.mem_view_add_iff (by simp)]
    rfl

/-! ## Sparse collections -/

/-- Of the clauses that were derived during propagation, those are still watched which were the reason of a literal. -/
def KeepsReasons (s s' : Solver ε) : Prop :=
  ∀ l o r, .binary o r true ∈ s'.watches.view l ↔
    .binary o r true ∈ s.watches.view l ∧ s.assignment.isBinaryReason l o = true

/-- A sparse collection drops a derived clause which is no reason, or one of whose literals is assigned at the root. -/
theorem ends_collect_kept (start : Nat) (s : Solver ε) :
    Ends (collect start .sparse) s (fun _ s' => ∀ l o r, .binary o r true ∈ s'.watches.view l ↔
      .binary o r true ∈ s.watches.view l ∧ keepsWatch s.assignment start l (.binary o r true) = true)
      fun _ _ => True := by
  have hafter : ∀ (t : Store.Relocation) (from' : Nat), Keeps SameDerived (do
      modify (retag t .sparse)
      rewatch from'
      pinReasons false
      modify fun s => { s with recent := s.recent.clear } : SolverM ε Unit) := fun t from' =>
    .bind (.modify fun s => sameDerived_retag t .sparse s) fun _ =>
      .bind (.bind .get fun _ => sameDerived_rewatchAll _) fun _ =>
        .bind ((readies_pinReasons false).mono fun _ _ h => h.2) fun _ => .modify fun _ _ _ _ => Iff.rfl
  unfold collect
  rw [ends_bind, ends_modify, ends_bind]
  refine (readies_pinReasons true _).imp (fun _ s₁ h₁ => ?_) fun _ _ _ => trivial
  obtain ⟨ha, hsame⟩ := h₁
  rw [ends_bind, ends_modify, ends_bind, ends_modifyGet]
  refine (hafter _ _ _).imp (fun _ s₂ h₂ l o r => ?_) fun _ _ _ => trivial
  have hsweep := sameDerived_sweep start (s₁.flushWatches start) l o r
  rw [h₂ l o r, hsweep, view_flushWatches, List.mem_filter, hsame l o r, ha]
  rfl

/-- A binary clause that is a reason is not settled at the root. -/
theorem Inv.keepsWatch_reason {lags : Prop} (h : s.Inv lags p) {l o : Literal} {r : Bool} :
    keepsWatch s.assignment start l (.binary o r true) = true ↔ s.assignment.isBinaryReason l o = true := by
  -- where the one literal is true because of the other one, both are above the root
  have habove : ∀ {l o}, s.assignment.value l = .tt → s.assignment.reason l = .binary o →
      s.assignment.fixed l = .unassigned ∧ s.assignment.fixed o = .unassigned := by
    intro l o ht hr
    obtain ⟨i, hi, rfl⟩ := Trail.exists_at' (h.val_tt.1 ht)
    obtain ⟨h1, -, h2⟩ := (h.grounded i hi).binary hr
    exact ⟨Assignment.fixed_of_level (Nat.ne_of_gt h1), Assignment.fixed_of_level (Nat.ne_of_gt h2)⟩
  simp only [keepsWatch, Bool.not_true, Bool.false_or]
  refine ⟨fun hk => ?_, fun hr => ?_⟩
  · split at hk
    · simp at hk
    · exact hk
  · have hfixed : s.assignment.fixed l = .unassigned ∧ s.assignment.fixed o = .unassigned := by
      simp only [Assignment.isBinaryReason, Bool.or_eq_true, Bool.and_eq_true, decide_eq_true_eq] at hr
      rcases hr with ⟨ht, hr⟩ | ⟨ht, hr⟩
      · exact habove ht hr
      · exact (habove ht hr).symm
    simp only [hfixed, Value.isAssigned, Bool.or_self, Bool.false_eq_true, if_false, hr]

/-- A sparse collection, after steps that leave derived clauses alone. -/
theorem Readies.ends_collect {lags : Prop} (h : Readies s s') (hinv : s.Inv lags p) (start : Nat) :
    Ends (Solver.collect start .sparse) s' (fun _ s'' => KeepsReasons s s'') fun _ _ => True := by
  obtain ⟨ha, hsame⟩ := h
  refine (ends_collect_kept start s').imp (fun _ s'' hk l o r => ?_) fun _ _ _ => trivial
  rw [hk l o r, hsame l o r, ha, hinv.keepsWatch_reason]

/-- A reduction. -/
theorem Inv.ends_reduce_derived {lags : Prop} (h : s.Inv lags p) :
    Ends reduce s (fun _ s' => KeepsReasons s s') fun _ _ => True := by
  unfold reduce
  rw [ends_bind, ends_modify, ends_bind]
  refine (readies_pinReasons true _).imp (fun _ s₁ h₁ => ?_) fun _ _ _ => trivial
  rw [ends_bind, ends_get, ends_bind]
  refine (readies_candidates _ _ s₁).imp (fun x s₂ h₂ => ?_) fun _ _ _ => trivial
  rw [ends_bind]
  refine (readies_pinReasons false s₂).imp (fun _ s₃ h₃ => ?_) fun _ _ _ => trivial
  dsimp only
  rw [ends_bind, ends_get, ends_bind]
  refine (readies_markAll _ _ s₃).imp (fun start s₄ h₄ => ?_) fun _ _ _ => trivial
  have hall : Readies s s₄ := trans_of Readies (trans_of Readies h₁ h₂) (trans_of Readies h₃ h₄)
  rw [ends_bind]
  exact (hall.ends_collect h start).imp (fun _ _ hk => hk) fun _ _ _ => trivial

/-- A simplification. -/
theorem Inv.ends_simplify_derived {lags : Prop} (h : s.Inv lags p) (hfull : s.trail.propagated = s.trail.size)
    (hi : s.inconsistent = false) : Ends simplify s (fun _ s' => KeepsReasons s s') fun _ _ => True := by
  have hroot : propagateRoot s = .ok true s := by
    simp only [propagateRoot, propagate_full hfull]
  unfold simplify
  simp only [ends_bind, ends_get, ends_ite, ends_throw, ends_pure, ends_modify, hi, Bool.false_eq_true,
    ends_of_ok hroot]
  refine ⟨fun _ => trivial, fun _ => ⟨False.elim, fun _ => ⟨fun _ => ?_, fun hb => absurd trivial hb⟩⟩⟩
  refine (readies_simplifyAll _ _).imp (fun _ s₁ h₁ => ?_) fun _ _ _ => trivial
  have hall : Readies s s₁ := h₁
  exact (hall.ends_collect h 0).imp (fun _ _ hk => hk) fun _ _ _ => trivial

/-! ## Propagation on the first level -/

/-- Of two states in which propagation ended after it was started in the state `s`, clauses of the decision with the
literals `ls` were derived in the first one, and none in the second one. -/
structure Derives (s : Solver ε) (ls : List Literal) (x y : Solver ε) : Prop where
  /-- Apart from the assignment and the watches, the states differ in the setting and in the count of such clauses. -/
  same : y = x.beside s y.assignment y.watches
  /-- The clauses are stored. -/
  stored : x.derived = #[]
  /-- They are counted. -/
  counted : x.counters.hyperBinaries = s.counters.hyperBinaries + ls.length
  /-- Their literals are among those that were assigned, in this order. -/
  assigned : ∃ new, x.trail.literals.toList = s.trail.literals.toList ++ new ∧ ls.Sublist new
  /-- They have the clauses as their reasons, on the first level, and the assignment differs in nothing else. -/
  recast : x.assignment.Recast (-s.trail.decision 1) ls y.assignment
  /-- The lists of watches differ in those of the clauses. -/
  inserted : ∀ l, Inserted (derivedWatches (-s.trail.decision 1) ls l) (y.watches.view l) (x.watches.view l)
  /-- Without them the binary clauses are those that there were. -/
  binary : ∀ l, (y.watches.view l).filter Watch.isBinary = (s.watches.view l).filter Watch.isBinary
  /-- The literals are true, and the decision, which was made before, is true too, so that its negation is false. -/
  valid : x.val (-s.trail.decision 1) = .ff ∧ ∀ o ∈ ls, x.val o = .tt ∧
    ∃ i j, i < j ∧ j < x.trail.size ∧ x.trail.at' i = s.trail.decision 1 ∧ x.trail.at' j = o
  /-- The clauses follow from the stored clauses and the literals assigned at the root. -/
  entailed : ∀ o ∈ ls, ∀ v : Valuation, (∀ c redundant, s.Stored c redundant → v.Satisfies c) →
    (∀ l ∈ s.trail.literals, s.assignment.level l = 0 → v.makesTrue l = true) → v.Satisfies [-s.trail.decision 1, o]

/-- Two states side by side, if the invariant holds in the one in which clauses were derived and nothing is known there
that did not follow. -/
theorem Beside.derives {lags : Prop} {x y : Solver ε} {i : Nat}
    (h : Beside s (fun l => (s.watches.view l).filter Watch.isBinary) x y) (hs : s.Inv lags p)
    (hc : s.inconsistent = false) (hx : x.Inv lags i) (hknown : ∀ v, s.Holds v → x.Holds v) :
    ∃ ls, Derives s ls x y := by
  obtain ⟨ls, a, w, rfl, h⟩ := h
  have hcount := h.counted
  have hassigned := h.assigned
  have hrecast := h.recast
  rw [List.append_nil] at hcount hassigned hrecast
  have hmem : ∀ o ∈ ls, o ∈ x.trail.literals := fun o ho => h.mem (List.mem_append_left _ ho)
  have hdecision : s.trail.decision 1 ∈ x.trail.literals := by
    rw [← h.decision]
    exact hx.trail.decision_mem (Nat.le_refl _) (Nat.le_of_eq h.level.symm)
  refine ⟨ls, rfl, hx.stored, hcount, hassigned, hrecast, h.inserted, h.base, ⟨?_, fun o ho => ⟨?_, ?_⟩⟩, ?_⟩
  · exact hx.val_ff.2 (by rwa [Literal.negate_negate])
  · exact hx.val_tt.2 (hmem o ho)
  · -- what a literal has as its reason became false before
    obtain ⟨j, hj, rfl⟩ := Trail.exists_at' (hmem o ho)
    obtain ⟨-, hr⟩ := hrecast.forced _ ho
    obtain ⟨-, hup, -⟩ := (hx.grounded j hj).binary hr
    rw [Literal.negate_negate] at hup
    obtain ⟨k, hk, -, he⟩ := Trail.mem_upTo.1 hup
    exact ⟨k, j, hk, hj, he, rfl⟩
  · intro o ho v hstored hroot
    obtain ⟨-, hr⟩ := hrecast.forced o ho
    obtain ⟨m, hm, ht⟩ := (hknown v (hs.holds_of_stored hc hstored hroot)).reasons o (hmem o ho) _ hr
    exact ⟨m, by simpa [or_comm] using hm, ht⟩

variable {C : Settings} {hooks : Hooks ε} {limits : Limits} {stopped : Bool} {outside : ε}

/-- **Deriving binary clauses is sound and does not change propagation.**  On the first level propagation ends alike
with the setting on or off, in a conflict in the same clause or in none, and in states that differ in what was derived
only.  The clauses that are derived follow from what was stored, and are good reasons for the literals that get them as
their reasons.  Each sparse collection, be it by itself or within a reduction or a simplification, drops those derived
clauses from both their lists which are no reason then. -/
theorem propagate_derives (h : Reached C hooks limits stopped outside (.underway, s)) (h1 : s.trail.level = 1)
    (hon : s.settings.keep.hyperBinaries.value = true) :
    (∃ ls, (∃ x y, propagate s = .ok () x ∧ propagate s.plain = .ok () y ∧ Derives s ls x y) ∨
      ∃ key x y, propagate s = .error (.conflict key) x ∧ propagate s.plain = .error (.conflict key) y ∧
        Derives s ls x y) ∧
    ∀ t, Reached C hooks limits stopped outside (.quiet, t) →
      (∀ start, t.store.Stop start → ∃ t', collect start .sparse t = .ok () t' ∧ KeepsReasons t t') ∧
      (∃ t', reduce t = .ok () t' ∧ KeepsReasons t t') ∧
      (t.trail.level = 0 → t.inconsistent = false → ∃ t', simplify t = .ok () t' ∧ KeepsReasons t t') := by
  constructor
  · obtain ⟨hinv, hc⟩ := Reached.stands h
    have hends := ends_propagate hinv
    have hbeside := hinv.shaped.propagate_beside h1 hon hinv.stored
    unfold Ends at hends
    generalize propagate s = rx at hends hbeside ⊢
    generalize propagate s.plain = ry at hbeside ⊢
    cases hbeside with
    | ok hb =>
      obtain ⟨hx, -, hk⟩ := hends
      obtain ⟨ls, hd⟩ := hb.derives hinv hc hx hk.refines.holds
      exact ⟨ls, .inl ⟨_, _, rfl, rfl, hd⟩⟩
    | error hb =>
      obtain ⟨key, rfl, hconf, hk⟩ := hends
      obtain ⟨i, hx, -⟩ := hconf.inv
      obtain ⟨ls, hd⟩ := hb.derives hinv hc hx hk.refines.holds
      exact ⟨ls, .inr ⟨key, _, _, rfl, rfl, hd⟩⟩
  · intro t ht
    obtain ⟨hinv, hfull⟩ := Reached.stands ht
    have hself : Readies t t := refl_of Readies t
    refine ⟨fun start hstop => ?_, ?_, fun h0 hi => ?_⟩
    · have hends : Ends (collect start .sparse) t (fun _ t' => Collected (false = false) t t') fun _ _ => False :=
        ends_collect (hinv.collectable hfull hstop) (fun _ => hinv.watched) hinv.toClean hinv.stored
      obtain ⟨⟨⟩, t', he, -⟩ := hends.exists_ok
      exact ⟨t', he, (hself.ends_collect hinv start).of_ok he⟩
    · obtain ⟨⟨⟩, t', he, -⟩ := (ends_reduce hinv hfull).exists_ok
      exact ⟨t', he, hinv.ends_reduce_derived.of_ok he⟩
    · obtain ⟨⟨⟩, t', he, -⟩ := (ends_simplify hinv hfull h0 hi).exists_ok
      exact ⟨t', he, (hinv.ends_simplify_derived hfull hi).of_ok he⟩

/-- The decision implies two literals by binary clauses and a third one by a clause of the store, for which one binary
clause is derived. -/
theorem propagate_derives_third : ∃ (C : Settings) (s x y : Solver Unit) (ls : List Literal),
    Reached C {} {} false () (.underway, s) ∧ s.trail.level = 1 ∧ s.settings.keep.hyperBinaries.value = true ∧
      propagate s = .ok () x ∧ propagate s.plain = .ok () y ∧ Derives s ls x y ∧ ls.length = 1 ∧
        x.trail.literals = #[⟨6⟩, ⟨2⟩, ⟨4⟩, ⟨0⟩] := by
  obtain ⟨s₀, place, s, hload, hrun, htest⟩ := exists_trial
    (fresh { keep := { hyperBinaries := .switch true } } {} {} false ())
    [.clause [-4, 2], .clause [-4, 3], .clause [-2, -3, 1]] 0
    (fun place s => place = .propagated ∧ s.inconsistent = false ∧ s.iterating = false ∧ s.unassigned ≠ 0 ∧
      s.decide.2.trail.level = 1 ∧ s.decide.2.settings.keep.hyperBinaries.value = true ∧
        ∃ x ∈ result? propagate s.decide.2, x.2.trail.literals = #[⟨6⟩, ⟨2⟩, ⟨4⟩, ⟨0⟩] ∧
          x.2.counters.hyperBinaries = s.decide.2.counters.hyperBinaries + 1) (by decide +kernel)
  obtain ⟨rfl, hi, hit, hu, h1, hon, ⟨_, x⟩, hx, htrail, hcount⟩ := of_decide_eq_true htest
  have hreached := (Run.reached hload hrun).tail (.decide hi hit hu)
  have hok : propagate s.decide.2 = .ok () x := result?_eq_some.1 hx
  obtain ⟨ls, ⟨x', y, hx', hy, hd⟩ | ⟨key, x', y, hx', -, -⟩⟩ := (propagate_derives hreached h1 hon).1
  · obtain rfl := (EStateM.Result.ok.inj (hok.symm.trans hx')).2
    have hlength : ls.length = 1 := Nat.add_left_cancel (hd.counted.symm.trans hcount)
    exact ⟨_, _, x, y, ls, hreached, h1, hon, hx', hy, hd, hlength, htrail⟩
  · cases hok.symm.trans hx'

end Solver

end ClauseLearning
