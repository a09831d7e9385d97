import ClauseLearning.Proofs.RootSimplification
import ClauseLearning.Proofs.Clausework
import ClauseLearning.Proofs.Jumping

/-!
# Adding a clause

A clause that is added before a solve is refused as a whole, or taken in as a whole.  If it is refused, nothing changes
but the status.  If it is taken in, its variables are known from then on, and the models of what is never dropped are
those models from before which satisfy the clause.  What was imported from outside takes part in the propagation at the
end, so it may rule out more models if it does not follow from the rest.

Nothing of this depends on which variables were eliminated.  So a clause may mention them: the state is looked at with
no variable eliminated, which no procedure that adds clauses can tell from the state itself.

* `Solver.knowing` — more variables are known.
* `Inv.exists_reopened`, `Solver.Rested` — the invariant with no variable eliminated.
* `Solver.Absorbs` — what is left of a clause was stored or assigned, with `Solver.Quiet.absorbs`.
* `Solver.Entered` — a clause was added, with `Solver.Rested.ends_addChecked`.
* `Solver.Before`, `Solver.Extensible` — states that clauses may be added to.
* `Solver.addClause_exact` — adding a clause, whole or literal by literal.
* `Solver.addClause_loses_model` — a clause from outside that does not follow from the others.
-/

namespace ClauseLearning

namespace Numbering

variable {e : Int} {es : List Int} {n : Nat}

theorem check_eq_ok : check e = .ok () ↔ e ≠ 0 ∧ e.natAbs ≤ greatestExternal := by
  refine ⟨Solver.Numbering.check_ok, fun h => ?_⟩
  unfold check
  rw [if_neg h.1, if_neg (Nat.not_lt.2 h.2)]

/-- The greatest magnitude of some literals. -/
def greatest (es : List Int) : Nat := es.foldr (fun e n => max e.natAbs n) 0

theorem natAbs_le_greatest (h : e ∈ es) : e.natAbs ≤ greatest es := by
  induction es with
  | nil => simp at h
  | cons a es ih =>
    rcases List.mem_cons.1 h with rfl | h
    · exact Nat.le_max_left _ _
    · exact Nat.le_trans (ih h) (Nat.le_max_right _ _)

theorem greatest_le (h : ∀ e ∈ es, e.natAbs ≤ n) : greatest es ≤ n := by
  induction es with
  | nil => exact Nat.zero_le n
  | cons a es ih =>
    have ha : a.natAbs ≤ n := h a (List.mem_cons_self ..)
    exact Nat.max_le.2 ⟨ha, ih fun e he => h e (List.mem_cons_of_mem _ he)⟩

/-- Literals that are not all in order are refused by the check. -/
theorem exists_forM_check (h : ∃ e ∈ es, ¬ (e ≠ 0 ∧ e.natAbs ≤ greatestExternal)) :
    ∃ fault, es.forM check = .error fault := by
  cases hc : es.forM check with
  | error fault => exact ⟨fault, rfl⟩
  | ok u =>
    obtain ⟨e, he, hbad⟩ := h
    exact absurd (check_eq_ok.1 (Solver.Loaded.check_of_forM hc e he)) hbad

theorem forM_check (h : ∀ e ∈ es, check e = .ok ()) : es.forM check = .ok () := by
  induction es with
  | nil => rfl
  | cons e es ih =>
    rw [List.forM, h e (List.mem_cons_self ..)]
    exact ih fun e he => h e (List.mem_cons_of_mem _ he)

/-- So many variables, none of which is eliminated. -/
def unbroken (n : Nat) : Numbering := ⟨Array.replicate n false⟩

theorem size_unbroken (n : Nat) : (unbroken n).size = n := Array.size_replicate

theorem isEliminated_unbroken (n v : Nat) : (unbroken n).isEliminated v = false := by
  unfold unbroken isEliminated
  rw [Array.getD_eq_getD_getElem?, Array.getElem?_replicate]
  split <;> rfl

theorem usable_unbroken (n v : Nat) : (unbroken n).Usable v ↔ v < n := by
  unfold Usable
  rw [size_unbroken, isEliminated_unbroken, and_iff_left rfl]

end Numbering

/-- What holds of the image of an end was true of the end. -/
theorem Blind.ends {σ τ α : Type} {f : σ → τ} {x : EStateM Fault σ α} {y : EStateM Fault τ α} {s : σ} {t : τ}
    {Q : α → τ → Prop} {E : Fault → τ → Prop} (h : Blind f x y) (hs : f s = t) (hy : Ends y t Q E) :
    Ends x s (fun a s' => Q a (f s')) fun e s' => E e (f s') := by
  unfold Ends at *
  rw [← hs, h s] at hy
  cases hx : x s with
  | ok a s' =>
    rw [hx] at hy
    exact hy
  | error e s' =>
    rw [hx] at hy
    exact hy

namespace Solver

variable {ε ε' : Type} {lags : Prop} {s s' t : Solver ε} {v : Valuation} {clause : List Int} {c c' : List Literal}
  {n p : Nat}

/-! ## More variables -/

/-- The state in which all variables up to `n` are known. -/
def knowing (s : Solver ε) (n : Nat) : Solver ε := ensureVariables { s with numbering := s.numbering.growTo n }

theorem knowing_eq (s : Solver ε) (n : Nat) : ∃ assignment watches phases orders marks active,
    s.knowing n = { s with
      numbering := s.numbering.growTo n, assignment, watches, phases, orders, marks, active } := by
  obtain ⟨a, w, ph, o, m, k, he⟩ := ensureVariables_eq { s with numbering := s.numbering.growTo n }
  exact ⟨a, w, ph, o, m, k, he⟩

section Knowing

variable (s : Solver ε) (n : Nat)

@[simp] theorem knowing_numbering : (s.knowing n).numbering = s.numbering.growTo n := by
  obtain ⟨a, w, ph, o, m, k, he⟩ := knowing_eq s n
  rw [he]

@[simp] theorem knowing_store : (s.knowing n).store = s.store := by
  obtain ⟨a, w, ph, o, m, k, he⟩ := knowing_eq s n
  rw [he]

@[simp] theorem knowing_trail : (s.knowing n).trail = s.trail := by
  obtain ⟨a, w, ph, o, m, k, he⟩ := knowing_eq s n
  rw [he]

@[simp] theorem knowing_inconsistent : (s.knowing n).inconsistent = s.inconsistent := by
  obtain ⟨a, w, ph, o, m, k, he⟩ := knowing_eq s n
  rw [he]

@[simp] theorem knowing_pending : (s.knowing n).pending = s.pending := by
  obtain ⟨a, w, ph, o, m, k, he⟩ := knowing_eq s n
  rw [he]

@[simp] theorem knowing_status : (s.knowing n).status = s.status := by
  obtain ⟨a, w, ph, o, m, k, he⟩ := knowing_eq s n
  rw [he]

@[simp] theorem knowing_hooks : (s.knowing n).hooks = s.hooks := by
  obtain ⟨a, w, ph, o, m, k, he⟩ := knowing_eq s n
  rw [he]

@[simp] theorem knowing_learned : (s.knowing n).learned = s.learned := by
  obtain ⟨a, w, ph, o, m, k, he⟩ := knowing_eq s n
  rw [he]

end Knowing

theorem Quiet.knowing (h : s.Quiet lags) (hn : n ≤ Numbering.greatestExternal) : (s.knowing n).Quiet lags := by
  have hinv : (s.knowing n).Inv lags s.trail.size := h.inv.ensureVariables hn
  refine ⟨?_, ?_, (knowing_inconsistent s n).trans h.consistent⟩
  · rwa [knowing_trail]
  · rw [knowing_trail]
    exact h.full

theorem base_knowing : (s.knowing n).Base v ↔ s.Base v := (grow_same s n v).2

theorem Quiet.holds_knowing (h : s.Quiet lags) (h0 : s.trail.level = 0) (hv : s.Fulfils v) : (s.knowing n).Holds v :=
  (grow_same s n v).1.2 (h.inv.holds h0 h.consistent hv)

/-- Literals that were checked are usable once their variables are known, if these are not eliminated. -/
theorem usable_knowing (hc : ∀ e ∈ clause, Numbering.check e = .ok ())
    (hne : ∀ e ∈ clause, s.numbering.isEliminated (e.natAbs - 1) = false) :
    ∀ l ∈ clause.map Numbering.toLiteral, (s.knowing (Numbering.greatest clause)).numbering.Usable l.var := by
  intro l hl
  obtain ⟨e, hm, rfl⟩ := List.mem_map.1 hl
  have hpos : e.natAbs ≠ 0 := Int.natAbs_ne_zero.2 (Numbering.check_ok (hc e hm)).1
  have hle := Numbering.natAbs_le_greatest hm
  rw [Numbering.toLiteral, Literal.var_make, knowing_numbering]
  refine ⟨?_, (Numbering.isEliminated_growTo _ _ _).trans (hne e hm)⟩
  rw [Numbering.size_growTo]
  omega

/-- Literals that were checked are imported one after another. -/
theorem importLiterals_eq {es : List Int} (h : ∀ e ∈ es, Numbering.check e = .ok ()) (s : Solver ε) :
    importLiterals es s = .ok (es.map Numbering.toLiteral)
      { s with numbering := s.numbering.growTo (Numbering.greatest es) } := by
  induction es generalizing s with
  | nil =>
    rw [show s.numbering.growTo (Numbering.greatest []) = s.numbering from Numbering.growTo_of_le (Nat.zero_le _)]
    rfl
  | cons e es ih =>
    have he : Numbering.check e = .ok () := h e (List.mem_cons_self ..)
    have hrest := ih (fun e he => h e (List.mem_cons_of_mem _ he))
      { s with numbering := s.numbering.growTo e.natAbs }
    rw [Numbering.growTo_growTo] at hrest
    rw [importLiterals, get_bind_apply, bind_apply, Numbering.import?, he]
    simp only [Except.map, ofExcept]
    rw [modify_bind_apply, bind_apply, hrest]
    rfl

section Checked

variable (h : ∀ e ∈ clause, Numbering.check e = .ok ())
include h

/-- After a refutation a clause is not looked at. -/
theorem addChecked_inconsistent (hi : (s.knowing (Numbering.greatest clause)).inconsistent = true) :
    addChecked clause s = .ok () (s.knowing (Numbering.greatest clause)) := by
  unfold Solver.knowing at hi ⊢
  unfold addChecked
  rw [bind_apply, importLiterals_eq h]
  dsimp only
  rw [modify_bind_apply, get_bind_apply, if_pos hi]
  rfl

/-- A clause that is satisfied anyway is not stored. -/
theorem addChecked_useless (hi : (s.knowing (Numbering.greatest clause)).inconsistent = false)
    (hr : (s.knowing (Numbering.greatest clause)).assignment.rootClause (clause.map Numbering.toLiteral) = .useless) :
    addChecked clause s = .ok () (s.knowing (Numbering.greatest clause)) := by
  unfold Solver.knowing at hi hr ⊢
  unfold addChecked
  rw [bind_apply, importLiterals_eq h]
  dsimp only
  rw [modify_bind_apply, get_bind_apply, if_neg (by rw [hi]; decide), hr]
  rfl

/-- Of any other clause the literals that are left are stored. -/
theorem addChecked_literals (hi : (s.knowing (Numbering.greatest clause)).inconsistent = false)
    (hr : (s.knowing (Numbering.greatest clause)).assignment.rootClause (clause.map Numbering.toLiteral) =
      .literals c') :
    addChecked clause s = addLiterals c' (s.knowing (Numbering.greatest clause)) := by
  unfold Solver.knowing at hi hr ⊢
  unfold addChecked
  rw [bind_apply, importLiterals_eq h]
  dsimp only
  rw [modify_bind_apply, get_bind_apply, if_neg (by rw [hi]; decide), hr]

end Checked

/-! ## No variable eliminated -/

/-- There are orders of any variables, all of which may still be decided. -/
theorem exists_orders (C : Settings) (n : Nat) : ∃ o : Orders, o.Valid n (· < n) ∧ o.Covers (· < n) := by
  rcases Nat.eq_zero_or_pos n with rfl | hpos
  · exact ⟨.ofSettings C, (Orders.valid_ofSettings C).congr fun v => iff_of_false (Nat.not_lt_zero v) id,
      Orders.covers_of_not _ Nat.not_lt_zero⟩
  · obtain ⟨hvalid, hall⟩ := (Orders.valid_ofSettings C).growTo (Orders.covers_of_not _ fun _ => not_false) hpos
    exact ⟨_, hvalid.congr fun v => by simp, hall.mono fun v hv => .inr ⟨Nat.zero_le v, hv⟩⟩

/-- The same solver with the same clauses is in order if no variable is taken for an eliminated one. -/
theorem Inv.exists_reopened (h : s.Inv lags p) : ∃ t : Solver ε, t.numbering.size = s.numbering.size ∧
    (∀ v, t.numbering.isEliminated v = false) ∧ (within t s).Inv lags p := by
  have hsize := Numbering.size_unbroken s.numbering.size
  have husable := Numbering.usable_unbroken s.numbering.size
  have hmono : ∀ v, s.numbering.Usable v → (Numbering.unbroken s.numbering.size).Usable v := fun v hv =>
    (husable v).2 hv.1
  obtain ⟨orders, hvalid, hcovers⟩ := exists_orders s.settings s.numbering.size
  refine ⟨{ s with
    numbering := .unbroken s.numbering.size
    orders
    active := s.numbering.size
    iterating := false }, hsize, Numbering.isEliminated_unbroken _, ?_⟩
  refine { h with
    sized := hsize.symm ▸ h.sized
    few := hsize.symm ▸ h.few
    lists := hsize.symm ▸ h.lists
    trail := h.trail.mono fun l hl => hmono _ (h.trail.usable l hl)
    orders := hsize.symm ▸ hvalid.congr husable
    covers := hcovers.mono fun v hv => (husable v).1 hv.1
    active := ?_
    iterating := fun hi => by simp [within] at hi
    store := ⟨h.store.chain, h.store.nodup, fun o ho l hl => hmono _ (h.store.usable o ho l hl)⟩
    paired := h.paired.mono hmono
    marks := hsize.symm ▸ h.marks }
  show s.numbering.size = _
  rw [List.filter_eq_self.2 fun v _ => by rw [within, Numbering.isEliminated_unbroken]; rfl, List.length_range]
  exact hsize.symm

/-- More variables are known of both. -/
theorem within_knowing (h : t.numbering.size = s.numbering.size) (n : Nat) :
    within ((within t s).knowing n) (s.knowing n) = (within t s).knowing n := by
  unfold Solver.knowing ensureVariables
  simp only [within, Numbering.size_growTo, h]
  split <;> rfl

theorem base_within : (within t s).Base v ↔ s.Base v := ⟨fun h => { h with }, fun h => { h with }⟩

theorem fulfils_within : (within t s).Fulfils v ↔ s.Fulfils v := ⟨fun h => { h with }, fun h => { h with }⟩

theorem Clausal.refl (s : Solver ε) : Clausal s s := rfl

/-- Where nothing else changed, the same clauses mean the same state. -/
theorem Clausal.eq_of_within (h : Clausal s s') (hw : within t s' = within t s) : s' = s := by
  have hround : within s (within t s') = within s (within t s) := congrArg (within s) hw
  exact Eq.trans h hround

theorem blind_addLiterals (t : Solver ε') (ls : List Literal) :
    Blind (within t) (addLiterals ls : SolverM ε Unit) (addLiterals ls) := by
  unfold addLiterals
  split
  · exact .modify fun _ => rfl
  · exact .bind (.modify fun s => assign_within t _ _ s) fun _ => .bind (blind_propagateRoot t) fun _ => .pure _
  · exact .modify fun _ => rfl
  · exact .bind (blind_onStore t _) fun _ => .modify fun _ => rfl

/-! ## What is left of a clause -/

/-- What is never dropped is the same clauses, and the literals assigned at the root. -/
theorem Rearranged.base (h : Rearranged s s') (hv : s.Base v)
    (hroot : ∀ l ∈ s'.trail.literals, v.makesTrue l = true) : s'.Base v := by
  refine ⟨fun l hl _ => hroot l hl, ?_, ?_⟩
  · intro o ho hr hg
    have ho : o ∈ s.store.offsets := h.store.offsets ▸ ho
    rw [h.store.flags o ho] at hr hg
    obtain ⟨l, hl, ht⟩ := hv.large o ho hr hg
    exact ⟨l, (h.store.perm o ho).mem_iff.2 hl, ht⟩
  · intro l o y hm
    exact hv.binary l o y ((mem_of_isBinary (h.binary l)).1 hm)

/-- A binary clause is never dropped if it is irredundant. -/
theorem Base.addBinary {a b : Literal} {r y : Bool} (hf : s.Frame) (ha : s.numbering.Usable a.var)
    (hb : s.numbering.Usable b.var) (hne : a.var ≠ b.var) (h : s.Base v) (hs : r = false → v.Satisfies [a, b]) :
    Base { s with watches := s.watches.addBinary a b r y } v := by
  have hview := Watches.view_addBinary r y (hf.code_lt ha) (hf.code_lt hb) fun he => hne (congrArg Literal.var he)
  refine { h with binary := ?_ }
  intro l o y' hm
  rw [hview] at hm
  split at hm
  · next hl =>
    rcases List.mem_append.1 hm with hm | hm
    · exact h.binary l o y' hm
    · obtain ⟨rfl, hr, -⟩ := Watch.binary.inj (List.mem_singleton.1 hm)
      exact hl ▸ hs hr.symm
  · split at hm
    · next hl =>
      rcases List.mem_append.1 hm with hm | hm
      · exact h.binary l o y' hm
      · obtain ⟨rfl, hr, -⟩ := Watch.binary.inj (List.mem_singleton.1 hm)
        obtain ⟨m, hm, ht⟩ := hs hr.symm
        exact ⟨m, by simpa [hl, or_comm] using hm, ht⟩
    · exact h.binary l o y' hm

/-- A longer clause is never dropped if it is irredundant. -/
theorem Base.append {x y : Literal} {tail : List Literal} {f : Flags} {st' : Store} (hf : s.Frame)
    (ha : Store.Appended (x :: y :: tail) f s.store st') (hc : s.store.Chain 0)
    (hn : ((x :: y :: tail).map Literal.var).Nodup) (hu : ∀ l ∈ x :: y :: tail, s.numbering.Usable l.var)
    (h : s.Base v) (hs : f.redundant = false → v.Satisfies (x :: y :: tail)) :
    Base { s with store := st', watches := s.watches.addLarge s.store.nextReference x y } v := by
  have hbin := filter_isBinary_added (view_append hf hn hu)
  refine { h with large := ?_, binary := fun l o y' hm => h.binary l o y' ((mem_of_isBinary (hbin l)).1 hm) }
  intro o ho hr hg
  rcases ha.mem_offsets.1 ho with ho | rfl
  · simp only [ha.flagsAt_old hc ho, ha.lits_old hc ho] at hr hg ⊢
    exact h.large o ho hr hg
  · simp only [ha.flags, ha.lits] at hr ⊢
    exact hs hr

/-- Unless there is a refutation, the state is in order again, and no more is never dropped than before but the clause and
the literals assigned at the root. -/
def Absorbs (lags : Prop) (c : List Literal) (s s' : Solver ε) : Prop :=
  s'.inconsistent = false → s'.Quiet lags ∧
    ∀ v, s.Base v → v.Satisfies c → (∀ l ∈ s'.trail.literals, v.makesTrue l = true) → s'.Base v

theorem Absorbs.imp (h : Absorbs lags c' s s') (hc : ∀ v, s.Base v → v.Satisfies c → v.Satisfies c') :
    Absorbs lags c s s' :=
  fun hi => ⟨(h hi).1, fun v hv hs => (h hi).2 v hv (hc v hv hs)⟩

/-- If nothing becomes assigned, everything stays propagated. -/
theorem Quiet.of_trail (h : s.Quiet lags) (hinv : s'.Inv lags s'.trail.propagated) (ht : s'.trail = s.trail)
    (hi : s'.inconsistent = s.inconsistent) : s'.Quiet lags := by
  have hfull : s'.trail.propagated = s'.trail.size := by rw [ht, h.full]
  exact ⟨hfull ▸ hinv, hfull, hi.trans h.consistent⟩

/-- The only literal that is left is assigned, and propagated. -/
theorem Quiet.absorbs_unit {a : Literal} (h : s.Quiet lags) (h0 : s.trail.level = 0)
    (ha : s.numbering.Usable a.var) (hv : s.assignment.value a = .unassigned) :
    Ends (addLiterals [a]) s (fun _ s' => Absorbs lags [a] s s') fun _ _ => False := by
  have hinv : (s.assign a .unit).Inv lags s.trail.propagated := h.live.inv.assign ha hv h.inv.trail.propagated h0
  obtain ⟨u, he⟩ := assign_eq s a .unit
  have hlive : (s.assign a .unit).Live lags := by
    rw [he] at hinv ⊢
    exact ⟨hinv, h.consistent⟩
  have hlevel : (s.assign a .unit).trail.level = 0 := by
    rw [he]
    exact h0
  unfold addLiterals
  simp only [ends_bind, ends_modify, ends_pure]
  refine (hlive.ends_propagateRoot hlevel).imp (fun b s' hs' hi => ?_) fun _ _ hf => hf.elim
  obtain ⟨htrue, hfalse⟩ := hs'
  cases b with
  | true =>
    obtain ⟨hquiet, -, hr⟩ := htrue rfl
    exact ⟨hquiet, fun v hv _ hroot => ((rearranged_assign s a .unit).trans hr).base hv hroot⟩
  | false =>
    rw [(hfalse rfl).1] at hi
    cases hi

/-- What is left of a clause is stored or assigned, unless there is no room. -/
theorem Quiet.absorbs (h : s.Quiet lags) (h0 : s.trail.level = 0) (hf : s.Fresh c') :
    Ends (addLiterals c') s (fun _ s' => Absorbs lags c' s s') fun _ _ =>
      3 ≤ c'.length ∧ Store.padding ≤ s.store.words.size + Store.headerWords + c'.length := by
  have hinv := h.live.inv
  match c' with
  | [] =>
    intro hi
    simp [refute] at hi
  | [a] =>
    exact (h.absorbs_unit h0 (hf.usable a (by simp)) (hf.unassigned a (by simp))).imp (fun _ _ hs => hs)
      fun _ _ hno => hno.elim
  | [a, b] =>
    have hne : a.var ≠ b.var := by
      have hn := hf.nodup
      simp only [List.map_cons, List.map_nil, List.nodup_cons, List.mem_singleton] at hn
      exact hn.1
    intro _
    refine ⟨h.of_trail (hf.addBinary hinv false).1 rfl rfl, fun v hv hsat _ => ?_⟩
    exact hv.addBinary h.inv.toFrame (hf.usable a (by simp)) (hf.usable b (by simp)) hne fun _ => hsat
  | a :: b :: d :: tail =>
    unfold addLiterals
    simp only [ends_bind, ends_onStore, ends_modify]
    have hc := h.inv.store.chain
    refine (Store.ends_allocate_record hc (by simp)).imp (fun r st' hst' => ?_) fun e st' he => ⟨by simp, he.2.2⟩
    obtain ⟨rfl, ha, -⟩ := hst'
    intro _
    refine ⟨h.of_trail (hf.append hinv (by simp) rfl ha).1 rfl rfl, fun v hv hsat _ => ?_⟩
    exact hv.append h.inv.toFrame ha hc hf.nodup hf.usable fun _ => hsat

/-- What is left of a clause is stored and propagated, and nothing else that is never dropped, unless there is no
room. -/
theorem Quiet.ends_addLiterals (h : s.Quiet lags) (h0 : s.trail.level = 0)
    (hu : ∀ l ∈ c, s.numbering.Usable l.var) (hc : s.assignment.rootClause c = .literals c') :
    Ends (addLiterals c') s (fun _ s' => Added lags c s s' ∧ Absorbs lags c s s')
      fun e s' => e = .exhausted ∧ s' = s ∧ 3 ≤ c'.length ∧
        Store.padding ≤ s.store.words.size + Store.headerWords + c'.length := by
  have hleft : ∀ v, s.Base v → v.Satisfies c → v.Satisfies c' := by
    intro v hv
    exact (Assignment.rootClause_satisfies hc (h.inv.makesTrue_root h0 hv.root).2).2
  have hadded := Solver.ends_addLiterals h.live.inv h0 hu hc
  refine (hadded.and (h.absorbs h0 (Fresh.of_rootClause hu hc))).imp (fun _ s' hs' => ?_) fun _ _ he => ?_
  · exact ⟨hs'.1, hs'.2.imp hleft⟩
  · exact ⟨he.1.1, he.1.2, he.2⟩

/-- A clause that is satisfied anyway is added by doing nothing. -/
theorem Quiet.added_useless (h : s.Quiet lags) (h0 : s.trail.level = 0) (hc : s.assignment.rootClause c = .useless) :
    Added lags c s s ∧ Absorbs lags c s s := by
  refine ⟨⟨⟨Refines.stores (.refl s) _, ⟨_, h.live.inv, fun _ => rfl⟩, h0, rfl⟩, fun _ v hv => ?_⟩,
    fun _ => ⟨h, fun v hv _ _ => hv⟩⟩
  exact Assignment.rootClause_useless hc (h.inv.makesTrue_root h0 hv.root).1

/-! ## One clause -/

/-- What a valuation must satisfy to be a model so far: nothing is refuted, and it satisfies what is never dropped. -/
def Allows (s : Solver ε) (v : Valuation) : Prop := s.inconsistent = false ∧ s.Base v

/-- A clause was added at the root. -/
structure Entered (clause : List Int) (s s' : Solver ε) : Prop where
  /-- Every variable up to the largest one of the clause is known, and none is eliminated or comes back. -/
  numbering : s'.numbering = s.numbering.growTo (Numbering.greatest clause)
  /-- The clause that was begun stays. -/
  pending : s'.pending = s.pending
  /-- Nothing is decided. -/
  level : s'.trail.level = 0
  /-- A refutation stays. -/
  inconsistent : s'.inconsistent = false → s.inconsistent = false
  /-- Everything is propagated. -/
  full : s'.inconsistent = false → s'.trail.propagated = s'.trail.size
  /-- No clause is unit or false. -/
  complete : s'.inconsistent = false → ∀ c r, s'.Stored c r → s'.Complete c
  /-- What is never dropped is what was there, the clause, and the literals which are assigned now. -/
  base : s'.inconsistent = false → ∀ v, s'.Base v ↔
    s.Base v ∧ v.Satisfies (clause.map Numbering.toLiteral) ∧ ∀ l ∈ s'.trail.literals, v.makesTrue l = true
  /-- All of it follows from what was there and the clause, and so does a refutation. -/
  follows : s.inconsistent = false → ∀ v, s.Fulfils v → v.Satisfies (clause.map Numbering.toLiteral) →
    s'.inconsistent = false ∧ s'.Fulfils v

/-- The status from before does not matter. -/
theorem Entered.of_status {status : Status} (h : Entered clause { s with status } s') : Entered clause s s' :=
  { h with
    base := fun hi v => (h.base hi v).trans (and_congr_left' ⟨fun hv => { hv with }, fun hv => { hv with }⟩)
    follows := fun hi v hv => h.follows hi v { hv with } }

/-- If all clauses follow from those which are never dropped, their models are those from before that satisfy the
clause. -/
theorem Entered.allows (h : Entered clause s s') (hb : s.inconsistent = false → ∀ v, s.Base v → s.Fulfils v)
    (v : Valuation) :
    s'.Allows v ↔ s.Allows v ∧ v.Satisfies (clause.map Numbering.toLiteral) := by
  constructor
  · rintro ⟨hi, hv⟩
    obtain ⟨hbase, hsat, -⟩ := (h.base hi v).1 hv
    exact ⟨⟨h.inconsistent hi, hbase⟩, hsat⟩
  · rintro ⟨⟨hi, hv⟩, hsat⟩
    obtain ⟨hi', hv'⟩ := h.follows hi v (hb hi v hv) hsat
    exact ⟨hi', ⟨hv'.root, fun o ho _ _ => hv'.large o ho, fun l o y hm => hv'.binary l o false y hm⟩⟩

/-- After a refutation only the variables become known. -/
theorem entered_of_inconsistent (hi : s.inconsistent = true) (h0 : s.trail.level = 0) :
    Entered clause s (s.knowing (Numbering.greatest clause)) := by
  have hn : ∀ {q : Prop}, s.inconsistent = false → q := by
    intro q hf
    rw [hi] at hf
    cases hf
  have hk : ∀ {q : Prop}, (s.knowing (Numbering.greatest clause)).inconsistent = false → q := by
    intro q hf
    rw [knowing_inconsistent] at hf
    exact hn hf
  refine ⟨knowing_numbering s _, knowing_pending s _, ?_, hk, hk, hk, hk, hn⟩
  rwa [knowing_trail]

/-- What comes of a clause is read off from a solver in which the same clauses are stored. -/
theorem entered_of_added {T : Solver ε} (hi : s.inconsistent = false)
    (hbase : ∀ v, T.Base v ↔ s.Base v) (hholds : ∀ v, s.Fulfils v → T.Holds v)
    (hsame : Clausal (s.knowing (Numbering.greatest clause)) s')
    (ha : Added lags (clause.map Numbering.toLiteral) T (within T s'))
    (hq : Absorbs lags (clause.map Numbering.toLiteral) T (within T s')) : Entered clause s s' := by
  have hlevel : s'.trail.level = 0 := ha.level
  have hroot : ∀ l ∈ s'.trail.literals, s'.assignment.level l = 0 := by
    intro l hl
    obtain ⟨p, hp, -⟩ := ha.settled
    exact Nat.le_zero.1 (hlevel ▸ hp.trail.level_le_of_mem hl)
  have hcomplete : s'.inconsistent = false → ∀ c r, s'.Stored c r → s'.Complete c := by
    intro hi' c r hs
    have hs : (within T s').Stored c r := hs.of_eq rfl rfl
    exact (hq hi').1.complete_root hlevel hs
  refine ⟨?_, ?_, hlevel, fun _ => hi, fun hi' => (hq hi').1.full, hcomplete, ?_, ?_⟩
  · rw [hsame]
    exact knowing_numbering s _
  · rw [hsame]
    exact knowing_pending s _
  · intro hi' v
    constructor
    · intro hv
      have hv' : (within T s').Base v := base_within.2 hv
      exact ⟨(hbase v).1 (ha.base v hv'), ha.satisfied hi' v hv', fun l hl => hv.root l hl (hroot l hl)⟩
    · rintro ⟨hv, hsat, hlits⟩
      exact base_within.1 ((hq hi').2 v ((hbase v).2 hv) hsat hlits)
  · intro _ v hv hsat
    have hv' := ha.holds v hsat (hholds v hv)
    exact ⟨hv'.consistent, fulfils_within.1 hv'.fulfils⟩

/-- A clause whose literals were checked, in a state which is in order but for what is eliminated: none of its variables
is eliminated in the solver `t`. -/
theorem Quiet.ends_addChecked (h : (within t s).Quiet lags) (h0 : s.trail.level = 0)
    (ht : t.numbering.size = s.numbering.size) (hc : ∀ e ∈ clause, Numbering.check e = .ok ())
    (hne : ∀ e ∈ clause, t.numbering.isEliminated (e.natAbs - 1) = false) :
    Ends (addChecked clause) s
      (fun _ s' => Clausal (s.knowing (Numbering.greatest clause)) s' ∧ Entered clause s s' ∧
        (within ((within t s).knowing (Numbering.greatest clause)) s').Intact lags ∧ (s'.inconsistent = false →
          (within ((within t s).knowing (Numbering.greatest clause)) s').Quiet lags))
      fun e s' => e = .exhausted ∧ s' = s.knowing (Numbering.greatest clause) ∧
        ∃ k, 3 ≤ k ∧ k ≤ clause.length ∧ Store.padding ≤ s.store.words.size + Store.headerWords + k := by
  have hn : Numbering.greatest clause ≤ Numbering.greatestExternal :=
    Numbering.greatest_le fun e he => (Numbering.check_ok (hc e he)).2
  have hT := h.knowing hn
  have hi : s.inconsistent = false := h.consistent
  have hbase : ∀ v, ((within t s).knowing (Numbering.greatest clause)).Base v ↔ s.Base v := fun v =>
    base_knowing.trans base_within
  have hholds : ∀ v, s.Fulfils v → ((within t s).knowing (Numbering.greatest clause)).Holds v := fun v hv =>
    h.holds_knowing h0 (fulfils_within.2 hv)
  have hT0 : ((within t s).knowing (Numbering.greatest clause)).trail.level = 0 := by
    rw [knowing_trail]
    exact h0
  have hstore : ((within t s).knowing (Numbering.greatest clause)).store = s.store := knowing_store _ _
  have hu := usable_knowing (s := within t s) hc hne
  have hw := within_knowing ht (s := s) (Numbering.greatest clause)
  have hi₁ := (knowing_inconsistent s (Numbering.greatest clause)).trans hi
  generalize (within t s).knowing (Numbering.greatest clause) = T at hT hbase hholds hT0 hstore hu hw ⊢
  have hassign : T.assignment = (s.knowing (Numbering.greatest clause)).assignment := by rw [← hw]; rfl
  cases hr : (s.knowing (Numbering.greatest clause)).assignment.rootClause (clause.map Numbering.toLiteral) with
  | useless =>
    obtain ⟨ha, hq⟩ : Added lags (clause.map Numbering.toLiteral) T
        (within T (s.knowing (Numbering.greatest clause))) ∧ Absorbs lags (clause.map Numbering.toLiteral) T
        (within T (s.knowing (Numbering.greatest clause))) := by
      rw [hw]
      exact hT.added_useless hT0 (hassign ▸ hr)
    rw [ends_of_ok (addChecked_useless hc hi₁ hr)]
    have hsame : Clausal (s.knowing (Numbering.greatest clause)) (s.knowing (Numbering.greatest clause)) := .refl _
    exact ⟨hsame, entered_of_added hi hbase hholds hsame ha hq, ha.settled.intact, fun hi' => (hq hi').1⟩
  | literals c' =>
    have hrun := (blind_addLiterals T c').ends hw (hT.ends_addLiterals hT0 hu (hassign ▸ hr))
    have hclausal : Keeps Clausal (addLiterals c' : SolverM ε Unit) := keeps_clausal fun t => blind_addLiterals t c'
    unfold Ends
    rw [addChecked_literals hc hi₁ hr]
    refine (hrun.and (hclausal _)).imp (fun _ s' hs' => ?_) fun e s' hs' => ?_
    · obtain ⟨⟨ha, hq⟩, hsame⟩ := hs'
      exact ⟨hsame, entered_of_added hi hbase hholds hsame ha hq, ha.settled.intact, fun hi' => (hq hi').1⟩
    · obtain ⟨⟨he, hs', h3, hroom⟩, hsame⟩ := hs'
      have hle := Assignment.length_le_of_rootClause hr
      rw [List.length_map] at hle
      exact ⟨he, hsame.eq_of_within (hs'.trans hw.symm), c'.length, h3, hle, hstore ▸ hroom⟩

/-- Everything is propagated at the root, and the invariant holds if no variable is taken for an eliminated one. -/
structure Rested (lags : Prop) (s : Solver ε) : Prop where
  /-- Nothing is decided. -/
  level : s.trail.level = 0
  /-- The invariant, with other variables eliminated, namely none. -/
  quiet : ∃ t : Solver ε, t.numbering.size = s.numbering.size ∧ (∀ v, t.numbering.isEliminated v = false) ∧
    (within t s).Quiet lags

theorem Quiet.rested (h : s.Quiet lags) (h0 : s.trail.level = 0) : s.Rested lags := by
  obtain ⟨t, hsize, hnone, hinv⟩ := h.inv.exists_reopened
  exact ⟨h0, t, hsize, hnone, hinv, h.full, h.consistent⟩

/-- A clause whose literals were checked is taken in, unless there is no room. -/
theorem Rested.ends_addChecked (h : s.Rested lags) (hc : ∀ e ∈ clause, Numbering.check e = .ok ()) :
    Ends (addChecked clause) s
      (fun _ s' => s'.status = s.status ∧ Entered clause s s' ∧ (s'.inconsistent = false → s'.Rested lags))
      fun e s' => e = .exhausted ∧ s' = s.knowing (Numbering.greatest clause) ∧ s'.Rested lags ∧
        ∃ k, 3 ≤ k ∧ k ≤ clause.length ∧ Store.padding ≤ s.store.words.size + Store.headerWords + k := by
  obtain ⟨h0, t, hsize, hnone, hq⟩ := h
  have hn : Numbering.greatest clause ≤ Numbering.greatestExternal :=
    Numbering.greatest_le fun e he => (Numbering.check_ok (hc e he)).2
  have hsize' : ((within t s).knowing (Numbering.greatest clause)).numbering.size =
      (s.numbering.growTo (Numbering.greatest clause)).size := by
    rw [knowing_numbering, Numbering.size_growTo, Numbering.size_growTo, ← hsize]
    rfl
  have hnone' : ∀ v, ((within t s).knowing (Numbering.greatest clause)).numbering.isEliminated v = false := by
    intro v
    rw [knowing_numbering]
    exact (Numbering.isEliminated_growTo _ _ _).trans (hnone v)
  refine (hq.ends_addChecked h0 hsize hc fun e _ => hnone _).imp (fun _ s' hs' => ?_) fun e s' hs' => ?_
  · obtain ⟨hsame, hentered, -, hquiet⟩ := hs'
    refine ⟨?_, hentered, fun hi => ⟨hentered.level, _, ?_, hnone', hquiet hi⟩⟩
    · rw [hsame]
      exact knowing_status s _
    · rw [hsize', hentered.numbering]
  · obtain ⟨hexhausted, rfl, hroom⟩ := hs'
    have hw := within_knowing hsize (s := s) (Numbering.greatest clause)
    refine ⟨hexhausted, rfl, ⟨?_, _, ?_, hnone', hw.symm ▸ hq.knowing hn⟩, hroom⟩
    · rwa [knowing_trail]
    · rw [hsize', knowing_numbering]

/-! ## The two ways to add one -/

section Status

variable (hst : s.status = .configuration ∨ s.status = .input)
include hst

theorem beginInput_eq : beginInput s = .ok () { s with status := .input } := by
  unfold beginInput
  rw [get_bind_apply]
  rcases hst with hst | hst
  · rw [hst]
    rfl
  · rw [hst]
    rfl

/-- A clause is refused if another one was begun, or for one of its literals. -/
theorem addClause_refused (h : s.pending ≠ #[] ∨ ∃ e ∈ clause, ¬ (e ≠ 0 ∧ e.natAbs ≤ Numbering.greatestExternal)) :
    ∃ fault, addClause clause s = .error fault { s with status := .input } := by
  unfold addClause
  rw [bind_apply, beginInput_eq hst]
  dsimp only
  rw [get_bind_apply]
  by_cases hp : s.pending = #[]
  · obtain ⟨fault, hf⟩ := Numbering.exists_forM_check (h.resolve_left fun hn => hn hp)
    rw [if_neg (by simp [hp]), bind_apply, hf]
    exact ⟨fault, rfl⟩
  · rw [if_pos (by simpa using hp)]
    exact ⟨.unterminatedClause, rfl⟩

/-- Any other clause is taken in. -/
theorem addClause_accepted (hp : s.pending = #[]) (hc : ∀ e ∈ clause, Numbering.check e = .ok ()) :
    addClause clause s = addChecked clause { s with status := .input } := by
  unfold addClause
  rw [bind_apply, beginInput_eq hst]
  dsimp only
  rw [get_bind_apply, if_neg (by simp [hp]), bind_apply, Numbering.forM_check hc]
  rfl

/-- A zero ends the clause that was begun. -/
theorem addLiteral_zero :
    addLiteral 0 s = addChecked s.pending.toList { s with status := .input, pending := #[] } := by
  unfold addLiteral
  rw [bind_apply, beginInput_eq hst]
  dsimp only
  rw [if_pos rfl, get_bind_apply, modify_bind_apply]

/-- Any other literal goes to the clause that was begun. -/
theorem addLiteral_of_check {e : Int} (he : Numbering.check e = .ok ()) :
    addLiteral e s = .ok () { s with status := .input, pending := s.pending.push e } := by
  unfold addLiteral
  rw [bind_apply, beginInput_eq hst]
  dsimp only
  rw [if_neg (Numbering.check_ok he).1, bind_apply, he]
  rfl

/-- Literals one by one, and a zero, are a clause with the literals that were there before. -/
theorem forM_addLiteral (hc : ∀ e ∈ clause, Numbering.check e = .ok ()) :
    (clause ++ [0]).forM addLiteral s =
      addChecked (s.pending.toList ++ clause) { s with status := .input, pending := #[] } := by
  induction clause generalizing s with
  | nil =>
    rw [List.nil_append, List.append_nil, List.forM, bind_apply, addLiteral_zero hst]
    cases addChecked s.pending.toList { s with status := .input, pending := #[] } <;> rfl
  | cons e clause ih =>
    have he := hc e (List.mem_cons_self ..)
    have hrest := ih (s := { s with status := .input, pending := s.pending.push e }) (.inr rfl)
      fun e he => hc e (List.mem_cons_of_mem _ he)
    rw [List.cons_append, List.forM, bind_apply, addLiteral_of_check hst he]
    simpa using hrest

end Status

/-! ## States that clauses may be added to -/

/-- The moment after clauses were added to what was propagated, which may have been a refutation. -/
def lull (s : Solver ε) : Moment := if s.inconsistent then .closed else .quiet

variable {C : Settings} {hooks : Hooks ε} {limits : Limits} {stopped : Bool} {outside : ε} {moment : Moment}
  {x y : Moment × Solver ε}

/-- What is reachable if clauses are also added once others were imported, or simplified, or the like. -/
inductive Before (C : Settings) (hooks : Hooks ε) (limits : Limits) (stopped : Bool) (outside : ε) :
    Moment × Solver ε → Prop
  /-- Before any clause was added. -/
  | fresh : Before C hooks limits stopped outside (.adding, fresh C hooks limits stopped outside)
  /-- A call. -/
  | move {x y : Moment × Solver ε} : Before C hooks limits stopped outside x → Move x y →
      Before C hooks limits stopped outside y
  /-- A clause is added at the root, after everything was propagated.  It mentions no eliminated variable. -/
  | add {s s' : Solver ε} {clause : List Int} : Before C hooks limits stopped outside (.quiet, s) → s.trail.level = 0 →
      (∀ e ∈ clause, s.numbering.isEliminated (e.natAbs - 1) = false) → addClause clause s = .ok () s' →
      Before C hooks limits stopped outside (s'.lull, s')

/-- A state at the root with everything propagated, and what clauses make of it that are added one after another.  They
may mention any variables. -/
inductive Extensible (C : Settings) (hooks : Hooks ε) (limits : Limits) (stopped : Bool) (outside : ε) :
    Solver ε → Prop
  /-- Before any clause was added. -/
  | fresh : Extensible C hooks limits stopped outside (fresh C hooks limits stopped outside)
  /-- After other calls.  The literals of a clause that was begun were checked. -/
  | before {s : Solver ε} : Before C hooks limits stopped outside (.quiet, s) → s.trail.level = 0 →
      (∀ e ∈ s.pending, Numbering.check e = .ok ()) → Extensible C hooks limits stopped outside s
  /-- Something is added. -/
  | add {s s' : Solver ε} {c : Call} : Extensible C hooks limits stopped outside s → Call.run c s = .ok () s' →
      Extensible C hooks limits stopped outside s'
  /-- It cannot be added. -/
  | refuse {s s' : Solver ε} {c : Call} {e : Fault} : Extensible C hooks limits stopped outside s →
      Call.run c s = .error e s' → Extensible C hooks limits stopped outside s'

theorem Reached.before (h : Reached C hooks limits stopped outside x) : Before C hooks limits stopped outside x := by
  induction h with
  | refl => exact .fresh
  | tail _ hmove ih => exact ih.move hmove

theorem moment_ne_adding (s : Solver ε) : s.moment ≠ .adding := by
  unfold moment
  split <;> simp

theorem Reached.extensible_of_adding (h : Reached C hooks limits stopped outside x) (hx : x.1 = .adding) :
    Extensible C hooks limits stopped outside x.2 := by
  induction h with
  | refl => exact .fresh
  | tail _ hmove ih =>
    cases hmove with
    | add hrun => exact (ih rfl).add hrun
    | refuse hrun => exact (ih rfl).refuse hrun
    | step hstep => cases hstep <;> cases hx
    | importUnit | importClause | importUnits | importClauses | preprocess => exact absurd hx (moment_ne_adding _)
    | _ => cases hx

/-- As long as clauses are added and nothing else is done, more may be added. -/
theorem Reached.extensible (h : Reached C hooks limits stopped outside (.adding, s)) :
    Extensible C hooks limits stopped outside s := h.extensible_of_adding rfl

/-- A call succeeds with a clause if nothing speaks against it. -/
theorem addClause_ok (h : addClause clause s = .ok () s') : (s.status = .configuration ∨ s.status = .input) ∧
    s.pending = #[] ∧ (∀ e ∈ clause, Numbering.check e = .ok ()) ∧
      addChecked clause { s with status := .input } = .ok () s' := by
  have hst : s.status = .configuration ∨ s.status = .input := by
    unfold addClause beginInput at h
    rw [bind_apply, get_bind_apply] at h
    cases hst : s.status with
    | configuration => exact .inl rfl
    | input => exact .inr rfl
    | _ =>
      rw [hst] at h
      cases h
  by_cases hok : s.pending = #[] ∧ ∀ e ∈ clause, Numbering.check e = .ok ()
  · exact ⟨hst, hok.1, hok.2, (addClause_accepted hst hok.1 hok.2).symm.trans h⟩
  · have hbad : s.pending ≠ #[] ∨ ∃ e ∈ clause, ¬ (e ≠ 0 ∧ e.natAbs ≤ Numbering.greatestExternal) := by
      rw [Classical.not_and_iff_not_or_not] at hok
      refine hok.imp id fun hbad => ?_
      simpa only [Numbering.check_eq_ok, not_forall, exists_prop] using hbad
    obtain ⟨fault, hf⟩ := addClause_refused hst hbad
    rw [hf] at h
    cases h

theorem Inv.setInput (h : s.Inv lags p) (status : Status) (pending : Array Int) :
    Inv lags { s with status, pending } p :=
  { h with
    toFrame := { h.toFrame with }
    toWired := { h.toWired with }
    toClean := { h.toClean with } }

/-- After a refutation a call makes room for the variables of its clause and does nothing else. -/
theorem addClause_inconsistent (hi : s.inconsistent = true) (hrun : addClause clause s = .ok () s') :
    s' = knowing { s with status := .input } (Numbering.greatest clause) := by
  obtain ⟨-, -, hc, hrun⟩ := addClause_ok hrun
  have hi₁ : (knowing { s with status := .input } (Numbering.greatest clause)).inconsistent = true := by
    rwa [knowing_inconsistent]
  exact (EStateM.Result.ok.inj ((addChecked_inconsistent hc hi₁).symm.trans hrun)).2.symm

/-- A clause that mentions no eliminated variable was added where everything was in order. -/
theorem Quiet.entered (h : s.Quiet lags) (h0 : s.trail.level = 0)
    (hne : ∀ e ∈ clause, s.numbering.isEliminated (e.natAbs - 1) = false) (hrun : addClause clause s = .ok () s') :
    Clausal (Solver.knowing { s with status := .input } (Numbering.greatest clause)) s' ∧ Entered clause s s' ∧
      s'.Intact lags ∧ (s'.inconsistent = false → s'.Quiet lags) := by
  obtain ⟨-, -, hc, hrun⟩ := addClause_ok hrun
  have hq : Quiet lags { s with status := .input } := ⟨h.inv.setInput .input s.pending, h.full, h.consistent⟩
  have hends := @Quiet.ends_addChecked _ _ { s with status := .input } { s with status := .input } _ hq h0 rfl hc hne
  obtain ⟨hsame, hentered, hintact, hquiet⟩ := hends.of_ok hrun
  have hback : within (Solver.knowing { s with status := .input } (Numbering.greatest clause)) s' = s' := hsame.symm
  exact ⟨hsame, hentered.of_status, hback ▸ hintact, fun hi => hback ▸ hquiet hi⟩

theorem Before.stands (h : Before C hooks limits stopped outside x) : Stands x := by
  induction h with
  | fresh => exact Reached.stands .refl
  | move _ hmove ih => exact hmove.stands ih
  | @add s s' clause _ h0 hne hrun ih =>
    obtain ⟨hinv, hfull⟩ := ih
    cases hi : s.inconsistent with
    | true =>
      obtain ⟨-, -, hc, -⟩ := addClause_ok hrun
      have hn : Numbering.greatest clause ≤ Numbering.greatestExternal :=
        Numbering.greatest_le fun e he => (Numbering.check_ok (hc e he)).2
      have hinv₁ := (hinv.setInput .input s.pending).ensureVariables hn
      have hi₁ : (knowing { s with status := .input } (Numbering.greatest clause)).inconsistent = true := by
        rwa [knowing_inconsistent]
      obtain rfl := addClause_inconsistent hi hrun
      unfold lull
      rw [if_pos hi₁]
      exact hinv₁.intact.settled hi₁
    | false =>
      obtain ⟨-, -, hintact, hquiet⟩ := Quiet.entered ⟨hinv, hfull, hi⟩ h0 hne hrun
      unfold lull
      split
      · next hi' => exact hintact.settled hi'
      · next hi' =>
        have hq' := hquiet (Bool.not_eq_true _ ▸ hi')
        exact ⟨hq'.inv, hq'.full⟩

/-- What is kept while clauses are added one after another. -/
structure Receptive (lags : Prop) (s : Solver ε) : Prop where
  /-- The literals of a clause that was begun were checked. -/
  checked : ∀ e ∈ s.pending, Numbering.check e = .ok ()
  /-- Unless there was a refutation, everything is in order. -/
  rested : s.inconsistent = false → s.Rested lags

namespace Receptive

theorem setInput (h : s.Receptive lags) (status : Status) {pending : Array Int}
    (hp : ∀ e ∈ pending, Numbering.check e = .ok ()) : Receptive lags { s with status, pending } := by
  refine ⟨hp, fun hi => ?_⟩
  obtain ⟨h0, t, hsize, hnone, hq⟩ := h.rested hi
  exact ⟨h0, t, hsize, hnone, hq⟩

theorem ends_addChecked (h : s.Receptive lags) (hc : ∀ e ∈ clause, Numbering.check e = .ok ()) :
    Ends (addChecked clause) s (fun _ s' => s'.Receptive lags) fun _ s' => s'.Receptive lags := by
  have hpending : (s.knowing (Numbering.greatest clause)).pending = s.pending := knowing_pending s _
  cases hi : s.inconsistent with
  | true =>
    have hi₁ : (s.knowing (Numbering.greatest clause)).inconsistent = true := by rwa [knowing_inconsistent]
    rw [ends_of_ok (addChecked_inconsistent hc hi₁)]
    refine ⟨hpending ▸ h.checked, fun hf => ?_⟩
    rw [hi₁] at hf
    cases hf
  | false =>
    refine ((h.rested hi).ends_addChecked hc).imp (fun _ s' hs' => ?_) fun e s' hs' => ?_
    · exact ⟨hs'.2.1.pending ▸ h.checked, hs'.2.2⟩
    · obtain ⟨-, rfl, hr, -⟩ := hs'
      exact ⟨hpending ▸ h.checked, fun _ => hr⟩

/-- A call that adds something, or is refused, keeps what taking in a clause keeps, if the status and a clause that was
begun do not matter for it. -/
theorem ends_call_and {P : Solver ε → Prop} (hset : ∀ s status pending, P s → P { s with status, pending })
    (hadd : ∀ s clause, s.Receptive lags → P s → (∀ e ∈ clause, Numbering.check e = .ok ()) →
      Ends (addChecked clause) s (fun _ s' => P s') fun _ s' => P s')
    (h : s.Receptive lags) (hP : P s) (c : Call) :
    Ends c.run s (fun _ s' => s'.Receptive lags ∧ P s') fun _ s' => s'.Receptive lags ∧ P s' := by
  have hbegin : Ends beginInput s (fun _ s' => s'.Receptive lags ∧ P s') fun _ s' => s'.Receptive lags ∧ P s' := by
    unfold beginInput
    simp only [ends_bind, ends_get]
    split
    · exact ⟨h.setInput .input h.checked, hset s .input s.pending hP⟩
    · exact ⟨h.setInput .input h.checked, hset s .input s.pending hP⟩
    · exact ⟨h, hP⟩
  have hchecked : ∀ {s : Solver ε} {clause}, s.Receptive lags → P s → (∀ e ∈ clause, Numbering.check e = .ok ()) →
      Ends (addChecked clause) s (fun _ s' => s'.Receptive lags ∧ P s') fun _ s' => s'.Receptive lags ∧ P s' := by
    intro s clause hr hP hc
    exact (hr.ends_addChecked hc).and (hadd s clause hr hP hc)
  cases c with
  | clause ls =>
    simp only [Call.run, addClause, ends_bind, ends_get, ends_ite, ends_throw, ends_ofExcept]
    refine hbegin.imp (fun _ s₁ h₁ => ⟨fun _ => h₁, fun _ => ⟨fun _ hc => ?_, fun _ _ => h₁⟩⟩) fun _ _ he => he
    exact hchecked h₁.1 h₁.2 (Loaded.check_of_forM hc)
  | literal e =>
    simp only [Call.run, addLiteral, ends_bind, ends_ite, ends_get, ends_modify, ends_ofExcept]
    refine hbegin.imp (fun _ s₁ h₁ => ⟨fun _ => ?_, fun _ => ⟨fun _ hc => ?_, fun _ _ => h₁⟩⟩) fun _ _ he => he
    · have hnil : Receptive lags { s₁ with pending := #[] } := h₁.1.setInput s₁.status (by simp)
      refine hchecked hnil (hset s₁ s₁.status #[] h₁.2) ?_
      intro e he
      exact h₁.1.checked e (Array.mem_toList_iff.1 he)
    · refine ⟨h₁.1.setInput s₁.status ?_, hset s₁ s₁.status _ h₁.2⟩
      intro e' he'
      rcases Array.mem_push.1 he' with he' | rfl
      · exact h₁.1.checked e' he'
      · exact hc

theorem ends_call (h : s.Receptive lags) (c : Call) :
    Ends c.run s (fun _ s' => s'.Receptive lags) fun _ s' => s'.Receptive lags := by
  have hboth := h.ends_call_and (P := fun _ => True) (fun _ _ _ => id) ?_ trivial c
  · exact hboth.imp (fun _ _ h' => h'.1) fun _ _ h' => h'.1
  · intro s clause hr _ hc
    exact (hr.ends_addChecked hc).imp (fun _ _ _ => trivial) fun _ _ _ => trivial

end Receptive

theorem Extensible.receptive (h : Extensible C hooks limits stopped outside s) : s.Receptive (false = false) := by
  induction h with
  | fresh =>
    refine ⟨fun e he => (by cases he with | mk h => cases h), fun hi => ?_⟩
    obtain ⟨p, hp, hfull⟩ := ((loaded_ofSettings C outside).configure hooks limits stopped).settled
    obtain rfl : p = 0 := hfull hi
    have hq : (Solver.fresh C hooks limits stopped outside).Quiet (false = false) := ⟨hp, rfl, hi⟩
    exact hq.rested rfl
  | before h h0 hp =>
    exact ⟨hp, fun hi => Quiet.rested ⟨h.stands.1, h.stands.2, hi⟩ h0⟩
  | add _ hrun ih => exact (ih.ends_call _).of_ok hrun
  | refuse _ hrun ih => exact (ih.ends_call _).of_error hrun

/-- As long as clauses are added and nothing else is done, all that is known follows from what is never dropped. -/
theorem Reached.fulfils_of_base (h : Reached C hooks limits stopped outside (.adding, s))
    (hi : s.inconsistent = false) (hv : s.Base v) : s.Fulfils v := by
  obtain ⟨F, hF⟩ := Reached.stands h
  exact (Loaded.holds hF v (Loaded.base hF hi v hv)).fulfils

/-! ## The whole -/

/-- Adding a clause before a solve, at the root with everything propagated.  It is refused if a clause was begun, or if
one of the literals is none, and then nothing changes but the status.  Otherwise literals one by one and a zero do the
same; and the clause is taken in, unless there is no room for it in the store.  The models of what is never dropped are
those which it had before and which satisfy the clause, if nothing but clauses was added so far, or if all clauses
follow from what is never dropped. -/
theorem addClause_exact (h : s.inconsistent = false → Extensible C hooks limits stopped outside s)
    (h0 : s.trail.level = 0) (hst : s.status = .configuration ∨ s.status = .input) (clause : List Int) :
    ((s.pending ≠ #[] ∨ ∃ e ∈ clause, e = 0 ∨ Numbering.greatestExternal < e.natAbs) →
      ∃ fault, addClause clause s = .error fault { s with status := .input }) ∧
    (s.pending = #[] → (∀ e ∈ clause, e ≠ 0 ∧ e.natAbs ≤ Numbering.greatestExternal) →
      (clause ++ [0]).forM addLiteral s = addClause clause s ∧
      ((∃ s', addClause clause s = .ok () s' ∧ s'.status = .input ∧ Entered clause s s' ∧
          (Reached C hooks limits stopped outside (.adding, s) ∨ (∀ v, s.Base v → s.Fulfils v) →
            ∀ v, s'.Allows v ↔ s.Allows v ∧ v.Satisfies (clause.map Numbering.toLiteral))) ∨
        (addClause clause s =
            .error .exhausted (knowing { s with status := .input } (Numbering.greatest clause)) ∧
          ∃ k, 3 ≤ k ∧ k ≤ clause.length ∧ Store.padding ≤ s.store.words.size + Store.headerWords + k))) := by
  refine ⟨fun hbad => ?_, fun hp hgood => ?_⟩
  · refine addClause_refused hst (hbad.imp_right ?_)
    rintro ⟨e, he, hwrong⟩
    refine ⟨e, he, fun hgood => ?_⟩
    rcases hwrong with h0 | hlarge
    · exact hgood.1 h0
    · exact absurd hgood.2 (Nat.not_le.2 hlarge)
  · have hc : ∀ e ∈ clause, Numbering.check e = .ok () := fun e he => Numbering.check_eq_ok.2 (hgood e he)
    have haccepted := addClause_accepted hst hp hc
    refine ⟨?_, ?_⟩
    · rw [forM_addLiteral hst hc, haccepted, hp]
      rfl
    rw [haccepted]
    have hmodels : ∀ s', Entered clause s s' →
        Reached C hooks limits stopped outside (.adding, s) ∨ (∀ v, s.Base v → s.Fulfils v) →
        ∀ v, s'.Allows v ↔ s.Allows v ∧ v.Satisfies (clause.map Numbering.toLiteral) := by
      intro s' he hknown
      refine he.allows fun hi v hv => ?_
      rcases hknown with hreached | hfollow
      · exact hreached.fulfils_of_base hi hv
      · exact hfollow v hv
    rcases Bool.eq_false_or_eq_true s.inconsistent with hi | hi
    · have hentered : Entered clause { s with status := .input }
          (knowing { s with status := .input } (Numbering.greatest clause)) := entered_of_inconsistent hi h0
      have hi₁ : (knowing { s with status := .input } (Numbering.greatest clause)).inconsistent = true := by
        rwa [knowing_inconsistent]
      exact .inl ⟨_, addChecked_inconsistent hc hi₁, knowing_status _ _, hentered.of_status,
        hmodels _ hentered.of_status⟩
    · have hreceptive := (h hi).receptive
      have hr := (hreceptive.setInput .input hreceptive.checked).rested hi
      have hends := hr.ends_addChecked hc
      cases hrun : addChecked clause { s with status := .input } with
      | ok u s' =>
        obtain ⟨hstatus, hentered, -⟩ := hends.of_ok hrun
        exact .inl ⟨s', rfl, hstatus, hentered.of_status, hmodels s' hentered.of_status⟩
      | error e s' =>
        obtain ⟨rfl, rfl, -, hroom⟩ := hends.of_error hrun
        exact .inr ⟨rfl, hroom⟩

/-- A literal is there twice, and a variable is new.  The clause is stored with its three literals in order. -/
theorem addClause_exact_twice : ∃ s s' : Solver Unit, Extensible {} {} {} false () s ∧ s.trail.level = 0 ∧
    s.status = .input ∧ s.pending = #[] ∧ addClause [3, -1, 3, 5] s = .ok () s' ∧ Entered [3, -1, 3, 5] s s' ∧
      (∀ v, s'.Allows v ↔ s.Allows v ∧ v.Satisfies [⟨4⟩, ⟨1⟩, ⟨4⟩, ⟨8⟩]) ∧
      [3, -1, 3, 5, 0].forM addLiteral s = .ok () s' ∧ s.numbering.size = 3 ∧ s'.numbering.size = 5 ∧
      s'.store.offsets = [0, 7] ∧ s'.store.lits 7 = [⟨1⟩, ⟨4⟩, ⟨8⟩] := by
  obtain ⟨s, s₁, ⟨⟩, s', h, hsame, hrun, htest⟩ := exists_called (fresh {} {} {} false ()) [.clause [1, 2, 3]]
    (pure ()) (addClause [3, -1, 3, 5])
    (fun s _ s' => s.trail.level = 0 ∧ s.inconsistent = false ∧ s.status = .input ∧ s.pending = #[] ∧
      s.numbering.size = 3 ∧ s'.numbering.size = 5 ∧ s'.store.offsets = [0, 7] ∧
      s'.store.lits 7 = [⟨1⟩, ⟨4⟩, ⟨8⟩]) (by decide +kernel)
  obtain rfl := (EStateM.Result.ok.inj hsame).2
  obtain ⟨h0, -, hst, hp, hrest⟩ := of_decide_eq_true htest
  have hreached : Reached {} {} {} false () (.adding, s) := h
  obtain ⟨-, hadd⟩ := addClause_exact (fun _ => hreached.extensible) h0 (.inr hst) [3, -1, 3, 5]
  obtain ⟨hsame, hadd⟩ := hadd hp (by decide)
  rcases hadd with ⟨s₂, hrun₂, -, hentered, hmodels⟩ | ⟨hrun₂, -⟩
  · obtain ⟨-, rfl⟩ := EStateM.Result.ok.inj (hrun.symm.trans hrun₂)
    exact ⟨s, s', hreached.extensible, h0, hst, hp, hrun, hentered, hmodels (.inl hreached), hsame.trans hrun, hrest⟩
  · rw [hrun] at hrun₂
    cases hrun₂

/-- A clause from outside does not follow from the others.  Once its first literal is false, because a unit is added,
the second one is true, and a model of what is never dropped is lost which satisfies the unit. -/
theorem addClause_loses_model : ∃ (s s' : Solver Unit) (v : Valuation), Extensible {} {} {} false () s ∧
    s.trail.level = 0 ∧ s.status = .input ∧ s.pending = #[] ∧ addClause [1] s = .ok () s' ∧ s.Allows v ∧
      v.Satisfies [⟨0⟩] ∧ ¬ s'.Allows v := by
  obtain ⟨s₀, s, ⟨⟩, s', h, hclause, hrun, htest⟩ := exists_called (fresh {} {} {} false ()) [.clause [1, 2, 3]]
    (importClause [-1, 2] 1) (addClause [1])
    (fun s₀ s s' => s₀.trail.level = 0 ∧ s₀.inconsistent = false ∧ s.trail.level = 0 ∧ s.inconsistent = false ∧
      s.status = .input ∧ s.pending = #[] ∧ s.trail.propagated = s.trail.size ∧ s.trail.literals.toList = [] ∧
      (∀ o ∈ s.store.offsets, Valuation.Satisfies (· != 1) (s.store.lits o)) ∧
      (∀ c ∈ s.watches.binaries, c.redundant = true) ∧
      .make 1 true ∈ s'.trail.literals.toList ∧ s'.assignment.level (.make 1 true) = 0) (by decide +kernel)
  obtain ⟨h0, hi, h0', hi', hst, hp, hfull, hnone, hlarge, hbinary, hmem, hlevel⟩ := of_decide_eq_true htest
  have hmoment : s.moment = .underway := by
    unfold moment
    rw [hi']
    rfl
  have hreached : Reached {} {} {} false () (.quiet, s) :=
    (hmoment ▸ (h.tail (.settle hi)).tail (.importClause h0 hclause)).tail (.propagate (propagate_full hfull))
  refine ⟨s, s', (· != 1), .before hreached.before h0' (by simp [hp]), h0', hst, hp, hrun, ⟨hi', ?_, ?_, ?_⟩,
    by decide, ?_⟩
  · intro l hl
    rw [← Array.mem_toList_iff, hnone] at hl
    cases hl
  · intro o ho _ _
    exact hlarge o ho
  · intro l o y hm
    rcases (Reached.stands hreached).1.paired.mem_iff.1 hm with hc | hc
    · exact Bool.noConfusion (hbinary _ hc)
    · exact Bool.noConfusion (hbinary _ hc)
  · intro hv
    exact Bool.noConfusion (hv.2.root (.make 1 true) (Array.mem_toList_iff.1 hmem) hlevel)

end Solver

end ClauseLearning
