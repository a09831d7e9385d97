import ClauseLearning.Proofs.Addition
import ClauseLearning.Proofs.Trial

/-!
# Without clauses from outside

A clause from outside is stored as a redundant one, and need not follow from the clauses that are never dropped.  Where
none is stored, everything that is there does follow: what is learnt or derived follows from what was there before, and
a unit from outside is never dropped.

The invariant is about the valuations that satisfy what is never dropped.  Such a valuation satisfies everything that is
known once the values of eliminated variables are changed, since the clauses an elimination dropped were about these.

* `Solver.SelfContained` — everything that is there follows from what is never dropped.
* `Solver.Own` — the invariant, with `Solver.Own.evolves` and `Solver.Own.selfContained`.
* `Solver.Reveals` — what is taken over makes no more known than literals assigned at the root.
* `Solver.Own.move`, `Solver.Own.addClause` — calls keep the invariant.
* `Solver.Unaided`, `Solver.Unaided.selfContained` — states that are reached without clauses from outside.
* `Solver.Run.selfContained` — the places of a solve whose hooks hand nothing in.
* `Solver.Receptive.ends_call_selfContained`, `Solver.Unaided.selfContained_calls` — clauses added one after another.
-/

namespace ClauseLearning

namespace Solver

variable {ε : Type} {lags : Prop} {s s' : Solver ε} {u v : Valuation} {clause : List Int} {l : Literal} {n p : Nat}

/-- Unless there was a refutation, everything that is there follows from what is never dropped. -/
def SelfContained (s : Solver ε) : Prop := s.inconsistent = false → ∀ v, s.Base v → s.Fulfils v

/-! ## The invariant -/

/-- Nothing is handed in by itself, and a valuation that satisfies what is never dropped satisfies all that is known if
the values of some eliminated variables are changed. -/
structure Own (s : Solver ε) : Prop where
  /-- No units are handed in. -/
  units : s.hooks.units = none
  /-- No clauses are handed in. -/
  clauses : s.hooks.clauses = none
  /-- What is known, and the clause learnt last. -/
  known : s.inconsistent = false → ∀ v, s.Base v → ∃ u, (∀ x, s.numbering.isEliminated x = false → u x = v x) ∧
    s.Holds u ∧ (s.learned = #[] ∨ u.Satisfies s.learned.toList)

/-- Everything that is there is about usable variables only. -/
theorem Inv.fulfils_congr (h : s.Inv lags p) (hv : s.Fulfils v) (hu : ∀ x, s.numbering.Usable x → u x = v x) :
    s.Fulfils u := by
  refine ⟨?_, ?_, ?_⟩
  · intro l hl h0
    exact Valuation.makesTrue_congr (hv.root l hl h0) (hu _ (h.toFrame.usable_of_mem hl))
  · intro o ho
    exact (hv.large o ho).congr fun l hl => hu _ (h.store.usable o ho l hl)
  · intro l o r y hm
    obtain ⟨hl, ho, -⟩ := h.paired.usable l o r y hm
    refine (hv.binary l o r y hm).congr ?_
    simp [hu _ hl, hu _ ho]

/-- Eliminated variables do not occur in what is there, so that their values do not matter. -/
theorem Own.selfContained (h : s.Own) (hs : s.Intact lags) : s.SelfContained := by
  intro hi v hv
  obtain ⟨u, hu, hholds, -⟩ := h.known hi v hv
  obtain ⟨p, hp⟩ := hs
  exact hp.fulfils_congr hholds.fulfils fun x hx => (hu x hx.2).symm

/-- Where clauses were added and nothing else was done, no value needs to be changed. -/
theorem Loaded.own {F : List (List Literal)} (h : s.Loaded lags F) (hu : s.hooks.units = none)
    (hc : s.hooks.clauses = none) : s.Own :=
  ⟨hu, hc, fun hi v hv => ⟨v, fun _ _ => rfl, h.holds v (h.base hi v hv), .inl h.learned⟩⟩

/-- A step that keeps every contract keeps the one of a solver that is handed nothing. -/
theorem Own.evolves (h : s.Own) (hev : Evolves s s') : s'.Own := by
  refine ⟨hev.hooks ▸ h.units, hev.hooks ▸ h.clauses, ?_⟩
  intro hi' v hv
  have hi : s.inconsistent = false := Bool.eq_false_iff.2 (mt hev.inconsistent (Bool.eq_false_iff.1 hi'))
  obtain ⟨ws, -, hws, hbase⟩ := hev.stack
  obtain ⟨u, hu, hholds, hlearned⟩ := h.known hi _ (hbase v hv)
  have htold : Told (Contract.alone h.units h.clauses u) s := ⟨rfl, trivial, fun _ => hholds, fun _ => hlearned⟩
  have htold' := hev.told _ htold
  refine ⟨u, ?_, htold'.holds trivial, htold'.learned trivial⟩
  intro x hx
  -- a variable that is not eliminated afterwards was not before, and is the one of no witness
  have hstays : s.numbering.isEliminated x = false :=
    Bool.eq_false_iff.2 (mt (hev.eliminated x) (Bool.eq_false_iff.1 hx))
  rw [hu x hstays]
  apply Extension.foldl_mend_of_ne
  intro w hw he
  rw [← he, (hws w hw).2] at hx
  cases hx

theorem Own.refines (h : s.Own) (hr : Refines s s') (hl : s'.learned = s.learned) : s'.Own :=
  h.evolves (hr.advances hl).evolves

/-- With the same variables eliminated, the same valuation is taken. -/
theorem Own.of_eq (h : s.Own) (hhooks : s'.hooks = s.hooks) (hi : s'.inconsistent = false → s.inconsistent = false)
    (hn : ∀ x, s'.numbering.isEliminated x = s.numbering.isEliminated x) (hl : s'.learned = s.learned)
    (hbase : s'.inconsistent = false → ∀ v, s'.Base v → s.Base v)
    (hholds : ∀ v u, s'.Base v → s'.inconsistent = false → (∀ x, s.numbering.isEliminated x = false → u x = v x) →
      s.Holds u → s'.Holds u) : s'.Own := by
  refine ⟨hhooks ▸ h.units, hhooks ▸ h.clauses, ?_⟩
  intro hi' v hv
  obtain ⟨u, hu, hh, hlearned⟩ := h.known (hi hi') v (hbase hi' v hv)
  exact ⟨u, fun x hx => hu x (hn x ▸ hx), hholds v u hv hi' hu hh, hl ▸ hlearned⟩

/-! ## What is taken over -/

/-- What is known afterwards was known before, but for literals that are assigned at the root. -/
def Reveals (s s' : Solver ε) : Prop :=
  s'.inconsistent = false → ∀ u, s.Holds u →
    (∀ l ∈ s'.trail.literals, s'.assignment.level l = 0 → u.makesTrue l = true) → s'.Holds u

theorem reveals_skipImport (s : Solver ε) : Reveals s s.skipImport := by
  intro _ u hu _
  exact (aside_count s _).refines.holds u hu

theorem reveals_refute (s : Solver ε) : Reveals s s.refute := by
  intro hi
  simp [refute] at hi

section Root

variable (h : s.Inv lags s.trail.propagated) (h0 : s.trail.level = 0)
include h h0

theorem reveals_assignImported (hu : s.numbering.Usable l.var) (hv : s.val l = .unassigned) :
    Reveals s (s.assignImported l) := by
  intro _ u hh hroot
  have ht := Taken.assign h h0 hu hv
  have hmem : l ∈ (s.assignImported l).trail.literals := by
    obtain ⟨k, he⟩ := assign_eq s l .unit
    unfold assignImported count
    rw [he]
    simp [Trail.push]
  obtain ⟨p, hp, -⟩ := ht.settled
  have hlevel := ht.level ▸ hp.trail.level_le_of_mem hmem
  exact ht.holds u ⟨l, by simp, hroot l hmem (Nat.le_zero.1 hlevel)⟩ hh

theorem reveals_importUnit (e : Int) : Reveals s (s.importUnit e) := by
  unfold importUnit
  split
  · exact reveals_skipImport s
  · next l hl =>
    split
    · exact reveals_skipImport s
    · exact reveals_refute s
    · next hv => exact reveals_assignImported h h0 (Numbering.lookup_some hl).2.1 hv

/-- A clause from outside of which no two literals are left is not stored. -/
theorem ends_importClause_reveals (clause : List Int) (glue : Nat) :
    Ends (importClause clause glue) s
      (fun _ s' => s'.counters.importedClauses = s.counters.importedClauses → Reveals s s') fun _ _ => True := by
  unfold importClause
  simp only [ends_bind, ends_get]
  cases hls : clause.mapM s.numbering.lookup? with
  | none => exact fun _ => reveals_skipImport s
  | some ls =>
    obtain ⟨rfl, hu⟩ := Numbering.mapM_lookup_some hls
    simp only
    cases hr : s.assignment.rootClause (Numbering.toClause clause) with
    | useless => exact fun _ => reveals_skipImport s
    | literals c =>
      have hfresh := Fresh.of_rootClause hu hr
      rcases c with _ | ⟨a, _ | ⟨b, _ | ⟨d, tail⟩⟩⟩
      · exact fun _ => reveals_refute s
      · exact fun _ => reveals_assignImported h h0 (hfresh.usable a (by simp)) (hfresh.unassigned a (by simp))
      · intro hcount
        simp [count] at hcount
      · simp only [ends_bind, ends_modify]
        refine (ends_storeRedundant h.store.chain rfl (by simp)).imp ?_ fun _ _ _ => trivial
        rintro r _ ⟨-, st', f, rfl, -⟩ hcount
        simp [count] at hcount

end Root

/-- Something was taken over of which nothing was stored. -/
theorem Own.taken {c : List Literal} (h : s.Own) (ht : Taken lags c s s') (hr : Reveals s s') : s'.Own := by
  refine h.of_eq ht.hooks (fun hi' => Bool.eq_false_iff.2 (mt ht.inconsistent (Bool.eq_false_iff.1 hi')))
    (fun x => by rw [ht.numbering]) ht.learned (fun _ => ht.base) ?_
  intro v u hv hi' hu hh
  apply hr hi' u hh
  intro l hl hlevel
  have husable := ht.settled.intact.frame.usable_of_mem hl
  exact Valuation.makesTrue_congr (hv.root l hl hlevel) (hu _ (ht.numbering ▸ husable.2))

/-! ## Calls -/

variable {x y : Moment × Solver ε}

/-- If nothing but the store was touched, no clause that is never to be dropped became garbage. -/
def Spares (s s' : Solver ε) : Prop := ∀ store, s' = { s with store } → ∀ v, s'.Base v → s.Base v

theorem refines_trail {trail : Trail} (ht : trail.literals = s.trail.literals) : Refines s { s with trail } :=
  ⟨rfl, rfl, rfl, rfl, rfl, rfl, rfl, id, fun _ hv => { hv with root := ht ▸ hv.root, reasons := ht ▸ hv.reasons },
    fun _ hv => { hv with root := ht ▸ hv.root }⟩

theorem refines_next {trail : Trail} (hn : s.trail.next? = some (l, trail)) : Refines s { s with trail } := by
  by_cases hlt : s.trail.propagated < s.trail.size
  · rw [Trail.next?_of_lt hlt, Option.some.injEq, Prod.mk.injEq] at hn
    obtain ⟨rfl, rfl⟩ := hn
    exact refines_trail rfl
  · rw [Trail.next?_of_le (Nat.le_of_not_lt hlt)] at hn
    cases hn

theorem Own.call {c : Call} {F : List (List Literal)} (h : s.Own) (hs : s.Loaded lags F)
    (hrun : Call.run c s = .ok () s') : s'.Own := by
  obtain ⟨⟨F', hF'⟩, hapart⟩ := (hs.ends_call c).of_ok hrun
  exact hF'.own (hapart.hooks ▸ h.units) (hapart.hooks ▸ h.clauses)

theorem Own.step {x y : Place × Solver ε} (h : x.2.Own) (hstep : Step false x y)
    (hc : x.1 = .propagated → x.2.inconsistent = false) (hx : Stands (x.1.moment, x.2)) : y.2.Own := by
  obtain ⟨F, hF⟩ := hstep.exists_at hc hx
  exact h.evolves (hstep.at hF).2

/-- A call keeps the invariant if it stores no clause from outside and makes garbage of none that is never dropped. -/
theorem Own.move (h : x.2.Own) (hmove : Move x y) (hx : Stands x)
    (hcount : y.2.counters.importedClauses = x.2.counters.importedClauses) (hspares : Spares x.2 y.2) : y.2.Own := by
  cases hmove with
  | step hstep hc => exact h.step hstep hc hx
  | add hrun =>
    obtain ⟨F, hF⟩ := hx
    exact h.call hF hrun
  | refuse hrun =>
    obtain ⟨F, hF⟩ := hx
    obtain ⟨hF', hapart⟩ := (hF.ends_call _).of_error hrun
    exact hF'.own (hapart.hooks ▸ h.units) (hapart.hooks ▸ h.clauses)
  | settle => exact h
  | outside e =>
    exact h.of_eq rfl id (fun _ => rfl) rfl (fun _ _ hv => { hv with }) fun _ _ _ _ _ hh => { hh with }
  | importUnit e h0 => exact h.taken (taken_importUnit hx.inv h0 e) (reveals_importUnit hx.inv h0 e)
  | importClause h0 hrun =>
    exact h.taken ((ends_importClause hx.inv h0 _ _).of_ok hrun)
      ((ends_importClause_reveals hx.inv h0 _ _).of_ok hrun hcount)
  | importUnits h0 hrun => exact h.evolves ((ends_importUnits hx.settled h0).of_ok hrun).advances.evolves
  | importClauses h0 hrun => exact h.evolves ((ends_importClauses hx.settled h0).of_ok hrun).advances.evolves
  | preprocess h0 hrun => exact h.evolves ((ends_preprocess hx.inv h0).of_ok hrun).2.2
  | next hn hrun =>
    obtain ⟨-, hk⟩ := (hx.inv.ends_next hn).of_ok hrun
    exact h.refines ((refines_next hn).trans hk.refines) hk.learned
  | clash hn hrun =>
    obtain ⟨key, -, -, hk⟩ := (hx.inv.ends_next hn).of_error hrun
    exact h.refines ((refines_next hn).trans hk.refines) hk.learned
  | propagate hrun =>
    obtain ⟨-, -, hk⟩ := (ends_propagate hx.inv).of_ok hrun
    exact h.refines hk.refines hk.learned
  | conflict hrun =>
    obtain ⟨key, -, -, hk⟩ := (ends_propagate hx.inv).of_error hrun
    exact h.refines hk.refines hk.learned
  | backtrack k | unwind k | flee hk | forgo hk =>
    exact h.refines (refines_backtrack hx.intact.frame _) (backtrack_same _ _).2.1
  | resume => exact h
  | decide hi hit hu =>
    obtain ⟨l, o, c, he, -, -, -, href⟩ := hx.1.decide (Nat.le_refl _) hx.2 hit hu
    rw [he]
    exact h.refines href rfl
  | refute =>
    refine ⟨h.units, h.clauses, ?_⟩
    intro hi
    simp [refute] at hi
  | @grow s n status pending hn =>
    have hsame := fun v => grow_same { s with status, pending } n v
    obtain ⟨a, w, ph, o, m, k, he⟩ :=
      ensureVariables_eq { s with numbering := s.numbering.growTo n, status, pending }
    rw [he] at hsame ⊢
    refine h.of_eq rfl id (Numbering.isEliminated_growTo _ _) rfl ?_ ?_
    · intro _ v hv
      exact { (hsame v).2.1 hv with }
    · intro _ u _ _ _ hh
      exact (hsame u).1.2 { hh with }
  | restart =>
    have hr := hx.1.restart hx.2
    exact h.refines hr.refines hr.learned
  | @rephase s => exact h.refines (aside_rephase s).refines (aside_rephase s).learned
  | switchMode =>
    have hr := hx.1.switchMode hx.2
    exact h.refines hr.refines hr.learned
  | @enterMode s stable =>
    have href := (hx.1.enterMode stable).2
    obtain ⟨r, k, ph, he⟩ := enterMode_eq s stable
    rw [he] at href ⊢
    exact h.refines href rfl
  | @mark s store ha hflags =>
    refine h.of_eq rfl id (fun _ => rfl) rfl (fun _ => hspares store rfl) ?_
    intro _ u _ _ _ hh
    exact { hh with large := fun o ho => ha.lits o (ha.offsets ▸ ho) ▸ hh.large o (ha.offsets ▸ ho) }
  | reduce hrun =>
    have ht := (ends_reduce hx.1 hx.2).of_ok hrun
    exact h.refines ht.refines ht.learned
  | simplify h0 hi hrun =>
    have ht := (ends_simplify hx.1 hx.2 h0 hi).of_ok hrun
    exact h.refines ht.refines ht.learned
  | eliminatePure h0 hrun => exact h.evolves ((ends_eliminatePure hx.1 hx.2 h0).of_ok hrun).evolves
  | collect hq hrun =>
    have hc := (ends_collect (hx.1.collectable hx.2 hq) (fun _ => hx.1.watched) hx.1.toClean hx.1.stored).of_ok hrun
    exact h.refines hc.refines hc.trimmed.learned

/-- A clause that mentions no eliminated variable is added at the root. -/
theorem Own.addClause (h : s.Own) (hs : Stands (.quiet, s)) (h0 : s.trail.level = 0)
    (hne : ∀ e ∈ clause, s.numbering.isEliminated (e.natAbs - 1) = false)
    (hrun : Solver.addClause clause s = .ok () s') : s'.Own := by
  cases hi : s.inconsistent with
  | true =>
    obtain rfl := addClause_inconsistent hi hrun
    refine ⟨by simpa using h.units, by simpa using h.clauses, ?_⟩
    intro hi'
    rw [knowing_inconsistent, hi] at hi'
    cases hi'
  | false =>
    obtain ⟨hsame, hentered, -, hquiet⟩ := Quiet.entered ⟨hs.1, hs.2, hi⟩ h0 hne hrun
    have hhooks : s'.hooks = s.hooks := by
      rw [hsame]
      exact knowing_hooks _ _
    have hlearned : s'.learned = s.learned := by
      rw [hsame]
      exact knowing_learned _ _
    refine h.of_eq hhooks (fun _ => hi) ?_ hlearned (fun hi' v hv => ((hentered.base hi' v).1 hv).1) ?_
    · intro x
      rw [hentered.numbering]
      exact Numbering.isEliminated_growTo _ _ _
    · intro v u hv hi' hu hh
      -- the clause mentions no variable that has another value
      have hsat : u.Satisfies (clause.map Numbering.toLiteral) := by
        apply ((hentered.base hi' v).1 hv).2.1.congr
        intro l hl
        obtain ⟨e, he, rfl⟩ := List.mem_map.1 hl
        rw [Numbering.toLiteral, Literal.var_make]
        exact hu _ (hne e he)
      exact (hquiet hi').inv.holds hentered.level hi' (hentered.follows hi u hh.fulfils hsat).2

/-! ## States that are reached without clauses from outside -/

variable {C : Settings} {hooks : Hooks ε} {limits : Limits} {stopped : Bool} {outside : ε} {moment : Moment}

/-- What is reachable if no clause from outside is stored.  Units may be handed in, by calls. -/
inductive Unaided (C : Settings) (hooks : Hooks ε) (limits : Limits) (stopped : Bool) (outside : ε) :
    Moment × Solver ε → Prop
  /-- Before any clause was added. -/
  | fresh : Unaided C hooks limits stopped outside (.adding, fresh C hooks limits stopped outside)
  /-- Something is added to the formula. -/
  | call {s s' : Solver ε} {c : Call} : Unaided C hooks limits stopped outside (.adding, s) →
      Call.run c s = .ok () s' → Unaided C hooks limits stopped outside (.adding, s')
  /-- A step of a solve. -/
  | step {x y : Place × Solver ε} : Unaided C hooks limits stopped outside (x.1.moment, x.2) → Step false x y →
      (x.1 = .propagated → x.2.inconsistent = false) → Unaided C hooks limits stopped outside (y.1.moment, y.2)
  /-- Any call that stores no clause from outside, and makes garbage of none that is never to be dropped. -/
  | move {x y : Moment × Solver ε} : Unaided C hooks limits stopped outside x → Move x y →
      y.2.counters.importedClauses = x.2.counters.importedClauses → Spares x.2 y.2 →
      Unaided C hooks limits stopped outside y
  /-- A clause is added at the root, after everything was propagated.  It mentions no eliminated variable. -/
  | add {s s' : Solver ε} {clause : List Int} : Unaided C hooks limits stopped outside (.quiet, s) →
      s.trail.level = 0 → (∀ e ∈ clause, s.numbering.isEliminated (e.natAbs - 1) = false) →
      addClause clause s = .ok () s' → Unaided C hooks limits stopped outside (s'.lull, s')

theorem Unaided.before (h : Unaided C hooks limits stopped outside x) : Before C hooks limits stopped outside x := by
  induction h with
  | fresh => exact .fresh
  | call _ hrun ih => exact ih.move (.add hrun)
  | step _ hstep hc ih => exact ih.move (.step hstep hc)
  | move _ hmove _ _ ih => exact ih.move hmove
  | add _ h0 hne hrun ih => exact ih.add h0 hne hrun

theorem unaided_calls {calls : List Call} (h : Unaided C hooks limits stopped outside (.adding, s))
    (hload : calls.forM Call.run s = .ok () s') : Unaided C hooks limits stopped outside (.adding, s') := by
  refine calls_induct (P := fun t => Unaided C hooks limits stopped outside (.adding, t)) ?_ h hload
  intro c t t' hs hrun
  exact hs.call hrun

theorem unaided_run {calls : List Call} {s₀ : Solver ε} {x : Place × Solver ε}
    (hload : calls.forM Call.run (fresh C hooks limits stopped outside) = .ok () s₀)
    (hrun : Run false (.loaded, s₀) x) : Unaided C hooks limits stopped outside (x.1.moment, x.2) := by
  have h₀ : s₀.Loaded (false = false) (Call.formula calls) := loaded_run hload
  induction hrun with
  | refl => exact unaided_calls .fresh hload
  | tail hy hstep ih => exact ih.step hstep (Run.consistent hy h₀)

section Silent

variable (hu : hooks.units = none) (hc : hooks.clauses = none)
include hu hc

theorem Unaided.own (h : Unaided C hooks limits stopped outside x) : x.2.Own := by
  induction h with
  | fresh =>
    have hbegin : (Solver.fresh C hooks limits stopped outside).Loaded (false = false) [] :=
      (loaded_ofSettings C outside).configure hooks limits stopped
    exact hbegin.own hu hc
  | call hs hrun ih =>
    obtain ⟨F, hF⟩ := hs.before.stands
    exact ih.call hF hrun
  | step hs hstep hconsistent ih => exact ih.step hstep hconsistent hs.before.stands
  | move hs hmove hcount hspares ih => exact ih.move hmove hs.before.stands hcount hspares
  | add hs h0 hne hrun ih => exact ih.addClause hs.before.stands h0 hne hrun

/-- Everything that is there follows from what is never dropped, as long as no clause from outside is stored. -/
theorem Unaided.selfContained (h : Unaided C hooks limits stopped outside (moment, s)) : s.SelfContained :=
  (h.own hu hc).selfContained h.before.stands.intact

/-- So it does at every place of a solve of which the hooks hand nothing in. -/
theorem Run.selfContained {calls : List Call} {s₀ : Solver ε} {place : Place}
    (hload : calls.forM Call.run (fresh C hooks limits stopped outside) = .ok () s₀)
    (hrun : Run false (.loaded, s₀) (place, s)) : s.SelfContained :=
  (unaided_run hload hrun).selfContained hu hc

end Silent

/-- A clause is learnt, then all levels are taken back and a unit is taken over from outside.  The learnt clause is
redundant, and follows from the others. -/
theorem unaided_learnt : ∃ s : Solver Unit, Unaided {} {} {} false () (.underway, s) ∧ s.SelfContained ∧
    s.inconsistent = false ∧ s.store.lits 16 = [⟨3⟩, ⟨5⟩, ⟨7⟩] ∧ (s.store.flagsAt 16).redundant = true ∧
      s.trail.literals.toList = [⟨6⟩] ∧ ∀ v, s.Base v → v.Satisfies [⟨3⟩, ⟨5⟩, ⟨7⟩] := by
  obtain ⟨s₀, place, s, hload, hrun, htest⟩ := exists_trial (Solver.fresh {} {} {} false ())
    [.clause [-2, -3, -4, 1], .clause [-2, -3, -4, -1]] 4
    (fun place s => place.moment = .quiet ∧ (s.backtrack 0).trail.level = 0 ∧ (s.backtrack 0).inconsistent = false ∧
      (s.backtrack 0).counters.importedClauses = s.counters.importedClauses ∧
      ((s.backtrack 0).importUnit 4).counters.importedClauses = (s.backtrack 0).counters.importedClauses ∧
      ((s.backtrack 0).importUnit 4).inconsistent = false ∧ 16 ∈ ((s.backtrack 0).importUnit 4).store.offsets ∧
      ((s.backtrack 0).importUnit 4).store.lits 16 = [⟨3⟩, ⟨5⟩, ⟨7⟩] ∧
      (((s.backtrack 0).importUnit 4).store.flagsAt 16).redundant = true ∧
      ((s.backtrack 0).importUnit 4).trail.literals.toList = [⟨6⟩]) (by decide +kernel)
  obtain ⟨hplace, h0, hi, hback, hunit, hi', hmem, hlits, hred, htrail⟩ := of_decide_eq_true htest
  have hmoment : ((s.backtrack 0).importUnit 4).moment = .underway := by
    unfold Solver.moment
    rw [hi']
    rfl
  have hquiet : Unaided {} {} {} false () (.quiet, s) := hplace ▸ unaided_run hload hrun
  have hroot : Unaided {} {} {} false () (.underway, s.backtrack 0) :=
    (hquiet.move (.unwind 0) hback fun _ _ => (refines_backtrack hquiet.before.stands.intact.frame 0).base).move
      (.resume hi) rfl fun _ _ _ => id
  have hlast : Unaided {} {} {} false () (.underway, (s.backtrack 0).importUnit 4) :=
    hmoment ▸ hroot.move (.importUnit 4 h0) hunit fun _ _ => (taken_importUnit hroot.before.stands.inv h0 4).base
  have hself := hlast.selfContained rfl rfl
  exact ⟨_, hlast, hself, hi', hlits, hred, htrail, fun v hv => hlits ▸ (hself hi' v hv).large 16 hmem⟩

/-! ## Clauses that are added one after another -/

theorem fulfils_knowing : (s.knowing n).Fulfils v ↔ s.Fulfils v := by
  have hroot : ∀ l, (s.knowing n).assignment.level l = s.assignment.level l := by
    intro l
    unfold Solver.knowing ensureVariables
    simp only
    split
    · rfl
    · exact Assignment.level_growTo ..
  have hview : (s.knowing n).watches.view = s.watches.view := by
    unfold Solver.knowing ensureVariables
    simp only
    split
    · rfl
    · exact funext fun l => Watches.view_growTo _
  constructor
  · intro hv
    have hr := hv.root
    have hl := hv.large
    have hb := hv.binary
    simp only [knowing_trail, knowing_store, hroot, hview] at hr hl hb
    exact ⟨hr, hl, hb⟩
  · intro hv
    refine ⟨?_, ?_, ?_⟩
    · simpa only [knowing_trail, hroot] using hv.root
    · simpa only [knowing_store] using hv.large
    · simpa only [hview] using hv.binary

theorem SelfContained.knowing (h : s.SelfContained) : (s.knowing n).SelfContained := by
  intro hi v hv
  rw [knowing_inconsistent] at hi
  exact fulfils_knowing.2 (h hi v (base_knowing.1 hv))

theorem SelfContained.setInput (h : s.SelfContained) (status : Status) (pending : Array Int) :
    SelfContained { s with status, pending } := fun hi v hv => { h hi v { hv with } with }

/-- A clause and what follows from it with the others is implied by what is never dropped, of which it is. -/
theorem Entered.selfContained (he : Entered clause s s') (h : s.SelfContained) : s'.SelfContained := by
  intro hi' v hv
  have hi := he.inconsistent hi'
  obtain ⟨hbase, hsat, -⟩ := (he.base hi' v).1 hv
  exact (he.follows hi v (h hi v hbase) hsat).2

/-- A clause whose literals were checked.  Eliminated variables may occur in it. -/
theorem Receptive.ends_addChecked_selfContained (hr : s.Receptive lags) (h : s.SelfContained)
    (hc : ∀ e ∈ clause, Numbering.check e = .ok ()) :
    Ends (addChecked clause) s (fun _ s' => s'.SelfContained) fun _ s' => s'.SelfContained := by
  cases hi : s.inconsistent with
  | true =>
    have hi₁ : (s.knowing (Numbering.greatest clause)).inconsistent = true := by rwa [knowing_inconsistent]
    exact (ends_of_ok (addChecked_inconsistent hc hi₁)).2 h.knowing
  | false =>
    refine ((hr.rested hi).ends_addChecked hc).imp (fun _ s' hs' => hs'.2.1.selfContained h) ?_
    rintro e _ ⟨-, rfl, -⟩
    exact h.knowing

/-- Where clauses may be added, calls that add some keep it so, and so does a call that is refused. -/
theorem Receptive.ends_call_selfContained (hr : s.Receptive lags) (h : s.SelfContained) (c : Call) :
    Ends c.run s (fun _ s' => s'.Receptive lags ∧ s'.SelfContained) fun _ s' => s'.Receptive lags ∧ s'.SelfContained :=
  hr.ends_call_and (fun _ status pending h => h.setInput status pending)
    (fun _ _ hr h hc => hr.ends_addChecked_selfContained h hc) h c

/-- Calls that all succeed, where clauses may be added. -/
theorem Receptive.selfContained_calls {calls : List Call} (hr : s.Receptive lags) (h : s.SelfContained)
    (hload : calls.forM Call.run s = .ok () s') : s'.SelfContained := by
  have hboth : s'.Receptive lags ∧ s'.SelfContained := by
    refine calls_induct (P := fun t => t.Receptive lags ∧ t.SelfContained) ?_ ⟨hr, h⟩ hload
    rintro c s s' ⟨hr, h⟩ hrun
    exact (hr.ends_call_selfContained h c).of_ok hrun
  exact hboth.2

/-- Clauses are added after a run to which none was handed in. -/
theorem Unaided.selfContained_calls {calls : List Call} (hu : hooks.units = none) (hc : hooks.clauses = none)
    (h : Unaided C hooks limits stopped outside (.quiet, s)) (h0 : s.trail.level = 0)
    (hp : ∀ e ∈ s.pending, Numbering.check e = .ok ()) (hload : calls.forM Call.run s = .ok () s') :
    s'.SelfContained := by
  have hextensible : Extensible C hooks limits stopped outside s := .before h.before h0 hp
  exact hextensible.receptive.selfContained_calls (h.selfContained hu hc) hload

end Solver

end ClauseLearning
