import ClauseLearning.Proofs.Representation

/-!
# Eliminated variables

A variable is eliminated by a round of the elimination of pure literals, and stays so whatever is called after that.
Nothing of the search is about it any more, nor is anything from outside taken over that mentions it.

* `Solver.Stacked` — the extension stack is in order.
* `Solver.Move.later`, `Solver.Reached.later` — calls keep a variable eliminated, and the stack in order.
* `Solver.Retired` — what is so of an eliminated variable.
* `Solver.Analyzed.ends_export` — what is handed out when a clause is learnt.
* `Solver.eliminated_retired` — every variable that was eliminated at some time is retired.
-/

namespace ClauseLearning

namespace Numbering

variable {m : Numbering} {e : Int} {es : List Int}

/-- What mentions an eliminated variable has no literal. -/
theorem lookup_of_isEliminated (h : m.isEliminated (e.natAbs - 1) = true) : m.lookup? e = none := by
  unfold lookup?
  rw [h, Bool.not_true, Bool.and_false]
  rfl

/-- A clause has no literals if one of its literals has none. -/
theorem mapM_lookup_of_mem (he : e ∈ es) (h : m.lookup? e = none) : es.mapM m.lookup? = none := by
  induction es with
  | nil => simp at he
  | cons d es ih =>
    rw [List.mapM_cons]
    rcases List.mem_cons.1 he with rfl | he
    · rw [h]
      rfl
    · rw [ih he]
      cases m.lookup? d <;> rfl

end Numbering

namespace Solver

variable {ε : Type} {s s' : Solver ε} {x y : Moment × Solver ε} {moment moment' : Moment} {v : Nat}

/-! ## From one state to a later one -/

/-- The clauses on the extension stack are on known variables, and each has a witness on an eliminated one. -/
def Stacked (s : Solver ε) : Prop :=
  ∀ w ∈ s.extension.entries, w.Known s.numbering.size ∧ s.numbering.isEliminated w.witness.var = true

/-- What becomes of eliminated variables. -/
structure Later (s s' : Solver ε) : Prop where
  /-- An eliminated variable stays so. -/
  eliminated : ∀ v, s.numbering.isEliminated v = true → s'.numbering.isEliminated v = true
  /-- The extension stack stays in order. -/
  stacked : s.Stacked → s'.Stacked

namespace Later

theorem of_same (hn : s'.numbering = s.numbering) (he : s'.extension = s.extension) : Later s s' := by
  refine ⟨fun v hv => hn ▸ hv, ?_⟩
  intro hs w hw
  rw [hn]
  exact hs w (he ▸ hw)

theorem of_refines (h : Refines s s') : Later s s' := .of_same h.numbering h.extension

theorem of_grows (h : Grows s s') : Later s s' := by
  refine ⟨h.eliminated, ?_⟩
  intro hs w hw
  obtain ⟨ws, he, hk, -⟩ := h.stack
  rw [he] at hw
  rcases List.mem_append.1 hw with hw | hw
  · exact ⟨h.size ▸ (hk w hw).1, (hk w hw).2⟩
  · exact ⟨h.size ▸ (hs w hw).1, h.eliminated _ (hs w hw).2⟩

/-- While clauses are added, no variable is eliminated. -/
theorem of_loaded {F F' : List (List Literal)} (h : s.Loaded (false = false) F) (h' : s'.Loaded (false = false) F') :
    Later s s' := by
  refine ⟨fun v hv => absurd ((h.kept v).symm.trans hv) Bool.false_ne_true, ?_⟩
  intro _ w hw
  rw [h'.extension] at hw
  simp at hw

/-- More variables are known. -/
theorem of_growTo {n : Nat} (hn : s'.numbering = s.numbering.growTo n) (he : s'.extension = s.extension) :
    Later s s' := by
  have hsame : ∀ v, s'.numbering.isEliminated v = s.numbering.isEliminated v := by
    intro v
    rw [hn]
    exact Numbering.isEliminated_growTo _ _ _
  have hsize : s.numbering.size ≤ s'.numbering.size := by
    rw [hn, Numbering.size_growTo]
    exact Nat.le_max_left ..
  refine ⟨fun v hv => (hsame v).trans hv, ?_⟩
  intro hs w hw
  obtain ⟨⟨hvar, hclause⟩, helim⟩ := hs w (he ▸ hw)
  exact ⟨⟨Nat.lt_of_lt_of_le hvar hsize, fun l hl => Nat.lt_of_lt_of_le (hclause l hl) hsize⟩, (hsame _).trans helim⟩

end Later

/-- Calls keep a variable eliminated, and the extension stack in order. -/
theorem Move.later (h : Move x y) (hx : Stands x) : Later x.2 y.2 := by
  cases h with
  | step h hc =>
    obtain ⟨F, hF⟩ := h.exists_at hc hx
    exact .of_grows (h.at hF).2.toGrows
  | add he =>
    obtain ⟨F, hF⟩ := hx
    obtain ⟨⟨F', hF'⟩, -⟩ := (hF.ends_call _).of_ok he
    exact .of_loaded hF hF'
  | refuse he =>
    obtain ⟨F, hF⟩ := hx
    exact .of_loaded hF ((hF.ends_call _).of_error he).1
  | settle hi => exact .of_same rfl rfl
  | outside e => exact .of_same rfl rfl
  | importUnit e h0 =>
    have h := taken_importUnit hx.inv h0 e
    exact .of_same h.numbering h.extension
  | importClause h0 he =>
    have h := (ends_importClause hx.inv h0 _ _).of_ok he
    exact .of_same h.numbering h.extension
  | importUnits h0 he => exact .of_grows ((ends_importUnits hx.settled h0).of_ok he).advances.evolves.toGrows
  | importClauses h0 he => exact .of_grows ((ends_importClauses hx.settled h0).of_ok he).advances.evolves.toGrows
  | preprocess h0 he => exact .of_grows ((ends_preprocess hx.inv h0).of_ok he).2.2.toGrows
  | next hn he =>
    have href := ((hx.inv.ends_next hn).of_ok he).2.refines
    exact .of_same href.numbering href.extension
  | clash hn he =>
    obtain ⟨key, -, -, hk⟩ := (hx.inv.ends_next hn).of_error he
    exact .of_same hk.refines.numbering hk.refines.extension
  | propagate he => exact .of_refines ((ends_propagate hx.inv).of_ok he).2.2.refines
  | conflict he =>
    obtain ⟨key, -, -, hk⟩ := (ends_propagate hx.inv).of_error he
    exact .of_refines hk.refines
  | backtrack k | unwind k | flee hk | forgo hk => exact .of_refines (refines_backtrack hx.intact.frame _)
  | resume hi => exact .of_same rfl rfl
  | decide hi hit hu =>
    obtain ⟨l, o, c, he, -, -, -, href⟩ := hx.1.decide (Nat.le_refl _) hx.2 hit hu
    rw [he]
    exact .of_refines href
  | refute => exact .of_same rfl rfl
  | @grow s n status pending hn =>
    obtain ⟨a, w, ph, o, m, k, he⟩ :=
      ensureVariables_eq { s with numbering := s.numbering.growTo n, status, pending }
    rw [he]
    exact .of_growTo rfl rfl
  | restart => exact .of_refines (hx.1.restart hx.2).refines
  | @rephase s => exact .of_refines (aside_rephase s).refines
  | switchMode => exact .of_refines (hx.1.switchMode hx.2).refines
  | @enterMode s stable => exact .of_refines (hx.1.enterMode stable).2
  | mark ha hflags => exact .of_same rfl rfl
  | reduce he => exact .of_refines ((ends_reduce hx.1 hx.2).of_ok he).refines
  | simplify h0 hi he => exact .of_refines ((ends_simplify hx.1 hx.2 h0 hi).of_ok he).refines
  | eliminatePure h0 he => exact .of_grows ((ends_eliminatePure hx.1 hx.2 h0).of_ok he).evolves.toGrows
  | collect hq he =>
    have h := (ends_collect (hx.1.collectable hx.2 hq) (fun _ => hx.1.watched) hx.1.toClean hx.1.stored).of_ok he
    exact .of_refines h.refines

/-- What so becomes in every later state. -/
theorem Reached.later (h : Relation.ReflTransGen Move x y) (hx : Stands x) : Stands y ∧ Later x.2 y.2 := by
  induction h with
  | refl => exact ⟨hx, .of_same rfl rfl⟩
  | tail _ hmove ih =>
    obtain ⟨hstands, hlater⟩ := ih
    have hnext := hmove.later hstands
    exact ⟨hmove.stands hstands, fun v hv => hnext.eliminated v (hlater.eliminated v hv),
      fun hs => hnext.stacked (hlater.stacked hs)⟩

variable {C : Settings} {hooks : Hooks ε} {limits : Limits} {stopped : Bool} {outside : ε}

/-- In every state that can be reached, the extension stack is in order. -/
theorem Reached.stacked (h : Reached C hooks limits stopped outside (moment, s)) : s.Stacked := by
  have hbegin : (fresh C hooks limits stopped outside).Loaded (false = false) [] :=
    (loaded_ofSettings C outside).configure hooks limits stopped
  refine (Reached.later h ⟨[], hbegin⟩).2.stacked ?_
  intro w hw
  rw [hbegin.extension] at hw
  simp at hw

/-! ## What is handed out -/

/-- When a clause is learnt, it is offered, and nothing else is handed out. -/
theorem Analyzed.ends_export {S : Solver ε} {key : Key} {jump glue : Nat} (hc : Conflicted (false = false) S key)
    (h : Analyzed (false = false) S s jump glue) :
    Ends (learn jump glue) s (fun _ s' => s'.outside = (s.exportClause s.learned glue).outside)
      fun _ s' => s'.outside = s.outside := by
  obtain ⟨p, hp, -, hlev⟩ := hc.inv
  obtain ⟨a, rest, hl, hass, -⟩ := h.learned
  have hinv : Inv (false = false) { s with learned := #[] } p :=
    { h.inv p hp with
      toFrame := { (h.inv p hp).toFrame with }
      toWired := { (h.inv p hp).toWired with }
      toClean := { (h.inv p hp).toClean with } }
  have hlev' : s.trail.levelStart s.trail.level ≤ p := by
    rw [h.trail]
    exact hlev
  have hass' : Asserts { s with learned := #[] } a rest jump := { hass with }
  have hne : s.learned.isEmpty = false := by
    rw [← Bool.not_eq_true, Array.isEmpty_iff]
    intro hnil
    rw [hnil] at hl
    simp at hl
  unfold learn
  simp only [ends_bind, ends_get, ends_modify]
  refine (ends_storeLearned hinv hlev' hass' hl fun _ _ => rfl).imp (fun _ s' hs' => ?_) fun e s' hs' =>
    hs'.2.stores.outside
  have hhooks : s'.hooks = s.hooks := hs'.stores.hooks
  have hout : s'.outside = s.outside := hs'.stores.outside
  rw [hne]
  simp only [Bool.false_eq_true, if_false]
  unfold exportClause
  rw [hhooks, hout]
  split
  · exact hout
  · simp only
    split <;> rfl

/-! ## What is so of an eliminated variable -/

/-- A variable is out of the search. -/
structure Retired (moment : Moment) (s : Solver ε) (v : Nat) : Prop where
  /-- It is unassigned. -/
  unassigned : s.assignment.valueOf v = .unassigned
  /-- It is not on the trail. -/
  trail : ∀ l ∈ s.trail.literals, l.var ≠ v
  /-- It occurs in no clause of the store, garbage or not. -/
  large : ∀ o ∈ s.store.offsets, ∀ l ∈ s.store.lits o, l.var ≠ v
  /-- It occurs in no binary clause. -/
  binary : ∀ c ∈ s.watches.binaries, c.a.var ≠ v ∧ c.b.var ≠ v
  /-- Nor is there half of one, in the list of one literal only. -/
  half : ∀ l o r h, .binary o r h ∈ s.watches.view l → l.var ≠ v ∧ o.var ≠ v
  /-- It is not on the heap of scores. -/
  scores : s.orders.scores.heap.contains v = false
  /-- It is not in the queue, neither by its link nor along the links. -/
  queue : s.orders.queue.contains v = false ∧ v ∉ s.orders.queue.toList
  /-- It is not decided. -/
  decided : ∀ l, s.decide.1 = some l → l.var ≠ v
  /-- A unit on it is skipped. -/
  unit : ∀ e : Int, e.natAbs = v + 1 → s.importUnit e = s.skipImport
  /-- A clause that mentions it is skipped. -/
  clause : ∀ (clause : List Int) glue, (∃ e ∈ clause, e.natAbs = v + 1) →
    importClause clause glue s = .ok () s.skipImport
  /-- It does not occur in a clause that was just learnt. -/
  learned : ∀ jump glue, moment = .analyzed jump glue → ∀ l ∈ s.learned, l.var ≠ v
  /-- No other clause is handed out. -/
  exported : ∀ jump glue, moment = .analyzed jump glue →
    Ends (learn jump glue) s (fun _ s' => s'.outside = (s.exportClause s.learned glue).outside)
      fun _ s' => s'.outside = s.outside

/-- Whatever holds at a moment, eliminated variables are out of the search. -/
theorem Stands.retired (h : Stands (moment, s)) (hv : s.numbering.isEliminated v = true) : s.Retired moment v := by
  obtain ⟨p, hp⟩ := h.intact
  have hne : ∀ {w}, s.numbering.Usable w → w ≠ v := by
    rintro w hw rfl
    exact Bool.false_ne_true (hw.2.symm.trans hv)
  obtain ⟨L, hL, hmem⟩ := hp.orders.queue
  have hnot : v ∉ L := fun hm => hne ((hmem v).1 hm) rfl
  have hlookup : ∀ e : Int, e.natAbs = v + 1 → s.numbering.lookup? e = none := fun e he =>
    Numbering.lookup_of_isEliminated (by rw [he]; exact hv)
  exact
    { unassigned := by
        refine (hp.toFrame.val_make v true).1 ((hp.trail.unassigned_iff hp.sized).2 ?_)
        rw [Literal.var_make]
        intro hm
        obtain ⟨l, hl, he⟩ := List.mem_map.1 hm
        exact hne (hp.toFrame.usable_of_mem (Array.mem_toList_iff.1 hl)) he
      trail := fun l hl => hne (hp.toFrame.usable_of_mem hl)
      large := fun o ho l hl => hne (hp.store.usable o ho l hl)
      binary := fun c hc =>
        have hu := hp.paired.usable _ _ _ _ (Watches.mem_binaries.1 hc).2
        ⟨hne hu.1, hne hu.2.1⟩
      half := fun l o r y hw =>
        have hu := hp.paired.usable l o r y hw
        ⟨hne hu.1, hne hu.2.1⟩
      scores := Bool.eq_false_iff.2 fun hc => hne (hp.orders.onHeap v hc) rfl
      queue := by
        rw [hL.toList_eq, Bool.eq_false_iff]
        exact ⟨fun hc => hnot ((hL.contains v).1 hc), hnot⟩
      decided := fun l hl => hne (hp.shaped.decides.2.1 l hl).1
      unit := fun e he => by
        unfold importUnit
        rw [hlookup e he]
      clause := fun clause glue hc => by
        obtain ⟨e, he, habs⟩ := hc
        have hskip : Ends (importClause clause glue) s (fun _ s' => s' = s.skipImport) fun _ _ => False := by
          unfold importClause
          simp only [ends_bind, ends_get, Numbering.mapM_lookup_of_mem he (hlookup e habs)]
          exact (ends_modify _).2 rfl
        obtain ⟨⟨⟩, s', hrun, rfl⟩ := hskip.exists_ok
        exact hrun
      learned := fun jump glue hm l hl => by
        subst hm
        obtain ⟨-, key, S, hc, ha⟩ := h
        obtain ⟨a, rest, hlist, hass, -⟩ := ha.learned
        have hmem : l ∈ a :: rest := hlist ▸ Array.mem_toList_iff.2 hl
        exact hne (hp.toFrame.usable_of_neg_mem (hass.neg_mem hmem))
      exported := fun jump glue hm => by
        subst hm
        obtain ⟨-, key, S, hc, ha⟩ := h
        exact ha.ends_export hc }

/-- Once a variable was eliminated, it is out of the search in every later state. -/
theorem eliminated_retired (h : Reached C hooks limits stopped outside (moment, s))
    (hv : s.numbering.isEliminated v = true) (hlater : Relation.ReflTransGen Move (moment, s) (moment', s')) :
    s'.numbering.isEliminated v = true ∧ s'.Retired moment' v := by
  obtain ⟨hstands, hl⟩ := Reached.later hlater h.stands
  have hv' := hl.eliminated v hv
  exact ⟨hv', hstands.retired hv'⟩

/-- Three clauses, in two of which the second variable occurs, and only positively, so that it is eliminated.  A unit on
it is handed in later, and the state stays what it is but for the count of what was skipped. -/
theorem eliminated_retired_import : ∃ s : Solver Unit,
    Reached { preprocessing := .switch true } {} {} false () (.quiet, s) ∧ s.numbering.isEliminated 1 = true ∧
      Relation.ReflTransGen Move (.quiet, s) ((s.importUnit 2).moment, s.importUnit 2) ∧
      (s.importUnit 2).Retired (s.importUnit 2).moment 1 := by
  obtain ⟨s₀, place, s, hload, hrun, htest⟩ := exists_trial (fresh { preprocessing := .switch true } {} {} false ())
    [.clause [1, 2, 3], .clause [-1, 2], .clause [1, -3]] 0
    (fun place s => place.moment = .quiet ∧ s.numbering.isEliminated 1 ∧ s.trail.level = 0 ∧ s.inconsistent = false)
    (by decide +kernel)
  obtain ⟨hplace, hv, h0, hi⟩ := of_decide_eq_true htest
  have hreached := hplace ▸ Run.reached hload hrun
  have hlater : Relation.ReflTransGen Move (.quiet, s) ((s.importUnit 2).moment, s.importUnit 2) :=
    (Relation.ReflTransGen.single (.resume hi)).tail (.importUnit 2 h0)
  exact ⟨s, hreached, hv, hlater, (eliminated_retired hreached hv hlater).2⟩

end Solver

end ClauseLearning
