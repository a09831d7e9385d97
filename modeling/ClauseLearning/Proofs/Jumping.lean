import ClauseLearning.Proofs.Pure
import ClauseLearning.Proofs.Agreement
import ClauseLearning.Proofs.Implications
import ClauseLearning.Proofs.WatchLists
import ClauseLearning.Proofs.Store.Refinement

/-!
# The learnt clause is asserted

To learn a clause is to go back to a level on which it is a unit, to store it, and to assign its first literal for it.
A unit goes to the root, two literals go into the lists of watches, and more go into the store.  Recent clauses that
contain the new one may become garbage, but not one that is a reason.

* `Solver.Droppable`, `Solver.Thins`, `Solver.thins_subsumeRecent` — what becomes of recent clauses.
* `Solver.Lands`, `Solver.Frame.lands` — going back, and assigning a literal.
* `Solver.Housed` — where a clause is stored, and how its first literal refers to it.
* `Solver.Placed`, `Solver.ends_learn_placed` — all of this together.
* `Solver.Asserted`, `Solver.learn_asserts` — what learning leaves behind during a search.
-/

namespace ClauseLearning

/-- Where as many elements of one list are in another one as this has, all of that one are in the first. -/
theorem subset_of_length_filter {α : Type} [DecidableEq α] {ls ms : List α} (hn : ls.Nodup) {p : α → Bool}
    (hp : ∀ l, p l = true ↔ l ∈ ms) (hlen : (ls.filter p).length = ms.length) : ms ⊆ ls := by
  have hsub : (ls.filter p).Subperm ms := (hn.filter p).subperm fun l hl => (hp l).1 (List.mem_filter.1 hl).2
  have hperm := hsub.perm_of_length_le (Nat.le_of_eq hlen.symm)
  exact fun l hl => (List.mem_filter.1 (hperm.mem_iff.2 hl)).1

theorem Store.Alike.references {st st' : Store} (h : Store.Alike st st') : st'.references = st.references := by
  simp only [Store.references, Store.referencesFrom]
  rw [h.epoch, show st'.offsetsFrom 0 = st.offsetsFrom 0 from h.offsets]

theorem Store.Appended.references {st st' : Store} {ls : List Literal} {f : Flags} (h : Store.Appended ls f st st') :
    st'.references = st.references ++ [st.nextReference] := by
  simp only [Store.references, Store.referencesFrom]
  rw [h.epoch, show st'.offsetsFrom 0 = st.offsetsFrom 0 ++ [st.words.size] from h.offsets, List.map_append]
  rfl

theorem Store.Record.trashed_trashed (c : Store.Record) : c.trashed.trashed = c.trashed := by
  unfold trashed flagged
  split
  · rfl
  · rw [if_pos rfl]

/-- Storing a clause after all others, unless there is no room. -/
theorem Store.ends_allocate_record {st : Store} {ls : Array Literal} {redundant : Bool} {glue : Nat} (hc : st.Chain 0)
    (h3 : 3 ≤ ls.size) :
    Ends (allocate ls redundant glue) st
      (fun r st' => r = st.nextReference ∧ Appended ls.toList (.fresh redundant) st st' ∧
        st'.recordAt st.words.size = Record.fresh ls redundant glue)
      (fun e st' => e = .exhausted ∧ st' = st ∧ padding ≤ st.words.size + headerWords + ls.size) := by
  have hp : ∀ {n}, ¬ padding ≤ st.words.size + headerWords + n → n ≠ padding := by omega
  unfold Ends
  rw [allocate_eq, if_neg (by omega)]
  by_cases hroom : padding ≤ st.words.size + headerWords + ls.size
  · rw [if_pos hroom]
    exact ⟨rfl, rfl, hroom⟩
  · rw [if_neg hroom]
    have hp' : (Record.fresh ls redundant glue).literals.size ≠ padding := hp hroom
    exact ⟨rfl, appended_append (c := .fresh ls redundant glue) hc h3 hp', recordAt_append hc h3 hp'⟩

namespace Solver

variable {ε : Type} {lags : Prop} {s s' s'' t : Solver ε} {p jump glue k : Nat} {a b x y l : Literal}
  {rest tail clause : List Literal} {r : Reference} {reason : Reason}

/-! ## Recent clauses -/

/-- A clause may be dropped for another one: it is redundant, contains that one, and is not the reason of its first
literal. -/
structure Droppable (s : Solver ε) (clause : List Literal) (r : Reference) : Prop where
  /-- It is redundant. -/
  redundant : (s.store.flagsAt r.offset).redundant = true
  /-- It contains the other clause. -/
  subset : clause ⊆ s.store.lits r.offset
  /-- It is no reason. -/
  idle : ∀ first rest, s.store.lits r.offset = first :: rest → s.isReason r first = false

/-- Some of the clauses `rs` that may be dropped for another one became garbage. -/
structure Thins (clause : List Literal) (rs : List Reference) (s s' : Solver ε) : Prop where
  /-- Nothing else has changed. -/
  eq : ∃ store recent counters, s' = { s with store, recent, counters }
  /-- The clauses are the same. -/
  alike : Store.Alike s.store s'.store
  /-- What became of each of them. -/
  record : ∀ r, s.store.Current r → s'.store.recordAt r.offset = s.store.recordAt r.offset ∨
    r ∈ rs ∧ s.Droppable clause r ∧ s'.store.recordAt r.offset = (s.store.recordAt r.offset).trashed

namespace Thins

variable {rs : List Reference}

theorem refl (h : s.store.Chain 0) : Thins clause rs s s :=
  ⟨⟨s.store, s.recent, s.counters, rfl⟩, .refl h, fun _ _ => .inl rfl⟩

/-- Clauses stay redundant. -/
theorem redundant (h : Thins clause rs s s') (hr : s.store.Current r) :
    (s'.store.flagsAt r.offset).redundant = (s.store.flagsAt r.offset).redundant := by
  have hflags : ∀ {st : Store}, (st.recordAt r.offset).flags = st.flagsAt r.offset := rfl
  rw [← hflags, ← hflags]
  rcases h.record r hr with he | ⟨-, -, he⟩
  · rw [he]
  · rw [he, Store.Record.trashed]
    split <;> rfl

theorem droppable (h : Thins clause rs s s') (hr : s.store.Current r) (hd : s'.Droppable clause r) :
    s.Droppable clause r := by
  have hlits := h.alike.lits _ hr.2
  refine ⟨h.redundant hr ▸ hd.redundant, hlits ▸ hd.subset, fun first rest hl => ?_⟩
  have hidle := hd.idle first rest (hlits.trans hl)
  obtain ⟨_, _, _, rfl⟩ := h.eq
  exact hidle

theorem trans (h : Thins clause rs s s') (h' : Thins clause rs s' s'') : Thins clause rs s s'' := by
  refine ⟨?_, h.alike.trans h'.alike, fun r hr => ?_⟩
  · obtain ⟨_, _, _, he⟩ := h.eq
    obtain ⟨_, _, _, he'⟩ := h'.eq
    rw [he', he]
    exact ⟨_, _, _, rfl⟩
  · rcases h'.record r (h.alike.current hr) with he' | ⟨hm, hd, he'⟩
    · exact (h.record r hr).imp he'.trans fun hd => ⟨hd.1, hd.2.1, he'.trans hd.2.2⟩
    · refine .inr ⟨hm, h.droppable hr hd, he'.trans ?_⟩
      rcases h.record r hr with he | ⟨-, -, he⟩
      · rw [he]
      · rw [he, Store.Record.trashed_trashed]

end Thins

section Recent

variable {rs : List Reference} (hc : s.store.Chain 0)
  (hn : ∀ o ∈ s.store.offsets, ((s.store.lits o).map Literal.var).Nodup)
  (hm : ∀ l, s.isMarked l = true ↔ l ∈ clause)
include hc hn hm

/-- A clause that contains all marked literals is dropped, unless it is a reason. -/
theorem thins_subsumeOne (hr : s.store.Current r) (hmem : r ∈ rs) (hred : (s.store.flagsAt r.offset).redundant = true) :
    Thins clause rs s (subsumeOne clause.length s r) := by
  unfold subsumeOne
  split
  · next hsub =>
    have hlits : (s.store.recordAt r.offset).literals.toList = s.store.lits r.offset :=
      Store.literalsAt_toList (hc.mem hr.2).2.fits
    simp only [isSubsumed, Store.record?_of_current hc hr, Bool.and_eq_true, beq_iff_eq] at hsub
    obtain ⟨⟨-, hidle⟩, hcount⟩ := hsub
    have hdrop : s.Droppable clause r := by
      refine ⟨hred, subset_of_length_filter (hn _ hr.2).of_map hm ?_, fun first rest hl => ?_⟩
      · rw [← hlits, ← Array.toList_filter, Array.length_toList]
        exact hcount
      · have hfirst : (s.store.recordAt r.offset).literals.getD 0 .invalid = first := by
          rw [Array.getD_eq_getD_getElem?, ← Array.getElem?_toList, hlits, hl]
          rfl
        rw [hfirst] at hidle
        simpa using hidle
    have hmark : Ends (onStore (Store.markGarbage r)) s (fun _ s₁ => ∃ st', s₁ = { s with store := st' } ∧
        Store.Alike s.store st' ∧ Store.Amended r.offset (s.store.recordAt r.offset).trashed s.store st')
        fun _ _ => False := by
      rw [ends_onStore]
      exact ((Store.ends_markGarbage hc hr).and (Store.ends_markGarbage_amended (E := fun _ _ => False) hc hr)).imp
        (fun _ st' h => ⟨st', rfl, h.1.toAlike, h.2.2⟩) fun _ _ hf => hf.1
    obtain ⟨fresh, s₁, hrun, st', rfl, halike, hamend⟩ := hmark.exists_ok
    have hthins : ∀ counters, Thins clause rs s { s with store := st', counters, recent := s.recent.remove r } :=
      fun counters => by
        refine ⟨⟨st', _, counters, rfl⟩, halike, fun r' hr' => ?_⟩
        by_cases he : r'.offset = r.offset
        · obtain rfl := hr.ext hr' he
          exact .inr ⟨hmem, hdrop, hamend.self⟩
        · exact .inl (hamend.other _ hr'.2 he)
    rw [hrun]
    cases fresh with
    | false => exact hthins s.counters
    | true => exact hthins _
  · exact .refl hc

/-- Several clauses are gone through. -/
theorem thins_foldl_subsumeOne {rs' : List Reference} (hsub : rs' ⊆ rs)
    (hr : ∀ r ∈ rs', s.store.Current r ∧ (s.store.flagsAt r.offset).redundant = true) :
    Thins clause rs s (rs'.foldl (subsumeOne clause.length) s) := by
  induction rs' generalizing s with
  | nil => exact .refl hc
  | cons r rs' ih =>
    obtain ⟨hcur, hred⟩ := hr r (List.mem_cons_self ..)
    have h := thins_subsumeOne hc hn hm hcur (hsub (List.mem_cons_self ..)) hred
    refine h.trans (ih h.alike.chain (fun o ho => ?_) (fun l => ?_) (fun r' hr' => hsub (List.mem_cons_of_mem _ hr'))
      fun r' hr' => ?_)
    · rw [h.alike.offsets] at ho
      rw [h.alike.lits o ho]
      exact hn o ho
    · obtain ⟨_, _, _, he⟩ := h.eq
      rw [he]
      exact hm l
    · obtain ⟨hcur', hred'⟩ := hr r' (List.mem_cons_of_mem _ hr')
      exact ⟨h.alike.current hcur', (h.redundant hcur').trans hred'⟩

end Recent

/-- Recent clauses that contain another one become garbage, unless they are reasons. -/
theorem thins_subsumeRecent {ls : Array Literal} (hc : s.store.Chain 0)
    (hn : ∀ o ∈ s.store.offsets, ((s.store.lits o).map Literal.var).Nodup)
    (hmarks : s.marks = Array.replicate (2 * s.numbering.size) false)
    (hrecent : ∀ r ∈ s.recent.toList, s.store.Current r ∧ (s.store.flagsAt r.offset).redundant = true)
    (hl : ls.toList = clause) (hu : ∀ l ∈ clause, s.numbering.Usable l.var) :
    Thins clause s.recent.toList s (s.subsumeRecent ls) := by
  subst hl
  unfold subsumeRecent
  split
  · exact .refl hc
  · have hm : ∀ l, (s.mark ls true).isMarked l = true ↔ l ∈ ls.toList := by
      simpa using isMarked_mark hmarks hu
    have hthin : Thins ls.toList s.recent.toList (s.mark ls true)
        ((s.mark ls true).recent.toList.foldl (subsumeOne ls.size) (s.mark ls true)) :=
      thins_foldl_subsumeOne (s := s.mark ls true) hc hn hm (List.Subset.refl _) hrecent
    obtain ⟨⟨st', q, c, he⟩, halike, hrec⟩ := hthin
    simp only [he] at halike hrec ⊢
    have hmarks : (Solver.mark { s.mark ls true with store := st', recent := q, counters := c } ls false) =
        { s with store := st', recent := q, counters := c } := by
      have := mark_mark ls hmarks
      simp only [mark] at this ⊢
      rw [this]
    rw [hmarks]
    exact ⟨⟨st', q, c, rfl⟩, halike, fun r hr =>
      (hrec r hr).imp_right (And.imp_right (And.imp_left fun hd => ⟨hd.redundant, hd.subset, hd.idle⟩))⟩

/-! ## Going back and assigning -/

/-- The levels above `k` were taken back, and a literal was assigned. -/
structure Lands (k : Nat) (a : Literal) (reason : Reason) (s s' : Solver ε) : Prop where
  /-- The level is below the one that the solver was on. -/
  below : k < s.trail.level
  /-- The trail. -/
  trail : s'.trail = (s.trail.truncate k).push a
  /-- The literal is true now. -/
  first : s'.val a = .tt
  /-- What is noted of it.  At the root, no reason is kept. -/
  self : s'.assignment.record a.var = { level := k, reason := if k = 0 then .unit else reason }
  /-- Other variables have the values that they had, if they are on the levels that remain. -/
  values : ∀ l, l.var ≠ a.var → s'.val l = if k < s.assignment.level l then .unassigned else s.val l
  /-- What is noted of other variables stays. -/
  records : ∀ v, v ≠ a.var → s'.assignment.record v = s.assignment.record v

namespace Lands

theorem level (h : Lands k a reason s s') : s'.trail.level = k := by
  rw [h.trail]
  exact Trail.level_truncate h.below

/-- Only the trail and the assignment matter for this. -/
theorem congr (h : Lands k a reason s s') (htrail : s''.trail = s'.trail) (hass : s''.assignment = s'.assignment) :
    Lands k a reason s s'' := by
  have hval : s''.val = s'.val := by
    funext l
    rw [val, hass, val]
  exact ⟨h.below, htrail.trans h.trail, by rw [hval, h.first], by rw [hass, h.self],
    fun l hl => by rw [hval, h.values l hl], fun v hv => by rw [hass, h.records v hv]⟩

/-- Nor does anything else of the state before. -/
theorem of_congr (h : Lands k a reason s s') (htrail : t.trail = s.trail) (hass : t.assignment = s.assignment) :
    Lands k a reason t s' := by
  have hval : t.val = s.val := by
    funext l
    rw [val, hass, val]
  refine ⟨htrail ▸ h.below, htrail ▸ h.trail, h.first, h.self, fun l hl => ?_, fun v hv => ?_⟩
  · rw [hval, hass]
    exact h.values l hl
  · rw [hass]
    exact h.records v hv

end Lands

/-- Going back and assigning a literal, whatever was stored in between. -/
theorem Frame.lands (h : s.Frame) (hk : k < s.trail.level) (ha : a.var < s.numbering.size)
    (htrail : t.trail = (s.backtrack k).trail) (hass : t.assignment = (s.backtrack k).assignment) (reason : Reason) :
    Lands k a reason s (t.assign a reason) := by
  obtain ⟨hlevel, -, -, -, -, hval⟩ := h.backtrack_trail hk
  obtain ⟨u, he⟩ := assign_eq t a reason
  obtain ⟨phases, -, hback⟩ := backtrack_eq s hk
  have hlev : t.trail.level = k := by rw [htrail, hlevel]
  have hsized : (s.backtrack k).assignment.Sized s.numbering.size := by
    have := (h.backtrack k).sized
    rwa [hback] at this ⊢
  rw [he]
  refine ⟨hk, ?_, ?_, ?_, fun l hl => ?_, fun v hv => ?_⟩
  · simp only
    rw [htrail, hback]
  · simp only [val]
    rw [hass, Assignment.value_set hsized ha, if_pos rfl]
  · simp only
    rw [hass, Assignment.record_set hsized ha, if_pos rfl, hlev]
  · simp only [val]
    rw [hass, Assignment.value_set hsized ha, if_neg (fun he => hl (congrArg Literal.var he)), if_neg (fun he => hl (by
      rw [he, Literal.var_negate])), hval]
  · simp only
    rw [hass, Assignment.record_set hsized ha, if_neg hv, hback]
    exact h.trail.record_back h.sized (fun v hv => hv.1) v

/-! ## Storing -/

/-- The clause that is stored for a learnt one. -/
def learntRecord (s : Solver ε) (clause : List Literal) (glue : Nat) : Store.Record where
  glue := glue
  flags :=
    { redundant := true
      keep := Decidable.decide (glue ≤ s.settings.keep.tier1.value)
      used := if glue ≤ s.settings.keep.tier2.value then 2 else 1 }
  searched := 2
  literals := clause.toArray

/-- A redundant clause is stored with its glue and its flags, and watched, unless there is no room. -/
theorem ends_storeRedundant_record {ls : Array Literal} (hc : s.store.Chain 0) (hl : ls.toList = x :: y :: tail)
    (h3 : 3 ≤ ls.size) :
    Ends (storeRedundant ls glue) s
      (fun r s' => r = s.store.nextReference ∧ ∃ st' f,
        s' = { s with store := st', watches := s.watches.addLarge r x y } ∧
          Store.Appended (x :: y :: tail) f s.store st' ∧
          st'.recordAt s.store.words.size = s.learntRecord (x :: y :: tail) glue)
      (fun e _ => e = .exhausted ∧ Store.padding ≤ s.store.words.size + Store.headerWords + ls.size) := by
  have h0 : ls.getD 0 .invalid = x := by
    rw [Array.getD_eq_getD_getElem?, ← Array.getElem?_toList, hl]
    rfl
  have h1 : ls.getD 1 .invalid = y := by
    rw [Array.getD_eq_getD_getElem?, ← Array.getElem?_toList, hl]
    rfl
  unfold storeRedundant
  simp only [ends_bind, ends_onStore, ends_get, ends_modify, ends_pure]
  refine (Store.ends_allocate_record hc h3).imp (fun r st₁ h => ?_) fun e st₁ h => ⟨h.1, h.2.2⟩
  obtain ⟨rfl, ha, hrec⟩ := h
  rw [hl] at ha
  have hr := ha.current_next
  simp only [Store.updateFlags, ends_bind, Store.ends_locate ha.chain hr, ends_modify]
  rw [h0, h1]
  refine ⟨trivial, _, _, rfl, ha.setFlagsAt _, (Store.amended_setFlagsAt ha.chain hr.2 _).self.trans ?_⟩
  have hflags : st₁.flagsAt s.store.words.size = .fresh true := congrArg Store.Record.flags hrec
  have hrec : st₁.recordAt s.store.nextReference.offset = .fresh ls true glue := hrec
  rw [hrec, show st₁.flagsAt s.store.nextReference.offset = .fresh true from hflags, learntRecord, ← hl]
  simp only [Store.Record.flagged, Store.Record.fresh, Flags.fresh, usesForGlue,
    Array.toArray_toList]
  split <;> rfl

/-- Where a clause with the first literal `a` is stored, and how `a` refers to it as its reason. -/
inductive Housed (s s' : Solver ε) (a : Literal) (glue : Nat) : List Literal → Reason → Prop
  /-- A unit is only assigned. -/
  | unit : s'.store = s.store → s'.watches = s.watches → Housed s s' a glue [] .unit
  /-- A binary clause is a watch in each of two lists. -/
  | binary {b : Literal} : s'.store.references = s.store.references →
      (∀ l, s'.watches.view l =
        if l = a then s.watches.view l ++ [.binary b true false]
        else if l = b then s.watches.view l ++ [.binary a true false] else s.watches.view l) →
      Housed s s' a glue [b] (.binary b)
  /-- A longer clause comes last in the store, and is watched by its first two literals. -/
  | large {b c : Literal} {tail : List Literal} :
      s'.store.references = s.store.references ++ [s.store.nextReference] →
      s'.store.recordAt s.store.nextReference.offset = s.learntRecord (a :: b :: c :: tail) glue →
      (∀ l, s'.watches.view l =
        if l = a then s.watches.view l ++ [.large b s.store.nextReference]
        else if l = b then s.watches.view l ++ [.large a s.store.nextReference] else s.watches.view l) →
      Housed s s' a glue (b :: c :: tail) (.large s.store.nextReference)

/-- The learnt clause `a :: rest` was stored, and its first literal was assigned. -/
structure Placed (s : Solver ε) (a : Literal) (rest : List Literal) (jump glue : Nat) (s' : Solver ε) : Prop where
  /-- The level that was gone back to. -/
  target : s'.trail.level = if rest = [] then 0 else s.backtrackLevel jump
  /-- What became of the trail and the assignment, and where the clause is. -/
  housed : ∃ reason, Housed s s' a glue rest reason ∧ Lands s'.trail.level a reason s s'
  /-- What became of the clauses that were stored. -/
  kept : ∀ r, s.store.Current r → s'.store.recordAt r.offset = s.store.recordAt r.offset ∨
    ((s.store.flagsAt r.offset).redundant = true ∧ (a :: rest) ⊆ s.store.lits r.offset ∧
      ∀ first tail, s.store.lits r.offset = first :: tail → s'.isReason r first = false) ∧
      s'.store.recordAt r.offset = (s.store.recordAt r.offset).trashed

/-- Only some parts of the states matter for this. -/
theorem Placed.congr {s₁ s₁' : Solver ε} (h : Placed s₁ a rest jump glue s₁')
    (hs : s₁.store = s.store ∧ s₁.watches = s.watches ∧ s₁.trail = s.trail ∧ s₁.assignment = s.assignment ∧
      s₁.settings = s.settings)
    (hs' : s'.store = s₁'.store ∧ s'.watches = s₁'.watches ∧ s'.trail = s₁'.trail ∧ s'.assignment = s₁'.assignment) :
    Placed s a rest jump glue s' := by
  obtain ⟨hst, hw, ht, hass, hset⟩ := hs
  obtain ⟨hst', hw', ht', hass'⟩ := hs'
  have hlevel : s₁.backtrackLevel jump = s.backtrackLevel jump := by rw [backtrackLevel, ht, hset, backtrackLevel]
  have hrecord : s₁.learntRecord = s.learntRecord := by
    funext ls g
    rw [learntRecord, hset, learntRecord]
  have hreason : s'.isReason = s₁'.isReason := by
    funext r m
    rw [isReason, val, hass', isReason, val]
  obtain ⟨reason, hhoused, hlands⟩ := h.housed
  refine ⟨by rw [ht', h.target, hlevel], ⟨reason, ?_, ?_⟩, fun r hr => ?_⟩
  · cases hhoused with
    | unit h1 h2 => exact .unit (by rw [hst', h1, hst]) (by rw [hw', h2, hw])
    | binary h1 h2 => exact .binary (by rw [hst', h1, hst]) fun l => by rw [hw', h2, hw]
    | large h1 h2 h3 =>
      rw [hst] at h1 h2 h3 ⊢
      exact .large (by rw [hst', h1]) (by rw [hst', h2, hrecord]) fun l => by rw [hw', h3, hw]
  · rw [ht']
    exact (hlands.congr ht' hass').of_congr ht.symm hass.symm
  · have := h.kept r (hst ▸ hr)
    rwa [hst, ← hst', ← hreason] at this

/-- Notes that nothing depends on. -/
theorem Placed.noted {recent : Recent} {counters : Counters} (h : Placed s a rest jump glue s') :
    Placed s a rest jump glue { s' with recent, counters } :=
  h.congr ⟨rfl, rfl, rfl, rfl, rfl⟩ ⟨rfl, rfl, rfl, rfl⟩

/-- A literal is assigned, and recent clauses that contain the learnt clause are dropped. -/
theorem Lands.placed {W : Solver ε} (h : Lands k a reason s (W.assign a reason))
    (htarget : k = if rest = [] then 0 else s.backtrackLevel jump)
    (hthin : Thins (a :: rest) W.recent.toList (W.assign a reason) s')
    (hW : ∀ r, s.store.Current r → W.store.Current r ∧ W.store.recordAt r.offset = s.store.recordAt r.offset ∧
      W.store.lits r.offset = s.store.lits r.offset)
    (hhoused : Housed s s' a glue rest reason) : Placed s a rest jump glue s' := by
  have hst : (W.assign a reason).store = W.store := by
    obtain ⟨u, he⟩ := assign_eq W a reason
    rw [he]
  obtain ⟨htrail, hass⟩ : s'.trail = (W.assign a reason).trail ∧ s'.assignment = (W.assign a reason).assignment := by
    obtain ⟨_, _, _, rfl⟩ := hthin.eq
    exact ⟨rfl, rfl⟩
  have hlands := h.congr htrail hass
  refine ⟨hlands.level.trans htarget, ⟨reason, hhoused, hlands.level.symm ▸ hlands⟩, fun r hr => ?_⟩
  obtain ⟨hcur, hrec, hlits⟩ := hW r hr
  have hout := hthin.record r (hst.symm ▸ hcur)
  rw [hst, hrec] at hout
  refine hout.imp_right fun hd => ⟨⟨?_, ?_, fun first tail hl => ?_⟩, hd.2.2⟩
  · have := hd.2.1.redundant
    rw [hst] at this
    exact (congrArg (fun c : Store.Record => c.flags.redundant) hrec).symm.trans this
  · have := hd.2.1.subset
    rwa [hst, hlits] at this
  · have := hd.2.1.idle first tail (by rw [hst, hlits, hl])
    rwa [isReason, val, ← hass, ← val, ← isReason] at this

/-- After a literal was assigned, recent clauses that contain the learnt clause are dropped. -/
theorem thins_assign {ls : Array Literal} (hc : s.store.Chain 0)
    (hn : ∀ o ∈ s.store.offsets, ((s.store.lits o).map Literal.var).Nodup)
    (hmarks : s.marks = Array.replicate (2 * s.numbering.size) false)
    (hrecent : ∀ r ∈ s.recent.toList, s.store.Current r ∧ (s.store.flagsAt r.offset).redundant = true)
    (hl : ls.toList = clause) (hu : ∀ l ∈ clause, s.numbering.Usable l.var) (a : Literal) (reason : Reason) :
    Thins clause s.recent.toList (s.assign a reason) ((s.assign a reason).subsumeRecent ls) ∧
      ((s.assign a reason).subsumeRecent ls).watches = s.watches ∧
      Store.Alike s.store ((s.assign a reason).subsumeRecent ls).store := by
  obtain ⟨u, he⟩ := assign_eq s a reason
  have hthin : Thins clause s.recent.toList (s.assign a reason) ((s.assign a reason).subsumeRecent ls) := by
    have hrecent' : (s.assign a reason).recent = s.recent := by rw [he]
    rw [← hrecent', he]
    exact thins_subsumeRecent hc hn hmarks hrecent hl hu
  refine ⟨hthin, ?_, ?_⟩
  · obtain ⟨_, _, _, he'⟩ := hthin.eq
    rw [he', he]
  · have := hthin.alike
    rwa [he] at this ⊢

section Stored

variable {B : Solver ε} {ls : Array Literal} (hstore : B.store = s.store) (hwatches : B.watches = s.watches)
  (htarget : k = s.backtrackLevel jump)
  (hlands : ∀ W : Solver ε, W.trail = B.trail → W.assignment = B.assignment →
    ∀ reason, Lands k a reason s (W.assign a reason))
include hstore hwatches htarget hlands

/-- A binary clause is watched, and its first literal assigned. -/
theorem Ready.placed_binary (h : B.Ready lags a [b]) (hl : ls.toList = [a, b]) : Placed s a [b] jump glue
      ((Solver.assign { B with watches := B.watches.addBinary a b true false } a (.binary b)).subsumeRecent ls) := by
  have hnd := h.nodup
  obtain ⟨hthin, hw, halike⟩ := thins_assign (s := { B with watches := B.watches.addBinary a b true false })
    h.inv.store.chain h.inv.store.nodup h.inv.marks h.inv.recent hl h.usable a (.binary b)
  refine (hlands _ (by rfl) (by rfl) _).placed htarget hthin (fun r hr => ?_) (.binary ?_ fun l => ?_)
  · simp only [hstore]
    exact ⟨hr, trivial, trivial⟩
  · rw [halike.references, ← hstore]
  · rw [hw, ← hwatches]
    exact Watches.view_addBinary true false (h.inv.toFrame.code_lt (h.usable a (by simp)))
      (h.inv.toFrame.code_lt (h.usable b (by simp))) (fun he => by simp [he] at hnd) l

/-- A longer clause was stored, and its first literal is assigned. -/
theorem Ready.placed_large {c : Literal} (h : B.Ready lags a (b :: c :: tail)) (hl : ls.toList = a :: b :: c :: tail)
    (hsettings : B.settings = s.settings) {st' : Store} {f : Flags}
    (happ : Store.Appended (a :: b :: c :: tail) f B.store st')
    (hrec : st'.recordAt B.store.words.size = B.learntRecord (a :: b :: c :: tail) glue) :
    Placed s a (b :: c :: tail) jump glue ((Solver.assign { B with
      store := st', watches := B.watches.addLarge B.store.nextReference a b } a
        (.large B.store.nextReference)).subsumeRecent ls) := by
  have hc := h.inv.store.chain
  have hnew : B.store.nextReference ∉ B.recent.toList := fun hm =>
    Store.not_mem_offsets hc (h.inv.recent _ hm).1.2
  obtain ⟨hthin, hw, halike⟩ := thins_assign (s := { B with
      store := st', watches := B.watches.addLarge B.store.nextReference a b })
    happ.chain (h.inv.store.append happ h.nodup h.usable).nodup h.inv.marks
    (fun r hr => ⟨happ.current (h.inv.recent r hr).1, by
      simp only
      rw [happ.flagsAt_old hc (h.inv.recent r hr).1.2]
      exact (h.inv.recent r hr).2⟩) hl h.usable a (.large B.store.nextReference)
  refine (hlands _ (by rfl) (by rfl) _).placed htarget hthin (fun r hr => ?_) ?_
  · rw [← hstore] at hr ⊢
    exact ⟨happ.current hr, happ.recordAt_old hc hr.2, happ.lits_old hc hr.2⟩
  · have hnext : B.store.nextReference = s.store.nextReference := by rw [hstore]
    have hview := view_append h.inv.toFrame h.nodup h.usable
    rw [hnext] at hthin hw halike hnew hview ⊢
    have hst : (Solver.assign { B with
        store := st', watches := B.watches.addLarge s.store.nextReference a b } a
          (.large s.store.nextReference)).store = st' := by
      obtain ⟨u, he⟩ := assign_eq { B with
        store := st', watches := B.watches.addLarge s.store.nextReference a b } a (.large s.store.nextReference)
      rw [he]
    have hout := hthin.record s.store.nextReference (by
      rw [hst, ← hnext]
      exact happ.current_next)
    rw [hst] at hout
    refine .large ?_ ?_ fun l => ?_
    · rw [halike.references, ← hstore]
      exact happ.references
    · rcases hout with he | hd
      · rw [he, ← hnext]
        refine hrec.trans ?_
        rw [learntRecord, hsettings, learntRecord]
      · exact absurd hd.1 hnew
    · rw [hw, ← hwatches]
      exact hview l

end Stored

/-- A unit is assigned at the root. -/
theorem Frame.placed_unit (h : s.Frame) (hlev : 0 < s.trail.level) (ha : a.var < s.numbering.size) :
    Placed s a [] jump glue ((s.backtrack 0).assign a .unit) := by
  have hlands := h.lands hlev ha rfl rfl .unit
  obtain ⟨phases, -, hback⟩ := backtrack_eq s hlev
  obtain ⟨u, he⟩ := assign_eq (s.backtrack 0) a .unit
  have hsame : ((s.backtrack 0).assign a .unit).store = s.store ∧
      ((s.backtrack 0).assign a .unit).watches = s.watches := by
    rw [he, hback]
    exact ⟨rfl, rfl⟩
  exact ⟨hlands.level, ⟨.unit, .unit hsame.1 hsame.2, hlands.level.symm ▸ hlands⟩, fun r _ => .inl (by rw [← hsame.1])⟩

/-- Storing the learnt clause and assigning its first literal, unless there is no room. -/
theorem ends_storeLearned_placed {ls : Array Literal} (h : s.Inv lags p) (hp : s.trail.levelStart s.trail.level ≤ p)
    (ha : s.Asserts a rest jump) (hl : ls.toList = a :: rest)
    (hlags : rest ≠ [] → s.backtrackLevel jump ≠ jump → lags) :
    Ends (storeLearned ls jump glue) s (fun _ s' => Placed s a rest jump glue s')
      (fun e _ => e = .exhausted ∧ 3 ≤ (a :: rest).length ∧
        Store.padding ≤ s.store.words.size + Store.headerWords + (a :: rest).length) := by
  have hf := h.toFrame
  have hua : a.var < s.numbering.size := (hf.usable_of_neg_mem ha.first.1).1
  unfold storeLearned
  rw [hl]
  cases rest with
  | nil =>
    obtain rfl := ha.unit rfl
    have hplaced : Placed s a [] 0 glue _ := hf.placed_unit ha.below hua
    rw [ends_modify]
    generalize (s.backtrack 0).assign a .unit = B at hplaced ⊢
    exact hplaced.congr ⟨rfl, rfl, rfl, rfl, rfl⟩ ⟨rfl, rfl, rfl, rfl⟩
  | cons b tail =>
    obtain ⟨hk₁, hk₂, -⟩ := backtrackLevel_spec s ha.below
    obtain ⟨hr, -⟩ := ha.ready h hp hk₁ hk₂ hlags
    obtain ⟨hstore, hwatches, hsettings⟩ : (s.backtrack (s.backtrackLevel jump)).store = s.store ∧
        (s.backtrack (s.backtrackLevel jump)).watches = s.watches ∧
        (s.backtrack (s.backtrackLevel jump)).settings = s.settings := by
      obtain ⟨phases, -, hback⟩ := backtrack_eq s hk₂
      rw [hback]
      exact ⟨rfl, rfl, rfl⟩
    have hlands := fun W hW hW' reason => hf.lands (t := W) hk₂ hua hW hW' reason
    cases tail with
    | nil =>
      simp only [ends_modify]
      generalize s.backtrack (s.backtrackLevel jump) = B at hr hstore hwatches hsettings hlands ⊢
      have : Placed s a [b] jump glue _ := hr.placed_binary hstore hwatches rfl hlands hl
      exact this.noted
    | cons c tail =>
      simp only [ends_bind, ends_modify]
      generalize s.backtrack (s.backtrackLevel jump) = B at hr hstore hwatches hsettings hlands ⊢
      have h3 : 3 ≤ ls.size := by
        rw [← Array.length_toList, hl]
        simp
      refine (ends_storeRedundant_record hr.inv.store.chain hl h3).imp (fun r s₂ hs₂ => ?_) fun e s₂ he => ?_
      · obtain ⟨rfl, st', f, rfl, happ, hrec⟩ := hs₂
        have := hr.placed_large hstore hwatches rfl hlands hl hsettings happ hrec
        exact this.noted
      · have hsize : ls.size = (a :: b :: c :: tail).length := by rw [← Array.length_toList, hl]
        rw [hsize, hstore] at he
        exact ⟨he.1, by simp, he.2⟩

/-- Learning the clause of an analysis, unless there is no room for it. -/
theorem ends_learn_placed (h : s.Inv lags p) (hp : s.trail.levelStart s.trail.level ≤ p) (ha : s.Asserts a rest jump)
    (hl : s.learned.toList = a :: rest) (hlags : rest ≠ [] → s.backtrackLevel jump ≠ jump → lags) :
    Ends (learn jump glue) s (fun _ s' => Placed s a rest jump glue s')
      (fun e _ => e = .exhausted ∧ 3 ≤ (a :: rest).length ∧
        Store.padding ≤ s.store.words.size + Store.headerWords + (a :: rest).length) := by
  have h₁ : Inv lags { s with learned := #[] } p :=
    { h with
      toFrame := { h.toFrame with }
      toWired := { h.toWired with }
      toClean := { h.toClean with } }
  have ha₁ : Asserts { s with learned := #[] } a rest jump := { ha with }
  unfold learn
  simp only [ends_bind, ends_get, ends_modify]
  refine (ends_storeLearned_placed h₁ hp ha₁ hl hlags).imp (fun _ s' hs' => ?_) fun e _ he => he
  refine hs'.congr ⟨rfl, rfl, rfl, rfl, rfl⟩ ?_
  split
  · exact ⟨rfl, rfl, rfl, rfl⟩
  · obtain ⟨c, o, he⟩ := exportClause_eq s' s.learned glue
    rw [he]
    exact ⟨rfl, rfl, rfl, rfl⟩

/-! ## During a search -/

/-- What learning leaves behind: the clause is stored, its first literal is true for it, its other literals are false,
and trail, reasons and watches are in order. -/
structure Asserted (s : Solver ε) (a : Literal) (rest : List Literal) (jump glue : Nat) (s' : Solver ε) : Prop
    extends Placed s a rest jump glue s' where
  /-- The level that was gone back to. -/
  level : jump ≤ s'.trail.level ∧ s'.trail.level < s.trail.level
  /-- The other literals of the clause. -/
  others : ∀ m ∈ rest, s'.val m = .ff ∧ s'.assignment.level m ≤ s'.trail.level
  /-- The trail. -/
  agreement : s'.Agreement
  /-- The reasons. -/
  implications : s'.Implications
  /-- The watches. -/
  listed : s'.Listed

/-- The other literals of the learnt clause are false where it is stored. -/
theorem Placed.others (h : Placed s a rest jump glue s') (hf : s.Frame) (ha : s.Asserts a rest jump) :
    (jump ≤ s'.trail.level ∧ s'.trail.level < s.trail.level) ∧
      ∀ m ∈ rest, s'.val m = .ff ∧ s'.assignment.level m ≤ s'.trail.level := by
  obtain ⟨reason, -, hlands⟩ := h.housed
  have hjump : jump ≤ s'.trail.level := by
    rw [h.target]
    split
    · next hnil => exact Nat.le_of_eq (ha.unit hnil)
    · exact (backtrackLevel_spec s ha.below).1
  refine ⟨⟨hjump, hlands.below⟩, fun m hm => ?_⟩
  obtain ⟨htrail, -, hle⟩ := ha.others m hm
  have hne : m.var ≠ a.var := fun he =>
    (List.nodup_cons.1 ha.nodup).1 (he ▸ List.mem_map_of_mem hm)
  have hlev : s'.assignment.level m = s.assignment.level m := by
    rw [Assignment.level, hlands.records _ hne, ← Assignment.level]
  rw [hlands.values m hne, if_neg (Nat.not_lt_of_le (Nat.le_trans hle hjump)), hlev]
  exact ⟨hf.val_ff.2 htrail, Nat.le_trans hle hjump⟩

variable {C : Settings} {hooks : Hooks ε} {limits : Limits} {stopped : Bool} {outside : ε} {calls : List Call}
  {s₀ : Solver ε}

/-- After the analysis of a conflict during a search, the learnt clause is a unit wherever one goes back to, from its
jump level up to the level below the conflict.  Learning asserts it on such a level, unless there is no room for it in
the store. -/
theorem learn_asserts (hload : calls.forM Call.run (fresh C hooks limits stopped outside) = .ok () s₀)
    (hrun : Run false (.loaded, s₀) (.analyzed jump glue, s)) : ∃ a rest, s.learned.toList = a :: rest ∧
      (∀ k, jump ≤ k → k < s.trail.level →
        (s.backtrack k).val a = .unassigned ∧ ∀ m ∈ rest, (s.backtrack k).val m = .ff) ∧
      ((∃ s', learn jump glue s = .ok () s' ∧ Asserted s a rest jump glue s') ∨
        3 ≤ s.learned.size ∧ Store.padding ≤ s.store.words.size + Store.headerWords + s.learned.size ∧
          ∃ s', learn jump glue s = .error .exhausted s') := by
  obtain ⟨-, key, S, hc, hanalyzed⟩ := (hrun.at (loaded_run hload)).1
  obtain ⟨p, hp, -, hlev⟩ := hc.inv
  have hinv := hanalyzed.inv p hp
  have hstart : s.trail.levelStart s.trail.level ≤ p := by rwa [hanalyzed.trail]
  obtain ⟨a, rest, hl, hass, -⟩ := hanalyzed.learned
  have hsize : s.learned.size = (a :: rest).length := by rw [← Array.length_toList, hl]
  refine ⟨a, rest, hl, fun k hj hk => ?_, ?_⟩
  · obtain ⟨hready, -⟩ := hass.ready hinv hstart hj hk fun _ _ => rfl
    exact ⟨hready.unassigned, fun m hm => hready.inv.toFrame.val_ff.2 (hready.others m hm).1⟩
  · have hends : Ends (learn jump glue) s _ _ := ends_learn_placed hinv hstart hass hl fun _ _ => rfl
    cases he : learn jump glue s with
    | ok _ s' =>
      have hplaced := hends.of_ok he
      obtain ⟨hlevel, hothers⟩ := hplaced.others hinv.toFrame hass
      have hnext : Run false (.loaded, s₀) (.ready, s') := hrun.tail (.learn (fun hf => by simp at hf) he)
      have hlive := (hnext.at (loaded_run hload)).1
      exact .inl ⟨s', rfl, hplaced, hlevel, hothers, hlive.inv.toFrame.agreement, hlive.inv.implications,
        hlive.inv.listed⟩
    | error e s' =>
      obtain ⟨rfl, h3, hroom⟩ := hends.of_error he
      rw [hsize]
      exact .inr ⟨h3, hroom, s', rfl⟩

/-- A clause of three literals is learnt. -/
theorem learn_asserts_large : ∃ (s₀ s : Solver Unit) (jump glue : Nat),
    [Call.clause [-4, 3], .clause [-2, -3, 1], .clause [-2, -4, -1]].forM Call.run
      (fresh {} {} {} false ()) = .ok () s₀ ∧
      Run false (.loaded, s₀) (.analyzed jump glue, s) ∧ s.learned.size = 3 ∧
      ∃ a rest, s.learned.toList = a :: rest ∧
        (∀ k, jump ≤ k → k < s.trail.level →
          (s.backtrack k).val a = .unassigned ∧ ∀ m ∈ rest, (s.backtrack k).val m = .ff) ∧
        ((∃ s', learn jump glue s = .ok () s' ∧ Asserted s a rest jump glue s') ∨
          3 ≤ s.learned.size ∧ Store.padding ≤ s.store.words.size + Store.headerWords + s.learned.size ∧
            ∃ s', learn jump glue s = .error .exhausted s') := by
  obtain ⟨s₀, place, s, hload, hrun, htest⟩ := exists_trial (fresh {} {} {} false ())
    [Call.clause [-4, 3], .clause [-2, -3, 1], .clause [-2, -4, -1]] 2
    (fun place s => match place with
      | .conflicted key => (result? (analyze key) s.noteConflict).any fun x => match x with
        | (.asserting _ _, t) => t.learned.size == 3
        | _ => false
      | _ => false) (by decide +kernel)
  cases place with
  | conflicted key =>
    obtain ⟨⟨out, t⟩, he, hsize⟩ := (Option.any_eq_true ..).1 htest
    cases out with
    | asserting jump glue =>
      have hnext : Run false (.loaded, s₀) (.analyzed jump glue, t) := hrun.tail (.analyze (result?_eq_some.1 he))
      exact ⟨s₀, t, jump, glue, hload, hnext, by simpa using hsize, learn_asserts hload hnext⟩
    | fundamental => simp at hsize
  | _ => simp at htest

end Solver

end ClauseLearning
