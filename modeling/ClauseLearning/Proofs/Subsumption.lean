import ClauseLearning.Proofs.Accounting
import ClauseLearning.Proofs.Blind
import ClauseLearning.Proofs.Jumping

/-!
# Recent clauses that are subsumed

A clause that was learnt is compared with the recent ones, by counting in each the literals that it marked.  Since no
clause has a literal twice and no mark is left behind, the count is full exactly if all literals of the learnt clause
are in there.  So what goes are the recent clauses that contain it, but for those that are garbage already or a reason.

* `Solver.Subsumed`, `Solver.subsumedRecent` — clauses that contain another one and may go, and the recent ones of them.
* `Solver.dropAll` — what it means that clauses go.
* `Solver.isSubsumed_iff`, `Solver.foldl_subsumeOne` — the test, and all tests one after another.
* `Solver.Sieved`, `Solver.Inv.sieved` — what becomes of a state, and that this becomes of it.
* `Solver.storeAsserting`, `Solver.learn_eq` — learning up to the comparison, and after it.
* `Solver.subsumeRecent_exact` — the comparison in every reachable state, and in every call.
-/

namespace ClauseLearning

/-- The elements of one list that are in another list without repetitions are as many as this has, if it has all. -/
theorem length_filter_of_subset {α : Type} {ls ms : List α} (hn : ls.Nodup) (hm : ms.Nodup) {p : α → Bool}
    (hp : ∀ l, p l = true ↔ l ∈ ms) (hsub : ms ⊆ ls) : (ls.filter p).length = ms.length := by
  refine ((List.perm_ext_iff_of_nodup (hn.filter p) hm).2 fun l => ?_).length_eq
  rw [List.mem_filter, hp]
  exact ⟨fun h => h.2, fun h => ⟨hsub h, h⟩⟩

namespace Store

variable {st : Store} {r : Reference}

/-- A store in which a clause that was not garbage is marked as garbage. -/
def trash (st : Store) (r : Reference) : Store :=
  { st.setFlagsAt r.offset { st.flagsAt r.offset with garbage := true } with
    garbage := st.garbage + headerWords + st.sizeAt r.offset }

section Current

variable (hc : st.Chain 0) (hr : st.Current r) (hg : (st.flagsAt r.offset).garbage = false)
include hc hr hg

theorem markGarbage_eq : markGarbage r st = .ok true (st.trash r) := by
  have hends : Ends (markGarbage r) st (fun fresh st' => fresh = true ∧ st' = st.trash r) fun _ _ => False := by
    simp only [markGarbage, ends_bind, ends_locate hc hr, ends_get, hg]
    exact ⟨rfl, rfl⟩
  obtain ⟨fresh, st', he, rfl, rfl⟩ := hends.exists_ok
  exact he

/-- Only this clause is another one, and it is garbage. -/
theorem amended_trash : Alike st (st.trash r) ∧ Amended r.offset (st.recordAt r.offset).trashed st (st.trash r) := by
  have halike := (ends_markGarbage (E := fun _ _ => False) hc hr).of_ok (markGarbage_eq hc hr hg)
  have hamend := (ends_markGarbage_amended (E := fun _ _ => False) hc hr).of_ok (markGarbage_eq hc hr hg)
  exact ⟨halike.toAlike, hamend.2⟩

end Current

/-- Some clauses are garbage now, and others are as they were. -/
structure Trashes (rs : List Reference) (st st' : Store) : Prop where
  /-- Clauses have the same places and the same literals. -/
  alike : Alike st st'
  /-- What became of each of them. -/
  record : ∀ r, st.Current r → st'.recordAt r.offset =
    if r ∈ rs then (st.recordAt r.offset).trashed else st.recordAt r.offset
  /-- The words of those that are garbage now are counted. -/
  garbage : st'.garbage = rs.foldl (fun n r => n + headerWords + (st.lits r.offset).length) st.garbage

/-- Clauses are marked one after another. -/
theorem trashes_foldl {rs : List Reference} (hc : st.Chain 0) (hn : rs.Nodup)
    (hr : ∀ r ∈ rs, st.Current r ∧ (st.flagsAt r.offset).garbage = false) : Trashes rs st (rs.foldl trash st) := by
  induction rs generalizing st with
  | nil => exact ⟨.refl hc, fun r _ => by simp, rfl⟩
  | cons r rs ih =>
    obtain ⟨hcur, hg⟩ := hr r (List.mem_cons_self ..)
    obtain ⟨hnot, hn⟩ := List.nodup_cons.1 hn
    obtain ⟨halike, hamend⟩ := amended_trash hc hcur hg
    have hother : ∀ r', st.Current r' → r' ≠ r → (st.trash r).recordAt r'.offset = st.recordAt r'.offset :=
      fun r' hr' hne => hamend.other _ hr'.2 fun ho => hne (hcur.ext hr' ho)
    have hrest := ih halike.chain hn fun r' hr' => by
      have hcur' := (hr r' (List.mem_cons_of_mem _ hr')).1
      refine ⟨halike.current hcur', ?_⟩
      have hsame := hother r' hcur' fun he => hnot (he ▸ hr')
      exact (congrArg (fun c : Record => c.flags.garbage) hsame).trans (hr r' (List.mem_cons_of_mem _ hr')).2
    refine ⟨halike.trans hrest.alike, fun r' hr' => ?_, ?_⟩
    · have hrecord := hrest.record r' (halike.current hr')
      rw [List.foldl_cons, hrecord]
      by_cases he : r' = r
      · subst he
        rw [if_neg hnot, if_pos (List.mem_cons_self ..)]
        exact hamend.self
      · rw [hother r' hr' he]
        simp [he]
    · have hsize : st.sizeAt r.offset = (st.lits r.offset).length := (length_lits st r.offset).symm
      have hlits : ∀ r' ∈ rs, (st.trash r).lits r'.offset = st.lits r'.offset := fun r' hr' =>
        halike.lits _ (hr r' (List.mem_cons_of_mem _ hr')).1.2
      rw [List.foldl_cons, hrest.garbage, List.foldl_cons, ← hsize]
      refine List.foldl_ext _ _ _ fun n r' hr' => ?_
      rw [hlits r' hr']

end Store

namespace Recent

theorem mem_foldl_remove {q : Recent} {rs : List Reference} {r' : Reference} :
    r' ∈ (rs.foldl remove q).toList ↔ r' ∈ q.toList ∧ r' ∉ rs := by
  induction rs generalizing q with
  | nil => simp
  | cons r rs ih =>
    rw [List.foldl_cons, ih, mem_remove, List.mem_cons, not_or]
    exact and_assoc

end Recent

namespace Solver

variable {ε : Type} {lags : Prop} {s s' t : Solver ε} {p jump glue : Nat} {clause : List Literal} {r : Reference}
  {rs : List Reference}

/-- A clause is subsumed by another one and may go: it is not garbage, contains that one, and is not the reason of an
assigned literal. -/
def Subsumed (s : Solver ε) (clause : List Literal) (r : Reference) : Prop :=
  (s.store.flagsAt r.offset).garbage = false ∧ clause ⊆ s.store.lits r.offset ∧ ¬ s.IsReason r.offset

instance (s : Solver ε) (clause : List Literal) : DecidablePred (s.Subsumed clause) := fun _ =>
  inferInstanceAs (Decidable (_ ∧ _ ∧ _))

/-- The recent clauses that are subsumed by another one, each of them once. -/
def subsumedRecent (s : Solver ε) (clause : List Literal) : List Reference :=
  (s.recent.toList.filter fun r => Decidable.decide (s.Subsumed clause r)).eraseDups

/-- Some clauses are garbage, are no recent ones, and are counted. -/
def dropAll (s : Solver ε) (rs : List Reference) : Solver ε :=
  { s with
    store := rs.foldl Store.trash s.store
    recent := rs.foldl Recent.remove s.recent
    counters.subsumed := s.counters.subsumed + rs.length }

theorem dropAll_cons (s : Solver ε) (r : Reference) (rs : List Reference) :
    s.dropAll (r :: rs) = (s.dropAll [r]).dropAll rs := by
  have hcount : s.counters.subsumed + (r :: rs).length = s.counters.subsumed + [r].length + rs.length := by
    simp only [List.length_cons, List.length_nil]
    omega
  rw [dropAll, hcount]
  rfl

/-! ## The test -/

/-- What the test of recent clauses relies on: no clause has a literal twice, and a reason has its literal first. -/
structure Testable (s : Solver ε) : Prop where
  /-- The walk over the store is good. -/
  chain : s.store.Chain 0
  /-- No clause has a literal twice. -/
  nodup : ∀ o ∈ s.store.offsets, (s.store.lits o).Nodup
  /-- A reason has its literal first. -/
  first : ∀ l r, s.val l = .tt → s.assignment.reason l = .large r →
    s.store.Current r ∧ ∃ rest, s.store.lits r.offset = l :: rest
  /-- What is true is on the trail. -/
  true_iff : ∀ l, s.val l = .tt ↔ l ∈ s.trail.literals

theorem Inv.testable (h : s.Inv lags p) : s.Testable where
  chain := h.store.chain
  nodup o ho := (h.store.nodup o ho).of_map
  first l r hl hr := by
    obtain ⟨i, hi, rfl⟩ := Trail.exists_at' ((h.trail.tt_iff l).1 hl)
    obtain ⟨-, hcur, rest, hlits, -⟩ := (h.grounded i hi).large hr
    exact ⟨hcur, rest, hlits⟩
  true_iff := h.trail.tt_iff

namespace Testable

variable (h : s.Testable)
include h

/-- A clause is a reason if it is the reason of its first literal. -/
theorem isReason_iff (hr : s.store.Current r) (first : Literal) (hfirst : ∀ l rest,
    s.store.lits r.offset = l :: rest → first = l) : s.isReason r first = true ↔ s.IsReason r.offset := by
  have hself : (⟨r.offset, s.store.epoch⟩ : Reference) = r := by rw [← hr.1]
  simp only [isReason, Bool.and_eq_true, decide_eq_true_eq, IsReason, hself]
  constructor
  · rintro ⟨hval, hreason⟩
    exact ⟨first, (h.true_iff first).1 hval, hreason⟩
  · rintro ⟨l, hl, hreason⟩
    have hval := (h.true_iff l).2 hl
    obtain ⟨-, rest, hlits⟩ := h.first l r hval hreason
    rw [hfirst l rest hlits]
    exact ⟨hval, hreason⟩

/-- The test finds the clauses that contain all marked literals and may go. -/
theorem isSubsumed_iff (hm : ∀ l, s.isMarked l = true ↔ l ∈ clause) (hn : clause.Nodup) (hr : s.store.Current r) :
    s.isSubsumed clause.length r = true ↔ s.Subsumed clause r := by
  have hlits : (s.store.recordAt r.offset).literals.toList = s.store.lits r.offset :=
    Store.literalsAt_toList (h.chain.mem hr.2).2.fits
  have hcount : ((s.store.recordAt r.offset).literals.filter s.isMarked).size =
      ((s.store.lits r.offset).filter s.isMarked).length := by
    rw [← hlits, ← Array.toList_filter, Array.length_toList]
  have hsize : (s.store.recordAt r.offset).literals.size = (s.store.lits r.offset).length := by
    rw [← hlits, Array.length_toList]
  have hidle := h.isReason_iff hr ((s.store.recordAt r.offset).literals.getD 0 .invalid) fun l rest hl => by
    rw [Array.getD_eq_getD_getElem?, ← Array.getElem?_toList, hlits, hl]
    rfl
  have hsub : clause.length ≤ (s.store.lits r.offset).length ∧
      ((s.store.lits r.offset).filter s.isMarked).length = clause.length ↔ clause ⊆ s.store.lits r.offset := by
    constructor
    · exact fun hlen => subset_of_length_filter (h.nodup _ hr.2) hm hlen.2
    · intro hsub
      have hlen := length_filter_of_subset (h.nodup _ hr.2) hn hm hsub
      exact ⟨hlen ▸ List.length_filter_le .., hlen⟩
  have hflags : (s.store.recordAt r.offset).flags = s.store.flagsAt r.offset := rfl
  simp only [isSubsumed, Store.record?_of_current h.chain hr]
  rw [hcount, hsize, hflags]
  simp only [Bool.and_eq_true, Bool.not_eq_true', decide_eq_true_eq, beq_iff_eq, ← Bool.not_eq_true, hidle, Subsumed,
    ← hsub]
  tauto

/-- Where a subsumed clause goes, the test may go on. -/
theorem drop (hr : s.store.Current r) (hg : (s.store.flagsAt r.offset).garbage = false) :
    (s.dropAll [r]).Testable ∧ Store.Alike s.store (s.dropAll [r]).store ∧
      Store.Amended r.offset (s.store.recordAt r.offset).trashed s.store (s.dropAll [r]).store := by
  obtain ⟨halike, hamend⟩ := Store.amended_trash h.chain hr hg
  refine ⟨⟨halike.chain, ?_, ?_, h.true_iff⟩, halike, hamend⟩
  · intro o ho
    have ho : o ∈ s.store.offsets := halike.offsets ▸ ho
    exact (halike.lits o ho).symm ▸ h.nodup o ho
  · intro l r' hl hreason
    obtain ⟨hcur, rest, hlits⟩ := h.first l r' hl hreason
    exact ⟨halike.current hcur, rest, (halike.lits _ hcur.2).trans hlits⟩

/-- Then this clause is subsumed no more, and others are if they were. -/
theorem subsumed_drop {r' : Reference} (hr : s.store.Current r) (hs : s.Subsumed clause r) (hr' : s.store.Current r') :
    (s.dropAll [r]).Subsumed clause r' ↔ s.Subsumed clause r' ∧ r' ≠ r := by
  obtain ⟨-, halike, hamend⟩ := h.drop hr hs.1
  have hlits : (s.dropAll [r]).store.lits r'.offset = s.store.lits r'.offset := halike.lits _ hr'.2
  have hreason : (s.dropAll [r]).IsReason r'.offset ↔ s.IsReason r'.offset := by
    unfold IsReason
    rw [halike.epoch]
    exact Iff.rfl
  unfold Subsumed
  rw [hlits, hreason]
  by_cases he : r' = r
  · subst he
    have hgarbage : ((s.dropAll [r']).store.flagsAt r'.offset).garbage = true := by
      have := congrArg (fun c : Store.Record => c.flags.garbage) hamend.self
      refine this.trans ?_
      unfold Store.Record.trashed
      split
      · assumption
      · rfl
    simp [hgarbage]
  · have hne : r'.offset ≠ r.offset := fun ho => he (hr.ext hr' ho)
    have hflags := congrArg Store.Record.flags (hamend.other _ hr'.2 hne)
    rw [show (s.dropAll [r]).store.flagsAt r'.offset = s.store.flagsAt r'.offset from hflags]
    simp [he]

/-- One recent clause goes if it is subsumed. -/
theorem subsumeOne_eq (hm : ∀ l, s.isMarked l = true ↔ l ∈ clause) (hn : clause.Nodup) (hr : s.store.Current r) :
    subsumeOne clause.length s r = if s.Subsumed clause r then s.dropAll [r] else s := by
  have htest := h.isSubsumed_iff hm hn hr
  unfold subsumeOne
  by_cases hs : s.Subsumed clause r
  · rw [if_pos (htest.2 hs), if_pos hs]
    simp only [onStore, Store.markGarbage_eq h.chain hr hs.1]
    rfl
  · rw [if_neg (mt htest.1 hs), if_neg hs]

/-- Of several clauses those go that were subsumed at the beginning, each of them once. -/
theorem foldl_subsumeOne (hm : ∀ l, s.isMarked l = true ↔ l ∈ clause) (hn : clause.Nodup)
    (hr : ∀ r ∈ rs, s.store.Current r) : rs.foldl (subsumeOne clause.length) s =
      s.dropAll (rs.filter fun r => Decidable.decide (s.Subsumed clause r)).eraseDups := by
  induction rs generalizing s with
  | nil => rfl
  | cons r rs ih =>
    have hcur := hr r (List.mem_cons_self ..)
    have hrest : ∀ r' ∈ rs, s.store.Current r' := fun r' hr' => hr r' (List.mem_cons_of_mem _ hr')
    rw [List.foldl_cons, h.subsumeOne_eq hm hn hcur]
    by_cases hs : s.Subsumed clause r
    · obtain ⟨htest, halike, -⟩ := h.drop hcur hs.1
      -- the others are subsumed as they were, but for copies of this one
      have hfilter : (rs.filter fun r' => Decidable.decide ((s.dropAll [r]).Subsumed clause r')) =
          (rs.filter fun r' => Decidable.decide (s.Subsumed clause r')).filter fun r' => !r' == r := by
        rw [List.filter_filter]
        refine List.filter_congr fun r' hr' => ?_
        have hdrop := h.subsumed_drop hcur hs (hrest r' hr')
        rw [Bool.eq_iff_iff, decide_eq_true_eq, hdrop]
        simp [and_comm]
      rw [if_pos hs, ih htest hm fun r' hr' => halike.current (hrest r' hr'), hfilter,
        List.filter_cons_of_pos (by simpa using hs), List.eraseDups_cons]
      exact (dropAll_cons ..).symm
    · rw [if_neg hs, ih h hm hrest, List.filter_cons_of_neg (by simpa using hs)]

end Testable

/-! ## All recent clauses -/

theorem nodup_eraseDups {α : Type} [BEq α] [LawfulBEq α] (ls : List α) : ls.eraseDups.Nodup := by
  induction hn : ls.length using Nat.strongRecOn generalizing ls with
  | _ n ih =>
    cases ls with
    | nil => exact List.nodup_nil
    | cons a ls =>
      rw [List.eraseDups_cons, List.nodup_cons]
      refine ⟨fun hm => ?_, ih _ ?_ _ rfl⟩
      · have := (List.mem_filter.1 (List.mem_eraseDups.1 hm)).2
        simp at this
      · rw [← hn, List.length_cons]
        exact Nat.lt_succ_of_le (List.length_filter_le ..)

theorem mem_subsumedRecent : r ∈ s.subsumedRecent clause ↔ r ∈ s.recent.toList ∧ s.Subsumed clause r := by
  rw [subsumedRecent, List.mem_eraseDups, List.mem_filter, decide_eq_true_eq]

/-- The comparison drops the recent clauses that are subsumed, and nothing else comes of it. -/
theorem Inv.subsumeRecent_eq (h : s.Inv lags p) {ls : Array Literal} (hn : ls.toList.Nodup)
    (hu : ∀ l ∈ ls.toList, s.numbering.Usable l.var) :
    s.subsumeRecent ls = s.dropAll (s.subsumedRecent ls.toList) := by
  unfold subsumeRecent
  by_cases hcap : s.recent.capacity = 0
  · have hnone : s.subsumedRecent ls.toList = [] := by
      have hplaces : s.recent.places = #[] := Array.eq_empty_of_size_eq_zero hcap
      simp [subsumedRecent, Recent.toList, hplaces]
    rw [if_pos hcap, hnone]
    rfl
  · have htest : (s.mark ls true).Testable := { h.testable with }
    have hmarked : ∀ l, (s.mark ls true).isMarked l = true ↔ l ∈ ls.toList := by
      simpa using isMarked_mark h.marks hu
    have hcurrent : ∀ r ∈ s.recent.toList, s.store.Current r := fun r hr => (h.recent r hr).1
    have hfold := htest.foldl_subsumeOne hmarked hn hcurrent
    have hunmark : ∀ rs, Solver.mark ((s.mark ls true).dropAll rs) ls false = s.dropAll rs := by
      intro rs
      have hmarks := mark_mark ls h.marks
      simp only [mark, dropAll] at hmarks ⊢
      rw [hmarks]
    rw [if_neg hcap]
    exact (congrArg (fun t => Solver.mark t ls false) hfold).trans (hunmark _)

/-! ## What becomes of a state -/

/-- The comparison with a clause: the recent clauses that contain it, are no garbage and are no reasons, are garbage
afterwards, are no recent clauses any more, and are counted; everything else stays. -/
structure Sieved (s : Solver ε) (clause : List Literal) (s' : Solver ε) : Prop where
  /-- Nothing else has changed. -/
  eq : s' = s.dropAll (s.subsumedRecent clause)
  /-- All recent clauses were redundant, so those that go are. -/
  redundant : ∀ r ∈ s.subsumedRecent clause, s.store.Current r ∧ (s.store.flagsAt r.offset).redundant = true
  /-- Those that go are garbage, and no clause else has changed. -/
  trashes : Store.Trashes (s.subsumedRecent clause) s.store s'.store
  /-- Those that go are no recent clauses, and the others still are. -/
  recent : ∀ r, r ∈ s'.recent.toList ↔ r ∈ s.recent.toList ∧ r ∉ s.subsumedRecent clause
  /-- Each of them is counted once. -/
  counted : (s.subsumedRecent clause).Nodup ∧
    s'.counters.subsumed = s.counters.subsumed + (s.subsumedRecent clause).length
  /-- No literal is marked. -/
  marks : s'.marks = Array.replicate (2 * s'.numbering.size) false

/-- This comes of every state that keeps the invariant, and of every clause without repetitions. -/
theorem Inv.sieved (h : s.Inv lags p) {ls : Array Literal} (hn : ls.toList.Nodup)
    (hu : ∀ l ∈ ls.toList, s.numbering.Usable l.var) : s.Sieved ls.toList (s.subsumeRecent ls) := by
  have heq := h.subsumeRecent_eq hn hu
  have hdropped : ∀ r ∈ s.subsumedRecent ls.toList, s.store.Current r ∧
      (s.store.flagsAt r.offset).redundant = true := fun r hr => h.recent r (mem_subsumedRecent.1 hr).1
  have hnodup : (s.subsumedRecent ls.toList).Nodup := nodup_eraseDups _
  refine ⟨heq, hdropped, ?_, ?_, ⟨hnodup, ?_⟩, ?_⟩
  · rw [heq]
    exact Store.trashes_foldl h.store.chain hnodup fun r hr =>
      ⟨(hdropped r hr).1, (mem_subsumedRecent.1 hr).2.1⟩
  · intro r
    rw [heq]
    exact Recent.mem_foldl_remove
  · rw [heq]
    rfl
  · rw [heq]
    exact h.marks

/-! ## The comparison in learning -/

/-- Learning a clause of two or more literals, up to its comparison with recent ones: it is stored, and its first
literal is assigned.  The answer is where it is, if it is in the store. -/
def storeAsserting (clause : Array Literal) (jump glue : Nat) : SolverM ε (Option Reference) :=
  match clause.toList with
  | [a, b] => do
    modify fun s =>
      let s := s.backtrack (s.backtrackLevel jump)
      let s := { s with watches := s.watches.addBinary a b true false }
      s.assign a (.binary b)
    return none
  | a :: _ => do
    modify fun s => s.backtrack (s.backtrackLevel jump)
    let r ← storeRedundant clause glue
    modify fun s => s.assign a (.large r)
    return some r
  | [] => return none

/-- What is noted of a clause that was learnt, after its comparison with recent ones. -/
def noteStored (s : Solver ε) : Option Reference → Solver ε
  | none => s.count fun c => { c with learnedBinaries := c.learnedBinaries + 1 }
  | some r => { s with recent := s.recent.push r }.count fun c => { c with learnedLarge := c.learnedLarge + 1 }

/-- A clause of two or more literals is stored, compared with recent ones, and noted. -/
theorem storeLearned_eq {clause : Array Literal} (jump glue : Nat) (h2 : 2 ≤ clause.size) (s : Solver ε) :
    storeLearned clause jump glue s = (do
      let place ← storeAsserting clause jump glue
      modify fun s => (s.subsumeRecent clause).noteStored place : SolverM ε Unit) s := by
  have hsize : 2 ≤ clause.toList.length := by rwa [Array.length_toList]
  unfold storeLearned storeAsserting
  generalize clause.toList = ls at hsize ⊢
  rcases ls with _ | ⟨a, _ | ⟨b, _ | ⟨c, rest⟩⟩⟩
  · simp at hsize
  · simp at hsize
  · rfl
  · simp only [bind_apply, modify_apply]
    cases storeRedundant clause glue (s.backtrack (s.backtrackLevel jump)) <;> rfl

/-- So learning such a clause comes down to what it was compared in. -/
theorem learn_of_storeAsserting {place : Option Reference} (h2 : 2 ≤ s.learned.size)
    (ht : storeAsserting s.learned jump glue { s with learned := #[] } = .ok place t) :
    learn jump glue s = .ok () { ((t.subsumeRecent s.learned).noteStored place).exportClause s.learned glue with
      learned := s.learned } := by
  have hne : s.learned.isEmpty = false := by
    rw [Array.isEmpty_eq_false_iff]
    intro he
    simp [he] at h2
  have hstore := storeLearned_eq jump glue h2 { s with learned := #[] }
  simp only [bind_apply, ht, modify_apply] at hstore
  unfold learn
  rw [get_bind_apply, modify_bind_apply, bind_apply, hstore]
  simp only [modify_apply, hne, Bool.false_eq_true, if_false]

variable {a : Literal} {rest : List Literal} {place : Option Reference}

/-- The invariant holds where the clause is compared, and its literals are on different variables. -/
theorem ends_storeAsserting {ls : Array Literal} (glue : Nat) (h : s.Inv lags p) (hp : s.trail.levelStart s.trail.level ≤ p)
    (ha : s.Asserts a rest jump) (hl : ls.toList = a :: rest) (hrest : rest ≠ [])
    (hlags : rest ≠ [] → s.backtrackLevel jump ≠ jump → lags) :
    Ends (storeAsserting ls jump glue) s
      (fun _ t => (∃ p, t.Inv lags p) ∧ ls.toList.Nodup ∧ ∀ l ∈ ls.toList, t.numbering.Usable l.var)
      (fun e _ => e = .exhausted) := by
  obtain ⟨hk₁, hk₂, -⟩ := backtrackLevel_spec s ha.below
  obtain ⟨hr, -⟩ := ha.ready h hp hk₁ hk₂ hlags
  unfold storeAsserting
  rw [hl]
  have hassign : ∀ (t : Solver ε) reason, (t.assign a reason).numbering = t.numbering := by
    intro t reason
    obtain ⟨u, he⟩ := assign_eq t a reason
    rw [he]
  rcases rest with _ | ⟨b, _ | ⟨c, tail⟩⟩
  · exact absurd rfl hrest
  · simp only [ends_bind, ends_modify, ends_pure]
    generalize s.backtrack (s.backtrackLevel jump) = B at hr ⊢
    exact ⟨⟨_, hr.inv_binary⟩, hr.nodup.of_map, by rw [hassign]; exact hr.usable⟩
  · simp only [ends_bind, ends_modify, ends_pure]
    generalize s.backtrack (s.backtrackLevel jump) = B at hr ⊢
    have h3 : 3 ≤ ls.size := by
      rw [← Array.length_toList, hl]
      simp
    refine (ends_storeRedundant hr.inv.store.chain hl h3).imp (fun r t ht => ?_) fun e _ he => he.1
    obtain ⟨rfl, st', f, rfl, happ, hred, hreason⟩ := ht
    exact ⟨⟨_, (hr.inv_large (by simp) happ hred hreason).2⟩, hr.nodup.of_map, by rw [hassign]; exact hr.usable⟩

variable {C : Settings} {hooks : Hooks ε} {limits : Limits} {stopped : Bool} {outside : ε} {moment : Moment}

/-- **Recent clauses are sieved exactly.**  In every reachable state the recent clauses are current and redundant.
There and wherever a learnt clause is compared with them, those go that contain the clause, are no garbage and are no
reasons, and nothing else comes of it. -/
theorem subsumeRecent_exact (h : Reached C hooks limits stopped outside (moment, s)) :
    (∀ r ∈ s.recent.toList, s.store.Current r ∧ (s.store.flagsAt r.offset).redundant = true) ∧
    (∀ ls : Array Literal, ls.toList.Nodup → (∀ l ∈ ls.toList, s.numbering.Usable l.var) →
      s.Sieved ls.toList (s.subsumeRecent ls)) ∧
    ∀ jump glue place t, moment = .analyzed jump glue → 2 ≤ s.learned.size →
      storeAsserting s.learned jump glue { s with learned := #[] } = .ok place t →
        t.Sieved s.learned.toList (t.subsumeRecent s.learned) ∧
          learn jump glue s = .ok () { ((t.subsumeRecent s.learned).noteStored place).exportClause s.learned glue with
            learned := s.learned } := by
  obtain ⟨p, hp⟩ := h.stands.intact
  refine ⟨hp.recent, fun ls hn hu => hp.sieved hn hu, ?_⟩
  rintro jump glue place t rfl h2 ht
  obtain ⟨-, key, S, hc, hanalyzed⟩ := h.stands
  obtain ⟨p, hp, -, hlev⟩ := hc.inv
  have hinv := hanalyzed.inv p hp
  have hstart : s.trail.levelStart s.trail.level ≤ p := by rwa [hanalyzed.trail]
  obtain ⟨a, rest, hl, hass, -⟩ := hanalyzed.learned
  have hrest : rest ≠ [] := by
    rintro rfl
    rw [← Array.length_toList, hl] at h2
    simp at h2
  have h₁ : Inv (false = false) { s with learned := #[] } p :=
    { hinv with
      toFrame := { hinv.toFrame with }
      toWired := { hinv.toWired with }
      toClean := { hinv.toClean with } }
  have hends := ends_storeAsserting glue h₁ hstart { hass with } hl hrest fun _ _ => rfl
  obtain ⟨⟨q, hq⟩, hn, hu⟩ := hends.of_ok ht
  exact ⟨hq.sieved hn hu, learn_of_storeAsserting h2 ht⟩

/-- Clauses from which a large clause is learnt, and then a binary one that it contains. -/
def sievedCalls : List Call :=
  [.clause [2, -4, -1, 3], .clause [-1, -3, 2], .clause [-3, -2, -1, -4], .clause [1, -3, 2], .clause [-4, 1, -2],
    .clause [-3, -4, 2, 1]]

/-- Where the binary clause is compared, the large one goes. -/
theorem subsumeRecent_exact_drops : ∃ (s t : Solver Unit) (jump glue : Nat) (place : Option Reference),
    Reached {} {} {} false () (.analyzed jump glue, s) ∧ 2 ≤ s.learned.size ∧
      storeAsserting s.learned jump glue { s with learned := #[] } = .ok place t ∧
      t.subsumedRecent s.learned.toList ≠ [] ∧
      (∀ r ∈ s.recent.toList, s.store.Current r ∧ (s.store.flagsAt r.offset).redundant = true) ∧
      (∀ ls : Array Literal, ls.toList.Nodup → (∀ l ∈ ls.toList, s.numbering.Usable l.var) →
        s.Sieved ls.toList (s.subsumeRecent ls)) ∧
      t.Sieved s.learned.toList (t.subsumeRecent s.learned) ∧
      learn jump glue s = .ok () { ((t.subsumeRecent s.learned).noteStored place).exportClause s.learned glue with
        learned := s.learned } := by
  obtain ⟨s₀, place, s, hload, hrun, htest⟩ := exists_trial (fresh {} {} {} false ()) sievedCalls 4
    (fun place s => match place with
      | .conflicted key => (result? (analyze key) s.noteConflict).any fun x => match x with
        | (.asserting jump glue, t) => Nat.ble 2 t.learned.size &&
          (result? (storeAsserting t.learned jump glue) { t with learned := #[] }).any fun y =>
            !(y.2.subsumedRecent t.learned.toList).isEmpty
        | _ => false
      | _ => false) (by decide +kernel)
  cases place with
  | conflicted key =>
    obtain ⟨⟨out, t⟩, he, hsize⟩ := (Option.any_eq_true ..).1 htest
    cases out with
    | asserting jump glue =>
      obtain ⟨h2, hstore⟩ := Bool.and_eq_true_iff.1 hsize
      have h2 := Nat.le_of_ble_eq_true h2
      obtain ⟨⟨place, u⟩, hu, hdrops⟩ := (Option.any_eq_true ..).1 hstore
      have hu := result?_eq_some.1 hu
      have hreached := Run.reached hload (hrun.tail (.analyze (result?_eq_some.1 he)))
      obtain ⟨hrecent, hall, hcall⟩ := subsumeRecent_exact hreached
      refine ⟨t, u, jump, glue, place, hreached, h2, hu, ?_, hrecent, hall, hcall jump glue place u rfl h2 hu⟩
      simpa using hdrops
    | fundamental => simp at hsize
  | _ => simp at htest

end Solver

end ClauseLearning
