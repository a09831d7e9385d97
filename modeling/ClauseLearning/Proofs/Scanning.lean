import ClauseLearning.Proofs.Visit

/-!
# A visit is a plain scan

The search for a literal to watch resumes where the last one ended.  What is noted there may be out of date, or lie outside
of a clause that was shortened since.  None of this is seen in the outcome of a visit: it is the one that a plain scan of
all literals gives, and only which of several literals is watched next depends on where the search began.

* `Store.Scanned` — the outcome of a visit by a plain scan, and what the visit leaves behind.
* `Store.Visited.satisfied_iff`, `Store.Visited.conflict_iff`, `Store.Visited.forced_iff`, `Store.Visited.moved_iff` — each
  outcome.
* `Store.visit_scans` — every visit of a clause by a false literal that watches it is a plain scan.
-/

namespace ClauseLearning

namespace Store

variable {s s' : Store} {a : Assignment} {no other : Literal} {o n : Nat} {r : Reference} {v : Visit}

/-- The outcome of a visit by a plain scan, and what the visit leaves behind.  The clause is watched by the false literal
`no` and by `other`. -/
structure Scanned (a : Assignment) (no other : Literal) (o : Nat) (s : Store) (v : Visit) (s' : Store) : Prop
    extends Permuted o s s' where
  /-- The clause is satisfied by the other watched literal if this is true. -/
  satisfied : ∀ l, v = .satisfied l ↔ l = other ∧ a.value other = .tt
  /-- There is a conflict if all literals are false. -/
  conflict : v = .conflict ↔ ∀ l ∈ s.lits o, a.value l = .ff
  /-- The other watched literal is forced if it is unassigned and all others are false. -/
  forced : ∀ l, v = .forced l ↔
    l = other ∧ a.value other = .unassigned ∧ ∀ m ∈ s.lits o, m ≠ other → a.value m = .ff
  /-- The watch moves if the clause is not satisfied in this way and some literal from position two on is not false. -/
  moved : (∃ m l, v = .moved m l) ↔
    a.value other ≠ .tt ∧ ∃ i, 2 ≤ i ∧ i < s.sizeAt o ∧ a.value (s.literalAt o i) ≠ .ff
  /-- It moves to such a literal, which changes places with the false one, and the next search resumes there. -/
  found : ∀ m l, v = .moved m l → l = other ∧ a.value m ≠ .ff ∧ s'.literalAt o 1 = m ∧
    2 ≤ s'.searchedAt o ∧ s'.searchedAt o < s.sizeAt o ∧
    s.literalAt o (s'.searchedAt o) = m ∧ s'.literalAt o (s'.searchedAt o) = no
  /-- The other watched literal comes first. -/
  first : s'.literalAt o 0 = other
  /-- The false literal comes second if it is still watched. -/
  second : (∀ m l, v ≠ .moved m l) → s'.literalAt o 1 = no

namespace Visited

theorem mem_other (h : Visited a no other o s v s') (h3 : 3 ≤ s.sizeAt o) : other ∈ s.lits o := by
  rw [← h.mem_lits, ← h.first]
  exact literalAt_mem (by rw [h.sizeAt_self]; omega)

/-- A clause that forces a literal has no other literal that is not false. -/
theorem false_of_forced {l m : Literal} (h : Visited a no other o s (.forced l) s') (h3 : 3 ≤ s.sizeAt o)
    (hno : a.value no = .ff) (hm : m ∈ s.lits o) (hne : m ≠ other) : a.value m = .ff := by
  obtain ⟨-, -, -, htail⟩ := h.outcome
  rw [← h.mem_lits, lits_eq_cons (by rwa [h.sizeAt_self]), h.first] at hm
  rcases htail m ((List.mem_cons.1 hm).resolve_left hne) with rfl | hff
  · exact hno
  · exact hff

/-- A clause that is a conflict has no literal that is not false. -/
theorem false_of_conflict {m : Literal} (h : Visited a no other o s .conflict s') (hno : a.value no = .ff)
    (hm : m ∈ s.lits o) : a.value m = .ff := by
  obtain ⟨-, -, hall⟩ := h.outcome
  rcases hall m (h.mem_lits.2 hm) with rfl | hff
  · exact hno
  · exact hff

/-- A literal that is watched next was not false. -/
theorem not_false_of_moved {m l : Literal} (h : Visited a no other o s (.moved m l) s') :
    m ∈ s.lits o ∧ m ≠ other ∧ a.value m ≠ .ff := by
  obtain ⟨-, -, -, hne, hv⟩ := h.outcome
  obtain ⟨-, -, hlt, hm, -⟩ := h.found m l rfl
  exact ⟨hm ▸ literalAt_mem hlt, hne, hv⟩

theorem satisfied_iff (h : Visited a no other o s v s') (l : Literal) :
    v = .satisfied l ↔ l = other ∧ a.value other = .tt := by
  constructor
  · rintro rfl
    exact ⟨h.outcome.1, h.outcome.2.1⟩
  · rintro ⟨rfl, htt⟩
    cases v with
    | satisfied l' => rw [h.outcome.1]
    | moved m l' => exact absurd htt (h.found m l' rfl).1
    | forced l' => simp [h.outcome.2.1] at htt
    | conflict => simp [h.outcome.1] at htt

theorem conflict_iff (h : Visited a no other o s v s') (h3 : 3 ≤ s.sizeAt o) (hno : a.value no = .ff) :
    v = .conflict ↔ ∀ l ∈ s.lits o, a.value l = .ff := by
  constructor
  · rintro rfl l hl
    exact h.false_of_conflict hno hl
  · intro hall
    have hff := hall other (h.mem_other h3)
    cases v with
    | satisfied l => simp [h.outcome.2.1] at hff
    | moved m l => exact absurd (hall m h.not_false_of_moved.1) h.not_false_of_moved.2.2
    | forced l => simp [h.outcome.2.1] at hff
    | conflict => rfl

theorem forced_iff (h : Visited a no other o s v s') (h3 : 3 ≤ s.sizeAt o) (hno : a.value no = .ff) (l : Literal) :
    v = .forced l ↔ l = other ∧ a.value other = .unassigned ∧ ∀ m ∈ s.lits o, m ≠ other → a.value m = .ff := by
  constructor
  · rintro rfl
    exact ⟨h.outcome.1, h.outcome.2.1, fun m => h.false_of_forced h3 hno⟩
  · rintro ⟨rfl, hun, hall⟩
    cases v with
    | satisfied l' => simp [h.outcome.2.1] at hun
    | moved m l' =>
      obtain ⟨hm, hne, hv⟩ := h.not_false_of_moved
      exact absurd (hall m hm hne) hv
    | forced l' => rw [h.outcome.1]
    | conflict => simp [h.outcome.1] at hun

theorem moved_iff (h : Visited a no other o s v s') (h3 : 3 ≤ s.sizeAt o) (hno : a.value no = .ff)
    (hn : (s.lits o).Nodup) (hw : ∃ k < 2, s.literalAt o k = other) :
    (∃ m l, v = .moved m l) ↔
      a.value other ≠ .tt ∧ ∃ i, 2 ≤ i ∧ i < s.sizeAt o ∧ a.value (s.literalAt o i) ≠ .ff := by
  constructor
  · rintro ⟨m, l, rfl⟩
    obtain ⟨htt, hle, hlt, hm, -⟩ := h.found m l rfl
    exact ⟨htt, s'.searchedAt o, hle, hlt, hm ▸ h.not_false_of_moved.2.2⟩
  · rintro ⟨htt, i, hi, hlt, hv⟩
    have hmem : s.literalAt o i ∈ s.lits o := literalAt_mem hlt
    -- the other watched literal is at one of the first two positions, and the literals are different
    have hne : s.literalAt o i ≠ other := by
      obtain ⟨k, hk, rfl⟩ := hw
      intro he
      have := nodup_literalAt hn hlt (by omega) he
      omega
    cases v with
    | satisfied l => exact absurd h.outcome.2.1 htt
    | moved m l => exact ⟨m, l, rfl⟩
    | forced l => exact absurd (h.false_of_forced h3 hno hmem hne) hv
    | conflict => exact absurd (h.false_of_conflict hno hmem) hv

/-- What a visit comes to is what a plain scan does. -/
theorem scanned (h : Visited a no other o s v s') (h3 : 3 ≤ s.sizeAt o) (hno : a.value no = .ff)
    (hn : (s.lits o).Nodup) (hw : ∃ k < 2, s.literalAt o k = other) : Scanned a no other o s v s' where
  toPermuted := h.toPermuted
  satisfied := h.satisfied_iff
  conflict := h.conflict_iff h3 hno
  forced := h.forced_iff h3 hno
  moved := h.moved_iff h3 hno hn hw
  found m l hv := by
    subst hv
    obtain ⟨hl, hone, -, -, hval⟩ := h.outcome
    exact ⟨hl, hval, hone, (h.found m l rfl).2⟩
  first := h.first
  second hv := by
    cases v with
    | satisfied l => exact h.outcome.2.2
    | moved m l => exact absurd rfl (hv m l)
    | forced l => exact h.outcome.2.2.1
    | conflict => exact h.outcome.2.1

end Visited

/-- **A visit is a plain scan.**  A clause of three or more different literals is visited by a false literal which is the
first or the second one.  Whatever the assignment is and wherever the search for a literal to watch begins, the visit
succeeds, and its outcome is that of a plain scan. -/
theorem visit_scans (hr : s.size? r = .ok n) (h3 : 3 ≤ n) (hn : (s.lits r.offset).Nodup) (hno : a.value no = .ff)
    (hw : s.literalAt r.offset 0 = other ∧ s.literalAt r.offset 1 = no ∨
      s.literalAt r.offset 0 = no ∧ s.literalAt r.offset 1 = other) :
    ∃ v s', visit a no r s = .ok v s' ∧ Scanned a no other r.offset s v s' := by
  obtain ⟨v, s', hvisit, h⟩ := visited_visit (a := a) hr h3 hn hw
  obtain ⟨rfl, -⟩ := of_size?_eq_ok hr
  have hother : ∃ k < 2, s.literalAt r.offset k = other := by
    rcases hw with ⟨h0, -⟩ | ⟨-, h1⟩
    · exact ⟨0, by omega, h0⟩
    · exact ⟨1, by omega, h1⟩
  exact ⟨v, s', hvisit, h.scanned h3 hno hn hother⟩

/-- A clause of five literals, whose search resumes at the last one. -/
def lastSearched : Store := { words := #[5, 0, 0, 4, 0, 2, 4, 6, 8] }

/-- Its second and fourth literals are unassigned, and the others are false. -/
def twoUnassigned : Assignment :=
  { values := #[.ff, .tt, .unassigned, .unassigned, .ff, .tt, .unassigned, .unassigned, .ff, .tt] }

/-- The search wraps around to the fourth literal. -/
theorem visit_scans_around :
    lastSearched.size? ⟨0, 0⟩ = .ok 5 ∧ (lastSearched.lits 0).Nodup ∧ twoUnassigned.value ⟨0⟩ = .ff ∧
      lastSearched.literalAt 0 0 = ⟨0⟩ ∧ lastSearched.literalAt 0 1 = ⟨2⟩ ∧
      ∃ s', visit twoUnassigned ⟨0⟩ ⟨0, 0⟩ lastSearched = .ok (.moved ⟨6⟩ ⟨2⟩) s' ∧
        s'.literalAt 0 0 = ⟨2⟩ ∧ s'.literalAt 0 1 = ⟨6⟩ ∧ s'.searchedAt 0 = 3 ∧ s'.literalAt 0 3 = ⟨0⟩ := by
  have hr : lastSearched.size? ⟨0, 0⟩ = .ok 5 := rfl
  have hn : (lastSearched.lits 0).Nodup := by decide
  have hno : twoUnassigned.value ⟨0⟩ = .ff := by decide
  have h0 : lastSearched.literalAt 0 0 = ⟨0⟩ := by decide
  have h1 : lastSearched.literalAt 0 1 = ⟨2⟩ := by decide
  have honly : ∀ i < 5, 2 ≤ i → twoUnassigned.value (lastSearched.literalAt 0 i) ≠ .ff → i = 3 := by decide
  refine ⟨hr, hn, hno, h0, h1, ?_⟩
  obtain ⟨v, s', hvisit, h⟩ := visit_scans hr (by decide) hn hno (.inr ⟨h0, h1⟩)
  obtain ⟨m, l, rfl⟩ := h.moved.2 ⟨by decide, 3, by decide, by decide, by decide⟩
  obtain ⟨rfl, hval, hone, hle, hlt, hm, hplace⟩ := h.found m l rfl
  have hi : s'.searchedAt 0 = 3 := honly _ hlt hle (by rwa [hm])
  rw [hi] at hm hplace
  obtain rfl : ⟨6⟩ = m := hm
  exact ⟨s', hvisit, h.first, hone, hi, hplace⟩

end Store

end ClauseLearning
