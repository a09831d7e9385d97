import ClauseLearning.Proofs.Store.Edit
import ClauseLearning.Solver.Propagate
import Mathlib.Data.List.Perm.Basic

/-!
# Visits of clauses

What a visit of a clause does to it, and what its outcome says about the literals of the clause.  The search for a literal
to watch goes once over the literals from position two on, wherever it begins.

* `Store.Front` — the first two literals of a clause, which are the watched ones.
* `Store.setLiteralAt_setLiteralAt` — writing two literals over one another exchanges them.
* `Store.searchOrder`, `Store.searchOrder_perm` — the positions in the order in which they are searched.
* `Store.findReplacement_eq` — the search for a literal to watch finds the first in this order that is not false.
* `Store.Visited` — the outcome of a visit, with `Store.visited_visit` and `Store.ends_visit`.
-/

namespace ClauseLearning

namespace Store

variable {s s' : Store} {a : Assignment} {no other : Literal} {o : Nat} {r : Reference}

/-! ## The first two literals -/

/-- Two literals are the first two of a clause, in one order or the other. -/
def Front (s : Store) (o : Nat) (x y : Literal) : Prop :=
  s.literalAt o 0 = x ∧ s.literalAt o 1 = y ∨ s.literalAt o 0 = y ∧ s.literalAt o 1 = x

namespace Front

variable {x y : Literal}

theorem literalAt_iff (h : s.Front o x y) (l : Literal) :
    (s.literalAt o 0 = l ∨ s.literalAt o 1 = l) ↔ (l = x ∨ l = y) := by
  rcases h with ⟨h0, h1⟩ | ⟨h0, h1⟩
  · rw [h0, h1, eq_comm (a := x), eq_comm (a := y)]
  · rw [h0, h1, eq_comm (a := x), eq_comm (a := y), or_comm]

theorem ne (h : s.Front o x y) (hne : s.literalAt o 0 ≠ s.literalAt o 1) : x ≠ y := by
  rcases h with ⟨h0, h1⟩ | ⟨h0, h1⟩
  · rwa [← h0, ← h1]
  · rw [← h0, ← h1]
    exact hne.symm

theorem mem (h : s.Front o x y) (h2 : 1 < s.sizeAt o) : x ∈ s.lits o ∧ y ∈ s.lits o := by
  have hzero : s.literalAt o 0 ∈ s.lits o := literalAt_mem (Nat.lt_of_succ_lt h2)
  have hone : s.literalAt o 1 ∈ s.lits o := literalAt_mem h2
  rcases h with ⟨h0, h1⟩ | ⟨h0, h1⟩
  · exact ⟨h0 ▸ hzero, h1 ▸ hone⟩
  · exact ⟨h1 ▸ hone, h0 ▸ hzero⟩

end Front

/-- Writing two literals over one another is exchanging them. -/
theorem setLiteralAt_setLiteralAt {i j : Nat} (hf : o + headerWords + s.sizeAt o ≤ s.words.size) (hi : i < s.sizeAt o)
    (hj : j < s.sizeAt o) :
    (s.setLiteralAt o i (s.literalAt o j)).setLiteralAt o j (s.literalAt o i) = s.swapAt o i j := by
  have hio : o + headerWords + i < s.words.size := by omega
  have hjo : o + headerWords + j < s.words.size := by omega
  simp only [setLiteralAt, setWord, swapAt, literalAt, Store.mk.injEq, and_self, and_true]
  apply Array.ext_getElem?
  intro k
  simp only [Array.swapIfInBounds_def, hio, hjo, dif_pos, Array.getElem?_swap,
    Array.getElem?_setIfInBounds, Array.size_setIfInBounds, word]
  by_cases h : o + headerWords + j = k
  · simp [h]
  · simp [h]

/-! ## The search for a literal to watch -/

/-- The positions of a clause of size `n`, from two on, in the order in which they are searched if the last search ended at
`resume`. -/
def searchOrder (n resume : Nat) : List Nat :=
  let start := if 2 ≤ resume ∧ resume < n then resume else 2
  List.range' start (n - start) ++ List.range' 2 (start - 2)

/-- Every position from two on is searched once, wherever the search begins. -/
theorem searchOrder_perm {n : Nat} (hn : 2 ≤ n) (resume : Nat) :
    (searchOrder n resume).Perm (List.range' 2 (n - 2)) := by
  have hcut : ∀ start, 2 ≤ start → start ≤ n →
      (List.range' start (n - start) ++ List.range' 2 (start - 2)).Perm (List.range' 2 (n - 2)) := by
    intro start h2 hle
    have hjoin : List.range' 2 (start - 2) ++ List.range' start (n - start) = List.range' 2 (n - 2) := by
      have := List.range'_append_1 (s := 2) (m := start - 2) (n := n - start)
      rwa [Nat.add_sub_cancel' h2, show start - 2 + (n - start) = n - 2 by omega] at this
    exact hjoin ▸ List.perm_append_comm
  rw [searchOrder]
  split
  next h => exact hcut resume h.1 (Nat.le_of_lt h.2)
  next => exact hcut 2 (Nat.le_refl 2) hn

theorem mem_searchOrder {n resume j : Nat} (hn : 2 ≤ n) : j ∈ searchOrder n resume ↔ 2 ≤ j ∧ j < n := by
  rw [(searchOrder_perm hn resume).mem_iff, List.mem_range'_1]
  omega

theorem findNotFalse_eq (s : Store) (a : Assignment) (o i n : Nat) :
    s.findNotFalse a o i n = (List.range' i n).find? fun j => a.value (s.literalAt o j) ≠ .ff := by
  induction n generalizing i with
  | zero => rfl
  | succ n ih =>
    rw [findNotFalse, List.range'_succ, List.find?_cons, ih]
    split
    next h => simp [h]
    next h => simp [h]

/-- What is found is the first literal in the order of the search that is not false. -/
theorem findReplacement_eq (s : Store) (a : Assignment) (o n : Nat) :
    s.findReplacement a o n = (searchOrder n (s.searchedAt o)).find? fun j => a.value (s.literalAt o j) ≠ .ff := by
  rw [findReplacement, searchOrder, List.find?_append, ← findNotFalse_eq, ← findNotFalse_eq, Option.or_eq_orElse]
  rfl

theorem findReplacement_some {n j : Nat} (h : s.findReplacement a o n = some j) (hn : 2 ≤ n) :
    2 ≤ j ∧ j < n ∧ a.value (s.literalAt o j) ≠ .ff := by
  rw [findReplacement_eq] at h
  obtain ⟨hj, hjn⟩ := (mem_searchOrder hn).1 (List.mem_of_find?_eq_some h)
  exact ⟨hj, hjn, by simpa using List.find?_some h⟩

theorem findReplacement_none {n : Nat} (h : s.findReplacement a o n = none) :
    ∀ j, 2 ≤ j → j < n → a.value (s.literalAt o j) = .ff := by
  intro j hj hjn
  rw [findReplacement_eq, List.find?_eq_none] at h
  simpa using h j ((mem_searchOrder (by omega)).2 ⟨hj, hjn⟩)

/-! ## Visits -/

/-- What the outcome of a visit says.  The clause is watched by the false literal `no` and by `other`. -/
structure Visited (a : Assignment) (no other : Literal) (o : Nat) (s : Store) (v : Visit) (s' : Store) :
    Prop extends Permuted o s s' where
  /-- The other watched literal comes first. -/
  first : s'.literalAt o 0 = other
  /-- A clause whose first literal is true is not changed. -/
  same : s.literalAt o 0 = other → a.value other = .tt → s' = s
  /-- The outcome. -/
  outcome : match v with
    | .satisfied l => l = other ∧ a.value other = .tt ∧ s'.literalAt o 1 = no
    | .moved m l => l = other ∧ s'.literalAt o 1 = m ∧ m ≠ no ∧ m ≠ other ∧ a.value m ≠ .ff
    | .forced l => l = other ∧ a.value other = .unassigned ∧ s'.literalAt o 1 = no ∧
        ∀ m ∈ (s'.lits o).tail, m = no ∨ a.value m = .ff
    | .conflict => a.value other = .ff ∧ s'.literalAt o 1 = no ∧
        ∀ m ∈ s'.lits o, m = no ∨ a.value m = .ff
  /-- Where the search ended if it found a literal.  The false literal is there now. -/
  found : ∀ m l, v = .moved m l → a.value other ≠ .tt ∧ 2 ≤ s'.searchedAt o ∧ s'.searchedAt o < s.sizeAt o ∧
    s.literalAt o (s'.searchedAt o) = m ∧ s'.literalAt o (s'.searchedAt o) = no

theorem nodup_literalAt (hn : (s.lits o).Nodup) {i j : Nat} (hi : i < s.sizeAt o)
    (hj : j < s.sizeAt o) (he : s.literalAt o i = s.literalAt o j) : i = j := by
  have h1 : i < (s.lits o).length := by rwa [length_lits]
  have h2 : j < (s.lits o).length := by rwa [length_lits]
  refine (@List.Nodup.getElem_inj_iff _ _ hn i h1 j h2).1 ?_
  simpa [lits] using he

theorem mem_tail_lits {l : Literal} (h3 : 3 ≤ s.sizeAt o) (hl : l ∈ (s.lits o).tail) :
    l = s.literalAt o 1 ∨ ∃ j, 2 ≤ j ∧ j < s.sizeAt o ∧ l = s.literalAt o j := by
  rw [lits_eq_cons_cons h3, List.tail_cons, List.mem_cons] at hl
  refine hl.imp_right fun hl => ?_
  obtain ⟨i, hi, he⟩ := List.mem_drop_iff_getElem.1 hl
  refine ⟨2 + i, by omega, ?_, ?_⟩
  · rw [length_lits] at hi
    omega
  · rw [← he]
    simp [lits]

/-- A watch that moves: the false literal and the one at position `i` change places, and the next search resumes there. -/
theorem permuted_move {i : Nat} (hf : o + headerWords + s.sizeAt o ≤ s.words.size) (hone : 1 < s.sizeAt o)
    (hi : i < s.sizeAt o) (h1 : s.literalAt o 1 = no) :
    let t := ((s.setLiteralAt o 1 (s.literalAt o i)).setLiteralAt o i no).setSearchedAt o i
    Permuted o s t ∧ t.searchedAt o = i ∧
      ∀ k, t.literalAt o k = if k = 1 then s.literalAt o i else if k = i then no else s.literalAt o k := by
  have hswap : (s.setLiteralAt o 1 (s.literalAt o i)).setLiteralAt o i no = s.swapAt o 1 i := by
    rw [← h1]
    exact setLiteralAt_setLiteralAt hf hone hi
  have hinside : o + 3 < (s.swapAt o 1 i).words.size := by
    rw [size_swapAt]
    simp only [headerWords] at hf
    omega
  simp only [hswap]
  refine ⟨(permuted_swapAt hf hone hi).trans (permuted_setSearchedAt _ o i), ?_, fun k => ?_⟩
  · rw [searchedAt, setSearchedAt, word_setWord, if_pos ⟨rfl, hinside⟩]
  · rw [literalAt_setSearchedAt, literalAt_swapAt hf hone hi, h1]

/-- The visit of a clause in which the false literal is at position one. -/
theorem visited_visitAt (h3 : 3 ≤ s.sizeAt o) (hf : o + headerWords + s.sizeAt o ≤ s.words.size)
    (hn : (s.lits o).Nodup) (h1 : s.literalAt o 1 = no) :
    Visited a no (s.literalAt o 0) o s (s.visitAt a no o (s.sizeAt o)).1
      (s.visitAt a no o (s.sizeAt o)).2 := by
  unfold visitAt
  by_cases htt : a.value (s.literalAt o 0) = .tt
  · simp only [htt, if_true]
    exact ⟨.rfl', rfl, fun _ _ => rfl, ⟨rfl, htt, h1⟩, fun _ _ hm => Visit.noConfusion hm⟩
  · simp only [htt, if_false]
    cases hfind : s.findReplacement a o (s.sizeAt o) with
    | some i =>
      obtain ⟨hi2, hin, hv⟩ := findReplacement_some hfind (by omega)
      obtain ⟨hp, hsearched, hlit⟩ := permuted_move hf (by omega) hin h1
      refine ⟨hp, ?_, fun _ ht => absurd ht htt, ⟨rfl, ?_, ?_, ?_, hv⟩, ?_⟩
      · rw [hlit, if_neg (by omega), if_neg (by omega)]
      · rw [hlit, if_pos rfl]
      · intro he
        have := nodup_literalAt hn hin (by omega) (he.trans h1.symm)
        omega
      · intro he
        have := nodup_literalAt hn hin (by omega) he
        omega
      · intro m l hm
        obtain ⟨rfl, rfl⟩ := Visit.moved.inj hm
        dsimp only
        rw [hsearched]
        exact ⟨htt, hi2, hin, rfl, by rw [hlit, if_neg (by omega), if_pos rfl]⟩
    | none =>
      have hall := findReplacement_none hfind
      have htail : ∀ m ∈ (s.lits o).tail, m = no ∨ a.value m = .ff := fun m hm => by
        rcases mem_tail_lits h3 hm with rfl | ⟨j, hj, hjn, rfl⟩
        · exact .inl h1
        · exact .inr (hall j hj hjn)
      by_cases hff : a.value (s.literalAt o 0) = .ff
      · simp only [hff, if_true]
        refine ⟨.rfl', rfl, fun _ _ => rfl, ⟨hff, h1, fun m hm => ?_⟩, fun _ _ hm => Visit.noConfusion hm⟩
        rw [lits_eq_cons h3, List.mem_cons] at hm
        rcases hm with rfl | hm
        · exact .inr hff
        · exact htail m hm
      · simp only [hff, if_false]
        refine ⟨.rfl', rfl, fun _ _ => rfl, ⟨rfl, ?_, h1, htail⟩, fun _ _ hm => Visit.noConfusion hm⟩
        cases hval : a.value (s.literalAt o 0) with
        | tt => exact absurd hval htt
        | ff => exact absurd hval hff
        | unassigned => rfl

/-- Moving the false literal to position one changes no more than the order of the literals. -/
theorem permuted_front (hf : o + headerWords + s.sizeAt o ≤ s.words.size) (hone : 1 < s.sizeAt o) (no : Literal) :
    Permuted o s (if s.literalAt o 0 = no then s.swapAt o 0 1 else s) := by
  split
  · exact permuted_swapAt hf (by omega) hone
  · exact .rfl'

/-- It leaves the other watched literal first, and later ones where they are. -/
theorem literalAt_front (hf : o + headerWords + s.sizeAt o ≤ s.words.size) (hone : 1 < s.sizeAt o)
    (hne : s.literalAt o 0 ≠ s.literalAt o 1)
    (hw : s.Front o other no) (k : Nat) :
    (if s.literalAt o 0 = no then s.swapAt o 0 1 else s).literalAt o k =
      if k = 0 then other else if k = 1 then no else s.literalAt o k := by
  rcases hw with ⟨h0, h1⟩ | ⟨h0, h1⟩
  · rw [if_neg fun h => hne (h.trans h1.symm)]
    split
    next hk => rw [hk, h0]
    next =>
      split
      next hk => rw [hk, h1]
      next => rfl
  · rw [if_pos h0, literalAt_swapAt hf (by omega) hone, h0, h1]

/-- A visit by a good reference succeeds if the clause is watched by the false literal. -/
theorem visited_visit {n : Nat} (hr : s.size? r = .ok n) (h3 : 3 ≤ n) (hn : (s.lits r.offset).Nodup)
    (hw : s.Front r.offset other no) :
    ∃ v s', visit a no r s = .ok v s' ∧ Visited a no other r.offset s v s' := by
  obtain ⟨rfl, hf⟩ := of_size?_eq_ok hr
  have hne : s.literalAt r.offset 0 ≠ s.literalAt r.offset 1 := fun he => by
    have := nodup_literalAt hn (by omega) (by omega) he
    omega
  have hp := permuted_front hf (by omega) no
  have hlit := literalAt_front hf (by omega) hne hw
  have hsame : s.literalAt r.offset 0 = other → (if s.literalAt r.offset 0 = no then s.swapAt r.offset 0 1 else s) = s :=
    fun he => if_neg fun h0 => by
      rcases hw with ⟨-, h1⟩ | ⟨-, h1⟩
      · exact hne (h0.trans h1.symm)
      · exact hne (he.trans h1.symm)
  unfold visit
  simp only [hr]
  generalize (if s.literalAt r.offset 0 = no then s.swapAt r.offset 0 1 else s) = t at hp hlit hsame
  have h0 : t.literalAt r.offset 0 = other := hlit 0
  have h1 : t.literalAt r.offset 1 = no := hlit 1
  have hv := visited_visitAt (a := a) (by rwa [hp.sizeAt_self]) (by rwa [hp.sizeAt_self, hp.size])
    (hp.perm.nodup_iff.2 hn) h1
  rw [hp.sizeAt_self, h0] at hv
  rw [if_pos h1]
  refine ⟨_, _, rfl, hp.trans hv.toPermuted, hv.first, fun he htt => ?_, hv.outcome, fun m l hm => ?_⟩
  · rw [hv.same h0 htt, hsame he]
  · obtain ⟨htt, hi, hlt, hfound, hno⟩ := hv.found m l hm
    rw [hp.sizeAt_self] at hlt
    rw [hlit, if_neg (by omega), if_neg (by omega)] at hfound
    exact ⟨htt, hi, hlt, hfound, hno⟩

/-- A visit of a stored clause which is watched by the false literal succeeds. -/
theorem ends_visit (hc : s.Chain 0) (hr : s.Current r) (hn : (s.lits r.offset).Nodup)
    (hw : s.Front r.offset other no) :
    ∃ v s', visit a no r s = .ok v s' ∧ Visited a no other r.offset s v s' :=
  visited_visit (size?_of_current hc hr) (hc.mem hr.2).2.three hn hw

end Store

end ClauseLearning
