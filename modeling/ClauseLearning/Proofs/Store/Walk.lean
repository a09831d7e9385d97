import ClauseLearning.Store.Sweep
import Mathlib.Data.List.Nodup

/-!
# The clauses of a store

A store is an array of words, and which clauses are in it is a matter of walking over the words.  A walk
is good if it meets nothing but padding and clauses and ends where the words end.  On a good walk clauses
do not overlap, so what is written inside of one is not seen by any other.

* `Store.Chain` — the walk from a position on is good.
* `Store.offsets`, `Store.lits` — the clauses, and the literals of each.
* `Store.EditedAt` — words were written inside of one clause only; its size stays.
* `Store.Alike` — the same clauses at the same places, whatever is noted about them.
-/

namespace ClauseLearning

namespace Store

/-! ## Words -/

theorem word_setWord (s : Store) (i w j : Nat) :
    (s.setWord i w).word j = if i = j ∧ i < s.words.size then w else s.word j := by
  simp only [word, setWord, Array.getD_eq_getD_getElem?, Array.getElem?_setIfInBounds]
  by_cases hij : i = j
  · subst hij
    by_cases hi : i < s.words.size
    · simp [hi]
    · simp [hi]
  · simp [hij]

@[simp] theorem epoch_setWord (s : Store) (i w : Nat) : (s.setWord i w).epoch = s.epoch := rfl

@[simp] theorem epoch_setLiteralsAt (s : Store) (o i : Nat) (ls : List Literal) :
    (s.setLiteralsAt o i ls).epoch = s.epoch := by
  induction ls generalizing s i with
  | nil => rfl
  | cons l ls ih => rw [setLiteralsAt, ih, setLiteralAt, epoch_setWord]

theorem word_swapAt {s : Store} {o i j : Nat} (hi : o + headerWords + i < s.words.size)
    (hj : o + headerWords + j < s.words.size) (k : Nat) :
    (s.swapAt o i j).word k =
      if k = o + headerWords + i then s.word (o + headerWords + j)
      else if k = o + headerWords + j then s.word (o + headerWords + i)
      else s.word k := by
  simp only [word, swapAt, Array.getD_eq_getD_getElem?, Array.swapIfInBounds_def, hi, hj, dif_pos,
    Array.getElem?_swap]
  by_cases hij : i = j
  · subst hij
    by_cases h : k = o + headerWords + i
    · simp [h]
    · simp [h, Ne.symm h]
  · by_cases h : k = o + headerWords + i
    · simp [h, Ne.symm hij]
    · by_cases h' : k = o + headerWords + j
      · simp [h', Ne.symm hij]
      · simp [h, h', Ne.symm h, Ne.symm h']

@[simp] theorem size_swapAt (s : Store) (o i j : Nat) :
    (s.swapAt o i j).words.size = s.words.size := by simp [swapAt]

@[simp] theorem epoch_swapAt (s : Store) (o i j : Nat) : (s.swapAt o i j).epoch = s.epoch := rfl

/-! ## The walk -/

/-- The walk from a position on meets nothing but padding and clauses of three literals or more, and ends
where the words end. -/
inductive Chain (s : Store) : Nat → Prop where
  /-- The walk has come to the end. -/
  | done : Chain s s.words.size
  /-- Padding is skipped. -/
  | gap {p : Nat} (inside : p < s.words.size) (pad : s.word p = padding) (next : Chain s (p + 1)) :
      Chain s p
  /-- A clause is passed. -/
  | clause {p : Nat} (size : s.word p ≠ padding) (three : 3 ≤ s.sizeAt p)
      (fits : p + headerWords + s.sizeAt p ≤ s.words.size)
      (next : Chain s (p + headerWords + s.sizeAt p)) : Chain s p

/-- The offsets of all clauses. -/
def offsets (s : Store) : List Nat := s.offsetsFrom 0

/-- The literals of the clause at an offset, as a list. -/
def lits (s : Store) (o : Nat) : List Literal := (List.range (s.sizeAt o)).map (s.literalAt o)

theorem offsetsFrom_done {s : Store} {p : Nat} (h : s.words.size ≤ p) : s.offsetsFrom p = [] := by
  rw [offsetsFrom, if_neg (by omega)]

theorem offsetsFrom_gap {s : Store} {p : Nat} (h : p < s.words.size) (hp : s.word p = padding) :
    s.offsetsFrom p = s.offsetsFrom (p + 1) := by
  rw [offsetsFrom, if_pos h, if_pos hp]

theorem offsetsFrom_clause {s : Store} {p : Nat} (h : p < s.words.size) (hp : s.word p ≠ padding) :
    s.offsetsFrom p = p :: s.offsetsFrom (p + headerWords + s.sizeAt p) := by
  rw [offsetsFrom, if_pos h, if_neg hp]

/-- What the walk says of an offset that it comes across. -/
structure HasAt (s : Store) (o : Nat) : Prop where
  /-- The size is not padding. -/
  size : s.word o ≠ padding
  /-- The clause has three literals or more. -/
  three : 3 ≤ s.sizeAt o
  /-- The clause ends within the words. -/
  fits : o + headerWords + s.sizeAt o ≤ s.words.size
  /-- The walk goes on well after the clause. -/
  next : s.Chain (o + headerWords + s.sizeAt o)

theorem HasAt.inside {s : Store} {o : Nat} (h : s.HasAt o) : o < s.words.size := by
  have := h.three
  have := h.fits
  omega

theorem Chain.mem {s : Store} {p o : Nat} (h : s.Chain p) (ho : o ∈ s.offsetsFrom p) :
    p ≤ o ∧ s.HasAt o := by
  induction h with
  | done => rw [offsetsFrom_done (Nat.le_refl _)] at ho; simp at ho
  | gap inside pad _ ih =>
    rw [offsetsFrom_gap inside pad] at ho
    obtain ⟨hle, hat⟩ := ih ho
    exact ⟨by omega, hat⟩
  | clause size three fits next ih =>
    rw [offsetsFrom_clause (by omega) size] at ho
    rcases List.mem_cons.1 ho with rfl | ho
    · exact ⟨Nat.le_refl _, size, three, fits, next⟩
    · obtain ⟨hle, hat⟩ := ih ho
      exact ⟨by omega, hat⟩

/-- Of two clauses that the walk comes across, one ends before the other begins. -/
theorem Chain.apart {s : Store} {p o o' : Nat} (h : s.Chain p) (ho : o ∈ s.offsetsFrom p)
    (ho' : o' ∈ s.offsetsFrom p) (hlt : o < o') : o + headerWords + s.sizeAt o ≤ o' := by
  induction h with
  | done => rw [offsetsFrom_done (Nat.le_refl _)] at ho; simp at ho
  | gap inside pad _ ih =>
    rw [offsetsFrom_gap inside pad] at ho ho'
    exact ih ho ho'
  | clause size three fits next ih =>
    rw [offsetsFrom_clause (by omega) size] at ho ho'
    rcases List.mem_cons.1 ho with rfl | ho
    · rcases List.mem_cons.1 ho' with rfl | ho'
      · omega
      · exact (next.mem ho').1
    · rcases List.mem_cons.1 ho' with rfl | ho'
      · have := (next.mem ho).1
        omega
      · exact ih ho ho'

/-- The walk comes across offsets in ascending order. -/
theorem Chain.sorted {s : Store} {p : Nat} (h : s.Chain p) :
    (s.offsetsFrom p).Pairwise (· < ·) := by
  induction h with
  | done => rw [offsetsFrom_done (Nat.le_refl _)]; exact List.Pairwise.nil
  | gap inside pad _ ih => rwa [offsetsFrom_gap inside pad]
  | clause size three fits next ih =>
    rw [offsetsFrom_clause (by omega) size]
    refine List.Pairwise.cons ?_ ih
    intro o ho
    have := (next.mem ho).1
    omega

theorem Chain.nodup {s : Store} {p : Nat} (h : s.Chain p) : (s.offsetsFrom p).Nodup :=
  h.sorted.imp fun hlt => Nat.ne_of_lt hlt

theorem Chain.le {s : Store} {p : Nat} (h : s.Chain p) : p ≤ s.words.size := by
  cases h <;> omega

/-- Whether the walk over a store depends only on its words. -/
theorem Chain.of_words {s s' : Store} (hw : s'.words = s.words) {p : Nat} (h : s.Chain p) :
    s'.Chain p := by
  have hword : ∀ i, s'.word i = s.word i := fun i => by simp only [word, hw]
  induction h with
  | done => rw [← hw]; exact .done
  | gap inside pad _ ih => exact .gap (by rw [hw]; exact inside) (by rw [hword]; exact pad) ih
  | @clause p size three fits next ih =>
    have hsize : s'.sizeAt p = s.sizeAt p := hword p
    exact .clause (by rw [hword]; exact size) (by rw [hsize]; exact three)
      (by rw [hsize, hw]; exact fits) (by rw [hsize]; exact ih)

theorem offsetsFrom_of_words {s s' : Store} (hw : s'.words = s.words) {p : Nat} (h : s.Chain p) :
    s'.offsetsFrom p = s.offsetsFrom p := by
  have hword : ∀ i, s'.word i = s.word i := fun i => by simp only [word, hw]
  induction h with
  | done => rw [offsetsFrom_done (Nat.le_refl _), offsetsFrom_done (Nat.le_of_eq (by rw [hw]))]
  | gap inside pad _ ih =>
    rw [offsetsFrom_gap inside pad, offsetsFrom_gap (by rw [hw]; exact inside)
      (by rw [hword]; exact pad), ih]
  | @clause p size three fits next ih =>
    have hsize : s'.sizeAt p = s.sizeAt p := hword p
    rw [offsetsFrom_clause (by omega) size, offsetsFrom_clause (by rw [hw]; omega)
      (by rw [hword]; exact size), hsize, ih]

/-! ## Literals -/

@[simp] theorem length_lits (s : Store) (o : Nat) : (s.lits o).length = s.sizeAt o := by
  simp [lits]

theorem mem_lits {s : Store} {o : Nat} {l : Literal} :
    l ∈ s.lits o ↔ ∃ i < s.sizeAt o, s.literalAt o i = l := by
  simp [lits]

theorem literalAt_mem {s : Store} {o i : Nat} (h : i < s.sizeAt o) : s.literalAt o i ∈ s.lits o :=
  mem_lits.2 ⟨i, h, rfl⟩

theorem getElem?_lits (s : Store) (o i : Nat) :
    (s.lits o)[i]? = if i < s.sizeAt o then some (s.literalAt o i) else none := by
  by_cases h : i < s.sizeAt o
  · simp [lits, h]
  · simp [lits, h]

theorem literalsAt_toList {s : Store} {o : Nat}
    (h : o + headerWords + s.sizeAt o ≤ s.words.size) :
    (s.literalsAt o).toList = s.lits o := by
  apply List.ext_getElem?
  intro i
  rw [getElem?_lits]
  simp only [literalsAt, Array.toList_map, List.getElem?_map, Array.getElem?_toList,
    Array.getElem?_extract]
  by_cases hi : i < s.sizeAt o
  · rw [if_pos hi, if_pos (by omega)]
    have : o + headerWords + i < s.words.size := by omega
    simp only [literalAt, word, Array.getD_eq_getD_getElem?, Array.getElem?_eq_getElem this,
      Option.map_some, Option.getD_some]
  · rw [if_neg hi, if_neg (by omega)]
    rfl

theorem size_literalsAt {s : Store} {o : Nat} (h : o + headerWords + s.sizeAt o ≤ s.words.size) :
    (s.literalsAt o).size = s.sizeAt o := by
  rw [← Array.length_toList, literalsAt_toList h, length_lits]

theorem lits_eq_cons {s : Store} {o : Nat} (h : 3 ≤ s.sizeAt o) :
    s.lits o = s.literalAt o 0 :: (s.lits o).tail := by
  obtain ⟨n, hn⟩ : ∃ n, s.sizeAt o = n + 1 := ⟨s.sizeAt o - 1, by omega⟩
  simp [lits, hn, List.range_succ_eq_map]

theorem lits_eq_cons_cons {s : Store} {o : Nat} (h : 3 ≤ s.sizeAt o) :
    s.lits o = s.literalAt o 0 :: s.literalAt o 1 :: ((s.lits o).drop 2) := by
  obtain ⟨n, hn⟩ : ∃ n, s.sizeAt o = n + 2 := ⟨s.sizeAt o - 2, by omega⟩
  simp [lits, hn, List.range_succ_eq_map]

/-- What is read at an offset depends only on the words of the clause there. -/
theorem lits_congr {s s' : Store} {o : Nat} (hsize : s'.sizeAt o = s.sizeAt o)
    (h : ∀ i < s.sizeAt o, s'.word (o + headerWords + i) = s.word (o + headerWords + i)) :
    s'.lits o = s.lits o := by
  simp only [lits, hsize]
  apply List.map_congr_left
  intro i hi
  simp only [literalAt, h i (List.mem_range.1 hi)]

theorem literalsAt_congr {s s' : Store} {o : Nat} (h : s.HasAt o) (h' : s'.HasAt o) (hl : s'.lits o = s.lits o) :
    s'.literalsAt o = s.literalsAt o := by
  apply Array.toList_inj.1
  rw [literalsAt_toList h.fits, literalsAt_toList h'.fits, hl]

/-- A clause is the same where its words are. -/
theorem recordAt_congr {s s' : Store} {o : Nat} (h : s.HasAt o) (h' : s'.HasAt o)
    (hw : ∀ i, o ≤ i → i < o + headerWords + s.sizeAt o → s'.word i = s.word i) : s'.recordAt o = s.recordAt o := by
  have hhead : ∀ k < headerWords, s'.word (o + k) = s.word (o + k) := fun k hk => hw _ (by omega) (by omega)
  have hlits : s'.literalsAt o = s.literalsAt o := by
    refine literalsAt_congr h h' (lits_congr (hhead 0 (by decide)) fun i hi => hw _ (by omega) (by omega))
  simp only [recordAt, glueAt, flagsAt, searchedAt, hlits, hhead 1 (by decide), hhead 2 (by decide),
    hhead 3 (by decide)]

/-! ## Changes of one part of the walk -/

section Replace

variable {s s' : Store} {o p q : Nat}

/-- Where the words are the same from a position on, so is the walk. -/
theorem Chain.beyond (hc : s.Chain p) (hp : q ≤ p) (hsize : s'.words.size = s.words.size)
    (hout : ∀ i, q ≤ i → s'.word i = s.word i) :
    s'.Chain p ∧ s'.offsetsFrom p = s.offsetsFrom p := by
  induction hc with
  | done =>
    rw [← hsize]
    exact ⟨.done, by rw [offsetsFrom_done (Nat.le_refl _), offsetsFrom_done (Nat.le_of_eq hsize.symm)]⟩
  | gap inside pad _ ih =>
    obtain ⟨hc', he⟩ := ih (by omega)
    have hpad := (hout _ hp).trans pad
    rw [← hsize] at inside
    exact ⟨.gap inside hpad hc', by
      rw [offsetsFrom_gap inside hpad, offsetsFrom_gap (by rw [← hsize]; exact inside) pad, he]⟩
  | @clause p size three fits next ih =>
    obtain ⟨hc', he⟩ := ih (by omega)
    have hw := hout p hp
    have hsz : s'.sizeAt p = s.sizeAt p := hw
    refine ⟨.clause (by rw [hw]; exact size) (by rw [hsz]; exact three)
      (by rw [hsz, hsize]; exact fits) (by rw [hsz]; exact hc'), ?_⟩
    rw [offsetsFrom_clause (by rw [hsize]; omega) (by rw [hw]; exact size),
      offsetsFrom_clause (by omega) size, hsz, he]

/-- Where only the words of one clause have changed, and the walk still takes them for a clause, it comes
across the same clauses. -/
theorem Chain.replace (hc : s.Chain p) (ho : o ∈ s.offsetsFrom p)
    (hsize : s'.words.size = s.words.size)
    (hout : ∀ i, i < o ∨ o + headerWords + s.sizeAt o ≤ i → s'.word i = s.word i)
    (hat : s'.Chain (o + headerWords + s.sizeAt o) → s'.Chain o ∧
      s'.offsetsFrom o = o :: s'.offsetsFrom (o + headerWords + s.sizeAt o)) :
    s'.Chain p ∧ s'.offsetsFrom p = s.offsetsFrom p := by
  induction hc with
  | done => rw [offsetsFrom_done (Nat.le_refl _)] at ho; simp at ho
  | gap inside pad next ih =>
    rw [offsetsFrom_gap inside pad] at ho
    obtain ⟨hc', he⟩ := ih ho
    have hlt := (next.mem ho).1
    have hpad := (hout _ (.inl (by omega))).trans pad
    have inside' := inside
    rw [← hsize] at inside'
    exact ⟨.gap inside' hpad hc', by
      rw [offsetsFrom_gap inside' hpad, offsetsFrom_gap inside pad, he]⟩
  | @clause p size three fits next ih =>
    rw [offsetsFrom_clause (by omega) size] at ho ⊢
    rcases List.mem_cons.1 ho with rfl | ho
    · obtain ⟨hc', he⟩ := next.beyond (Nat.le_refl _) hsize fun i hi => hout i (.inr hi)
      obtain ⟨h1, h2⟩ := hat hc'
      exact ⟨h1, h2.trans (by rw [he])⟩
    · obtain ⟨hc', he⟩ := ih ho
      have hw := hout p (.inl (by have := (next.mem ho).1; simp only [headerWords] at this; omega))
      have hsz : s'.sizeAt p = s.sizeAt p := hw
      refine ⟨.clause (by rw [hw]; exact size) (by rw [hsz]; exact three)
        (by rw [hsz, hsize]; exact fits) (by rw [hsz]; exact hc'), ?_⟩
      rw [offsetsFrom_clause (by rw [hsize]; omega) (by rw [hw]; exact size), hsz, he]

end Replace

/-! ## Changes inside of a clause -/

/-- Words were written inside of the clause at an offset, but not over its size. -/
structure EditedAt (o : Nat) (s s' : Store) : Prop where
  /-- No words were added. -/
  size : s'.words.size = s.words.size
  /-- Words outside of the clause are as they were, and so is its size. -/
  outside : ∀ i, i ≤ o ∨ o + headerWords + s.sizeAt o ≤ i → s'.word i = s.word i
  /-- The epoch is as it was. -/
  epoch : s'.epoch = s.epoch

namespace EditedAt

variable {s s' s'' : Store} {o p : Nat}

theorem rfl' : EditedAt o s s := ⟨rfl, fun _ _ => rfl, rfl⟩

theorem sizeAt_self (h : EditedAt o s s') : s'.sizeAt o = s.sizeAt o :=
  h.outside o (.inl (Nat.le_refl o))

theorem trans (h : EditedAt o s s') (h' : EditedAt o s' s'') : EditedAt o s s'' where
  size := h'.size.trans h.size
  outside i hi := by
    rw [h'.outside i (by rw [h.sizeAt_self]; exact hi), h.outside i hi]
  epoch := h'.epoch.trans h.epoch

theorem of_setWord (i w : Nat) (h : o < i) (h' : i < o + headerWords + s.sizeAt o) :
    EditedAt o s (s.setWord i w) where
  size := size_setWord s i w
  outside j hj := by
    rw [word_setWord, if_neg]
    rintro ⟨rfl, -⟩
    omega
  epoch := rfl

theorem of_swapAt {i j : Nat} (hf : o + headerWords + s.sizeAt o ≤ s.words.size) (hi : i < s.sizeAt o)
    (hj : j < s.sizeAt o) : EditedAt o s (s.swapAt o i j) where
  size := size_swapAt s o i j
  outside k hk := by
    simp only [headerWords] at *
    rw [word_swapAt (by simp only [headerWords]; omega) (by simp only [headerWords]; omega),
      if_neg (by simp only [headerWords]; omega), if_neg (by simp only [headerWords]; omega)]
  epoch := rfl

/-- The walk comes across the same clauses. -/
theorem chain_of_mem (h : EditedAt o s s') (hc : s.Chain p) (ho : o ∈ s.offsetsFrom p) :
    s'.Chain p ∧ s'.offsetsFrom p = s.offsetsFrom p := by
  obtain ⟨-, hat⟩ := hc.mem ho
  have hw := h.outside o (.inl (Nat.le_refl o))
  have hsize := h.sizeAt_self
  refine hc.replace ho h.size (fun i hi => h.outside i (hi.imp_left Nat.le_of_lt)) fun hnext => ⟨?_, ?_⟩
  · exact .clause (by rw [hw]; exact hat.size) (by rw [hsize]; exact hat.three)
      (by rw [hsize, h.size]; exact hat.fits) (by rw [hsize]; exact hnext)
  · rw [offsetsFrom_clause (by rw [h.size]; exact hat.inside) (by rw [hw]; exact hat.size), hsize]

theorem chain (h : EditedAt o s s') (hc : s.Chain 0) (ho : o ∈ s.offsets) : s'.Chain 0 :=
  (h.chain_of_mem hc ho).1

theorem offsets (h : EditedAt o s s') (hc : s.Chain 0) (ho : o ∈ s.offsets) :
    s'.offsets = s.offsets := (h.chain_of_mem hc ho).2

/-- Words of other clauses are as they were. -/
theorem word_other {o' i : Nat} (h : EditedAt o s s') (hc : s.Chain 0) (ho : o ∈ s.offsets)
    (ho' : o' ∈ s.offsets) (hne : o' ≠ o) (hi : o' ≤ i)
    (hi' : i < o' + headerWords + s.sizeAt o') : s'.word i = s.word i := by
  apply h.outside
  rcases Nat.lt_or_gt_of_ne hne with hlt | hlt
  · have := hc.apart ho' ho hlt
    omega
  · have := hc.apart ho ho' hlt
    omega

theorem sizeAt (h : EditedAt o s s') (hc : s.Chain 0) (ho : o ∈ s.offsets) {o' : Nat}
    (ho' : o' ∈ s.offsets) : s'.sizeAt o' = s.sizeAt o' := by
  by_cases hne : o' = o
  · rw [hne, h.sizeAt_self]
  · exact h.word_other hc ho ho' hne (Nat.le_refl _) (by simp only [headerWords]; omega)

theorem lits_other {o' : Nat} (h : EditedAt o s s') (hc : s.Chain 0) (ho : o ∈ s.offsets)
    (ho' : o' ∈ s.offsets) (hne : o' ≠ o) : s'.lits o' = s.lits o' :=
  lits_congr (h.sizeAt hc ho ho') fun i hi =>
    h.word_other hc ho ho' hne (by omega) (by simp only [headerWords] at *; omega)

theorem literalAt_other {o' i : Nat} (h : EditedAt o s s') (hc : s.Chain 0) (ho : o ∈ s.offsets)
    (ho' : o' ∈ s.offsets) (hne : o' ≠ o) (hi : i < s.sizeAt o') :
    s'.literalAt o' i = s.literalAt o' i := by
  have hw : s'.word (o' + headerWords + i) = s.word (o' + headerWords + i) :=
    h.word_other hc ho ho' hne (by omega) (by omega)
  simp only [literalAt, hw]

theorem flagsAt_other {o' : Nat} (h : EditedAt o s s') (hc : s.Chain 0) (ho : o ∈ s.offsets)
    (ho' : o' ∈ s.offsets) (hne : o' ≠ o) : s'.flagsAt o' = s.flagsAt o' := by
  have hw : s'.word (o' + 2) = s.word (o' + 2) :=
    h.word_other hc ho ho' hne (by omega) (by simp only [headerWords]; omega)
  simp only [flagsAt, hw]

/-- Where the flags of the clause are as they were, those of all clauses are. -/
theorem flagsAt_eq {o' : Nat} (h : EditedAt o s s') (hf : s'.flagsAt o = s.flagsAt o) (hc : s.Chain 0)
    (ho : o ∈ s.offsets) (ho' : o' ∈ s.offsets) : s'.flagsAt o' = s.flagsAt o' := by
  by_cases hne : o' = o
  · rw [hne, hf]
  · exact h.flagsAt_other hc ho ho' hne

/-- Other clauses are as they were. -/
theorem recordAt_other {o' : Nat} (h : EditedAt o s s') (hc : s.Chain 0) (ho : o ∈ s.offsets)
    (ho' : o' ∈ s.offsets) (hne : o' ≠ o) : s'.recordAt o' = s.recordAt o' := by
  have hmem : o' ∈ s'.offsets := by rwa [h.offsets hc ho]
  exact recordAt_congr (hc.mem ho').2 ((h.chain hc ho).mem hmem).2 fun i hi hi' => h.word_other hc ho ho' hne hi hi'

end EditedAt

/-! ## Notes about clauses -/

/-- The same clauses at the same places.  What is noted about them may differ. -/
structure Alike (s s' : Store) : Prop where
  /-- The epoch is as it was. -/
  epoch : s'.epoch = s.epoch
  /-- No words were added. -/
  size : s'.words.size = s.words.size
  /-- The walk is good. -/
  chain : s'.Chain 0
  /-- The clauses are at the same places. -/
  offsets : s'.offsets = s.offsets
  /-- The clauses have the same sizes. -/
  sizeAt : ∀ o ∈ s.offsets, s'.sizeAt o = s.sizeAt o
  /-- The clauses have the same literals, in the same order. -/
  lits : ∀ o ∈ s.offsets, s'.lits o = s.lits o

namespace Alike

variable {s s' s'' : Store}

theorem refl (h : s.Chain 0) : Alike s s := ⟨rfl, rfl, h, rfl, fun _ _ => rfl, fun _ _ => rfl⟩

theorem of_words (hc : s.Chain 0) (he : s'.epoch = s.epoch) (hw : s'.words = s.words) :
    Alike s s' := by
  have hword : ∀ i, s'.word i = s.word i := fun i => by simp only [word, hw]
  refine ⟨he, by rw [hw], hc.of_words hw, offsetsFrom_of_words hw hc, fun o _ => hword o, ?_⟩
  exact fun o _ => lits_congr (hword o) fun i _ => hword _

theorem trans (h : Alike s s') (h' : Alike s' s'') : Alike s s'' where
  epoch := h'.epoch.trans h.epoch
  size := h'.size.trans h.size
  chain := h'.chain
  offsets := h'.offsets.trans h.offsets
  sizeAt o ho := (h'.sizeAt o (h.offsets ▸ ho)).trans (h.sizeAt o ho)
  lits o ho := (h'.lits o (h.offsets ▸ ho)).trans (h.lits o ho)

theorem literalAt (h : Alike s s') {o i : Nat} (ho : o ∈ s.offsets) (hi : i < s.sizeAt o) :
    s'.literalAt o i = s.literalAt o i := by
  have := congrArg (·[i]?) (h.lits o ho)
  simpa only [getElem?_lits, h.sizeAt o ho, if_pos hi, Option.some.injEq] using this

end Alike

theorem flagsAt_setFlagsAt {s : Store} {o : Nat} (h : o + 2 < s.words.size) (f : Flags) :
    (s.setFlagsAt o f).flagsAt o = { f with used := min f.used Flags.maxUsed } := by
  simp only [flagsAt, setFlagsAt, word_setWord, h, and_self, if_true, Flags.ofWord_toWord]

/-- Writing flags of a clause changes nothing else. -/
theorem alike_setFlagsAt {s : Store} {o : Nat} (hc : s.Chain 0) (ho : o ∈ s.offsets) (f : Flags) :
    Alike s (s.setFlagsAt o f) ∧
      (∀ o' ∈ s.offsets, o' ≠ o → (s.setFlagsAt o f).flagsAt o' = s.flagsAt o') ∧
      (s.setFlagsAt o f).flagsAt o = { f with used := min f.used Flags.maxUsed } := by
  have hat := (hc.mem ho).2
  have hf := hat.fits
  have h3 := hat.three
  have he : EditedAt o s (s.setFlagsAt o f) :=
    .of_setWord _ _ (by omega) (by simp only [headerWords]; omega)
  refine ⟨⟨rfl, he.size, he.chain hc ho, he.offsets hc ho, fun o' ho' => he.sizeAt hc ho ho', ?_⟩,
    fun o' ho' hne => he.flagsAt_other hc ho ho' hne, flagsAt_setFlagsAt (by
      simp only [headerWords] at hf; omega) f⟩
  intro o' ho'
  by_cases hne : o' = o
  · subst hne
    refine lits_congr he.sizeAt_self fun i hi => ?_
    rw [setFlagsAt, word_setWord, if_neg]
    simp only [headerWords]
    omega
  · exact he.lits_other hc ho ho' hne

/-! ## References -/

/-- Whether a reference is to a clause of the store. -/
def Current (s : Store) (r : Reference) : Prop := r.epoch = s.epoch ∧ r.offset ∈ s.offsets

theorem mem_references {s : Store} {r : Reference} : r ∈ s.references ↔ s.Current r := by
  obtain ⟨o, e⟩ := r
  simp only [references, referencesFrom, List.mem_map, Reference.mk.injEq, Current, offsets]
  constructor
  · rintro ⟨o', ho', rfl, rfl⟩
    exact ⟨rfl, ho'⟩
  · rintro ⟨rfl, ho⟩
    exact ⟨o, ho, rfl, rfl⟩

theorem map_offset_references (s : Store) : s.references.map Reference.offset = s.offsets := by
  simp only [references, referencesFrom, offsets, List.map_map]
  exact List.map_id _

/-- A good reference is to as many words as the size says. -/
theorem of_size?_eq_ok {s : Store} {r : Reference} {n : Nat} (h : s.size? r = .ok n) :
    s.sizeAt r.offset = n ∧ r.offset + headerWords + n ≤ s.words.size := by
  unfold size? at h
  split at h
  next => simp at h
  next =>
    split at h
    next => simp at h
    next k hk =>
      split at h
      next hfits =>
        obtain rfl : k = n := Except.ok.inj h
        exact ⟨by simp [sizeAt, word, hk], hfits.2⟩
      next => simp at h

/-- A current reference is good. -/
theorem size?_of_current {s : Store} {r : Reference} (hc : s.Chain 0) (h : s.Current r) :
    s.size? r = .ok (s.sizeAt r.offset) := by
  have hat := (hc.mem h.2).2
  have hi := hat.inside
  have hw : s.words[r.offset]? = some (s.sizeAt r.offset) := by
    simp [sizeAt, word, hi]
  have hsize : s.sizeAt r.offset ≠ padding := hat.size
  simp only [size?, h.1, ne_eq, not_true_eq_false, if_false, hw, hsize, not_false_eq_true,
    hat.fits, and_self, if_true]

theorem literals?_of_current {s : Store} {r : Reference} (hc : s.Chain 0) (h : s.Current r) :
    s.literals? r = .ok (s.literalsAt r.offset) := by
  rw [literals?, size?_of_current hc h]
  rfl

theorem record?_of_current {s : Store} {r : Reference} (hc : s.Chain 0) (h : s.Current r) :
    s.record? r = .ok (s.recordAt r.offset) := by
  rw [record?, size?_of_current hc h]
  rfl

theorem Alike.current {s s' : Store} (h : Alike s s') {r : Reference} (hr : s.Current r) :
    s'.Current r := ⟨hr.1.trans h.epoch.symm, h.offsets.symm ▸ hr.2⟩

end Store

end ClauseLearning
