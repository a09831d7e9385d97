import ClauseLearning.Proofs.Store.Edit

/-!
# Sweeps in place

A sweep copies the clauses that are kept to the end of those that were kept before, within the same words.  No word is
written over before it is read: what is written ends at or before the place where the next clause is visited, since no
clause that is kept is longer than it was, and a clause is copied with its first word first.  So a sweep comes to what
it would come to if the clauses were read from the words as they were, and gathered in new ones.

* `Store.sweepFrom`, `Store.gather` — a sweep into new words.
* `Store.word_copyWords` — words that are copied towards the front, which may overlap with where they are copied to.
* `Store.word_keepAt` — a clause that is kept, at its new place.
* `Store.Behind` — how far a sweep in place is, with `Behind.skip` and `Behind.keep` for one visit.
* `Store.compact_eq_gather`, `Store.sweep_eq_gather` — a sweep in place is one into new words.
-/

namespace ClauseLearning

namespace Store

variable {σ : Type} {s t : Store} {rule : SweepRule σ} {visit : Visitor σ} {p q n : Nat} {c : Record}
  {kept : Array Nat}

/-! ## Into new words -/

/-- A clause as it is where a sweep has moved it: any note of having been shortened is gone, and the resumed search
stays within the clause. -/
def Record.settled (c : Record) : Record :=
  { c with
    flags := { c.flags with shrunken := false }
    searched := if c.literals.size ≤ c.searched then 2 else c.searched }

/-- Visits the clauses from a position on, and appends those that are kept to the words `kept`. -/
def sweepFrom (s : Store) (rule : SweepRule σ) (p : Nat) (kept : Array Nat) (acc : σ) : Array Nat × σ :=
  if p < s.words.size then
    if s.word p = padding then s.sweepFrom rule (p + 1) kept acc
    else
      let old : Reference := { offset := p, epoch := s.epoch }
      let new : Reference := { offset := kept.size, epoch := nextEpoch s.epoch }
      let next := p + headerWords + s.sizeAt p
      match rule acc old new (s.recordAt p) with
      | (none, acc) => s.sweepFrom rule next kept acc
      | (some c, acc) => s.sweepFrom rule next (kept ++ c.settled.words) acc
  else (kept, acc)
termination_by s.words.size - p
decreasing_by
  · omega
  · simp only [headerWords]; omega
  · simp only [headerWords]; omega

/-- Sweeps the store from a position on into new words. -/
def gather (s : Store) (start : Nat) (rule : SweepRule σ) (acc : σ) : Store × Relocation × σ :=
  let start := min start s.words.size
  let (words, acc) := s.sweepFrom rule start (s.words.take start) acc
  let swept : Store := { words := words, epoch := nextEpoch s.epoch, garbage := 0 }
  let relocation := { start := start, oldEpoch := s.epoch, newEpoch := nextEpoch s.epoch }
  ({ swept with garbage := swept.garbageFrom 0 }, relocation, acc)

/-- A rule keeps at least three literals of a clause, and not more than there are. -/
def SweepRule.Fits (rule : SweepRule σ) : Prop :=
  ∀ x old new c c', (rule x old new c).1 = some c' → 3 ≤ c.literals.size →
    3 ≤ c'.literals.size ∧ c'.literals.size ≤ c.literals.size

/-- A rule says what a visitor leaves of each clause.  The visitor writes no more literals than there are, and as many
as are kept. -/
structure SweepRule.Tells (rule : SweepRule σ) (visit : Visitor σ) : Prop where
  /-- What is left. -/
  left : ∀ x old new c, 3 ≤ c.literals.size → rule x old new c =
    ((visit x old new c).1.map fun y => y.1.take (max 3 (min y.2 c.literals.size)), (visit x old new c).2)
  /-- What is written. -/
  fits : ∀ x old new c c' n, (visit x old new c).1 = some (c', n) → 3 ≤ c.literals.size →
    max 3 (min n c.literals.size) ≤ c'.literals.size ∧ c'.literals.size ≤ c.literals.size

theorem Record.take_of_size_le (h : c.literals.size ≤ n) : c.take n = c := by
  simp only [Record.take, Array.extract_eq_self_of_le h]

theorem SweepRule.Fits.tells (h : rule.Fits) : rule.Tells rule.visitor where
  left x old new c h3 := by
    rw [visitor]
    cases hx : rule x old new c with
    | mk left x' =>
      cases left with
      | none => rfl
      | some c' =>
        obtain ⟨h3', hle⟩ := h x old new c c' (by rw [hx]) h3
        simp only [Option.map_some, Record.take_of_size_le (c := c') (n := max 3 (min c'.literals.size c.literals.size))
          (by omega)]
  fits x old new c c' n hx h3 := by
    rw [visitor] at hx
    cases hr : rule x old new c with
    | mk left x' =>
      rw [hr] at hx
      cases left with
      | none => cases hx
      | some c'' =>
        obtain ⟨rfl, rfl⟩ := Prod.mk.inj (Option.some.inj hx)
        obtain ⟨h3', hle⟩ := h x old new c c'' (by rw [hr]) h3
        omega

/-! ## Words that are written -/

/-- The words of a clause before its literals. -/
theorem getD_words_header {i : Nat} (h : i < headerWords) :
    c.words.getD i 0 = #[c.literals.size, c.glue, c.flags.toWord, c.searched].getD i 0 := by
  simp only [headerWords] at h
  rw [Record.words, Array.getD_eq_getD_getElem?, Array.getD_eq_getD_getElem?, Array.getElem?_append_left h]

theorem word_setLiteralsAt {ls : List Literal} {i : Nat} (h : p + headerWords + i + ls.length ≤ s.words.size)
    (k : Nat) : (s.setLiteralsAt p i ls).word k =
      if p + headerWords + i ≤ k then (ls[k - (p + headerWords + i)]?.map Literal.code).getD (s.word k) else s.word k := by
  induction ls generalizing s i with
  | nil => simp [setLiteralsAt]
  | cons l ls ih =>
    rw [List.length_cons] at h
    rw [setLiteralsAt, setLiteralAt, ih (by rw [size_setWord]; omega), word_setWord]
    by_cases hk : k = p + headerWords + i
    · subst hk
      rw [if_neg (by omega), if_pos ⟨rfl, by omega⟩, if_pos (Nat.le_refl _), Nat.sub_self]
      rfl
    · rw [if_neg (show ¬ (p + headerWords + i = k ∧ p + headerWords + i < s.words.size) by omega)]
      by_cases hlt : p + headerWords + i < k
      · rw [if_pos (by omega), if_pos (by omega),
          show k - (p + headerWords + i) = k - (p + headerWords + (i + 1)) + 1 by omega, List.getElem?_cons_succ]
      · rw [if_neg (by omega), if_neg (by omega)]

/-- A clause is written over another one, all but its size, and nothing else is written. -/
theorem word_overwriteAt (h : p + headerWords + c.literals.size ≤ s.words.size) (k : Nat) :
    (s.overwriteAt p c).word k =
      if p < k ∧ k < p + headerWords + c.literals.size then c.words.getD (k - p) 0 else s.word k := by
  have h4 : headerWords = 4 := rfl
  rw [overwriteAt, word_setLiteralsAt (by
    simp only [setGlueAt, setFlagsAt, setSearchedAt, size_setWord, Array.length_toList]
    omega), Nat.add_zero, Array.getElem?_toList]
  simp only [setGlueAt, setFlagsAt, setSearchedAt, word_setWord, size_setWord]
  by_cases hlit : p + headerWords ≤ k
  · obtain ⟨i, rfl⟩ := Nat.exists_eq_add_of_le hlit
    rw [if_pos hlit, Nat.add_sub_cancel_left, show p + headerWords + i - p = headerWords + i by omega,
      getD_words_literal]
    by_cases hi : i < c.literals.size
    · rw [if_pos (c := p < _ ∧ _) (by omega), Array.getElem?_eq_getElem hi]
      rfl
    · rw [if_neg (c := p < _ ∧ _) (by omega), Array.getElem?_eq_none (by omega), if_neg (by omega), if_neg (by omega),
        if_neg (by omega)]
      rfl
  · rw [if_neg hlit]
    rcases (by omega : k ≤ p ∨ k = p + 1 ∨ k = p + 2 ∨ k = p + 3) with hk | rfl | rfl | rfl
    · rw [if_neg (by omega), if_neg (by omega), if_neg (by omega), if_neg (by omega)]
    · rw [if_neg (by omega), if_neg (by omega), if_pos (by omega), if_pos (by omega), Nat.add_sub_cancel_left,
        getD_words_header (by decide)]
      rfl
    · rw [if_neg (by omega), if_pos (by omega), if_pos (by omega), Nat.add_sub_cancel_left,
        getD_words_header (by decide)]
      rfl
    · rw [if_pos (by omega), if_pos (by omega), Nat.add_sub_cancel_left, getD_words_header (by decide)]
      rfl

/-- The header of a clause is written when the clause is cut, and nothing else. -/
theorem word_settleAt (h : p + headerWords ≤ s.words.size) (n k : Nat) :
    (s.settleAt p n).word k =
      if k = p then n
      else if k = p + 2 then Flags.toWord { s.flagsAt p with shrunken := false }
      else if k = p + 3 then if n ≤ s.searchedAt p then 2 else s.searchedAt p
      else s.word k := by
  simp only [headerWords] at h
  have hsearched : (s.setWord p n).searchedAt p = s.searchedAt p := by
    rw [searchedAt, word_setWord, if_neg (by omega)]
    rfl
  have hflags : ∀ t : Store, (∀ i, i ≠ p → i ≠ p + 3 → t.word i = s.word i) → t.flagsAt p = s.flagsAt p :=
    fun t ht => congrArg Flags.ofWord (ht (p + 2) (by omega) (by omega))
  simp only [settleAt, hsearched]
  split
  · rw [hflags _ fun i hi hi' => by simp only [setSearchedAt, word_setWord]; rw [if_neg (by omega), if_neg (by omega)]]
    simp only [setFlagsAt, setSearchedAt, word_setWord, size_setWord]
    grind
  · rw [hflags _ fun i hi _ => by rw [word_setWord, if_neg (by omega)]]
    simp only [setFlagsAt, word_setWord, size_setWord]
    grind [searchedAt]

@[simp] theorem epoch_overwriteAt (s : Store) (o : Nat) (c : Record) : (s.overwriteAt o c).epoch = s.epoch := by
  rw [overwriteAt, epoch_setLiteralsAt]
  rfl

@[simp] theorem epoch_settleAt (s : Store) (o n : Nat) : (s.settleAt o n).epoch = s.epoch := by
  simp only [settleAt, setFlagsAt]
  split <;> rfl

/-- Words that are copied towards the front arrive as they were, and no other words change. -/
theorem word_copyWords (h : q ≤ p) (hn : p + n ≤ s.words.size) (k : Nat) :
    (s.copyWords p q n).word k = if q ≤ k ∧ k < q + n then s.word (p + (k - q)) else s.word k := by
  induction n generalizing s p q with
  | zero => rw [copyWords, if_neg (by omega)]
  | succ n ih =>
    rw [copyWords, ih (by omega) (by rw [size_setWord]; omega)]
    simp only [word_setWord]
    by_cases hk : k = q
    · rw [if_neg (by omega), if_pos (by omega), if_pos (by omega), hk, Nat.sub_self, Nat.add_zero]
    · -- what is read next was not written over
      by_cases hin : q + 1 ≤ k ∧ k < q + 1 + n
      · rw [if_pos hin, if_neg (by omega), if_pos (by omega), show p + 1 + (k - (q + 1)) = p + (k - q) by omega]
      · rw [if_neg hin, if_neg (by omega), if_neg (by omega)]

@[simp] theorem epoch_copyWords (s : Store) (p q n : Nat) : (s.copyWords p q n).epoch = s.epoch := by
  induction n generalizing s p q with
  | zero => rfl
  | succ n ih => rw [copyWords, ih, epoch_setWord]

@[simp] theorem epoch_keepAt (s : Store) (p q : Nat) (c : Record) (n : Nat) : (s.keepAt p q c n).epoch = s.epoch := by
  rw [keepAt, epoch_copyWords, epoch_settleAt, epoch_overwriteAt]

/-- A clause that was written over another one and cut is as it will be at its new place. -/
theorem word_settleAt_overwriteAt (h : p + headerWords + c.literals.size ≤ s.words.size) (hn : n ≤ c.literals.size)
    {i : Nat} (hi : i < headerWords + n) :
    ((s.overwriteAt p c).settleAt p n).word (p + i) = (c.take n).settled.words.getD i 0 := by
  have h4 : headerWords = 4 := rfl
  have hsize : (c.take n).literals.size = n := by
    simp only [Record.take, Array.take_eq_extract, Array.size_extract]
    omega
  have hover : ∀ j, 0 < j → j < headerWords → (s.overwriteAt p c).word (p + j) = c.words.getD j 0 := fun j hj hj' => by
    rw [word_overwriteAt h, if_pos (by omega), Nat.add_sub_cancel_left]
  have hsearched : (s.overwriteAt p c).searchedAt p = c.searched :=
    (hover 3 (by decide) (by decide)).trans (getD_words_header (by decide))
  have hflags : (s.overwriteAt p c).flagsAt p = { c.flags with used := min c.flags.used Flags.maxUsed } := by
    rw [flagsAt, hover 2 (by decide) (by decide), getD_words_header (by decide)]
    exact Flags.ofWord_toWord c.flags
  rw [word_settleAt (by rw [size_overwriteAt]; omega), hflags, hsearched]
  by_cases hlit : headerWords ≤ i
  · obtain ⟨j, rfl⟩ := Nat.exists_eq_add_of_le hlit
    rw [if_neg (by omega), if_neg (by omega), if_neg (by omega), word_overwriteAt h, if_pos (by omega),
      Nat.add_sub_cancel_left, getD_words_literal, getD_words_literal]
    simp only [Record.settled, Record.take, Array.take_eq_extract, Array.getElem?_extract]
    rw [if_pos (by omega), Nat.zero_add]
  · rw [getD_words_header (by omega)]
    rcases (by omega : i = 0 ∨ i = 1 ∨ i = 2 ∨ i = 3) with rfl | rfl | rfl | rfl
    · rw [if_pos (Nat.add_zero p)]
      exact hsize.symm
    · rw [if_neg (by omega), if_neg (by omega), if_neg (by omega), hover 1 (by decide) (by decide),
        getD_words_header (by decide)]
      rfl
    · rw [if_neg (by omega), if_pos rfl]
      simp [Record.settled, Record.take, Flags.toWord, Nat.min_assoc]
    · rw [if_neg (by omega), if_neg (by omega), if_pos rfl]
      simp only [Record.settled, hsize]
      rfl

/-- A clause that is kept arrives at its new place, cut and settled. -/
theorem word_keepAt (hq : q ≤ p) (h : p + headerWords + c.literals.size ≤ s.words.size) (hn : n ≤ c.literals.size)
    {i : Nat} (hi : i < headerWords + n) :
    (s.keepAt p q c n).word (q + i) = (c.take n).settled.words.getD i 0 := by
  rw [keepAt, word_copyWords hq (by rw [size_settleAt, size_overwriteAt]; omega), if_pos (by omega),
    Nat.add_sub_cancel_left, word_settleAt_overwriteAt h hn hi]

/-- Words before the new place, and words after the clause, are as they were. -/
theorem word_keepAt_of_ne (hq : q ≤ p) (h : p + headerWords + c.literals.size ≤ s.words.size) (hn : n ≤ c.literals.size)
    {k : Nat} (hk : k < q ∨ p + headerWords + c.literals.size ≤ k) : (s.keepAt p q c n).word k = s.word k := by
  have h4 : headerWords = 4 := rfl
  rw [keepAt, word_copyWords hq (by rw [size_settleAt, size_overwriteAt]; omega), if_neg (by omega),
    word_settleAt (by rw [size_overwriteAt]; omega), if_neg (by omega), if_neg (by omega), if_neg (by omega),
    word_overwriteAt h, if_neg (by omega)]

/-! ## The sweep -/

/-- How far a sweep in place has come.  The words before the destination are those that were kept, and the words that
are still to be visited are as they were in the store `s`. -/
structure Behind (s t : Store) (p q : Nat) (kept : Array Nat) : Prop where
  /-- No word is written that is still to be visited. -/
  le : q ≤ p
  /-- There are as many words as there were. -/
  size : t.words.size = s.words.size
  /-- The epoch is as it was. -/
  epoch : t.epoch = s.epoch
  /-- What is still to be visited. -/
  ahead : ∀ k, p ≤ k → t.word k = s.word k
  /-- What was kept ends at the destination. -/
  stop : kept.size = q
  /-- What was kept. -/
  kept : ∀ k < q, t.word k = kept.getD k 0

theorem behind_start (h : p ≤ s.words.size) : Behind s s p p (s.words.take p) where
  le := Nat.le_refl p
  size := rfl
  epoch := rfl
  ahead _ _ := rfl
  stop := by rw [Array.take_eq_extract, Array.size_extract, Nat.sub_zero, Nat.min_eq_left h]
  kept k hk := by
    simp only [word, Array.getD_eq_getD_getElem?, Array.take_eq_extract, Array.getElem?_extract]
    rw [if_pos (by omega), Nat.zero_add]

namespace Behind

/-- Words are gone past. -/
theorem skip (h : Behind s t p q kept) (n : Nat) : Behind s t (p + n) q kept :=
  { h with le := Nat.le_add_right_of_le h.le, ahead := fun k hk => h.ahead k (by omega) }

/-- A clause is kept.  It is cut from a clause with at least as many literals, which is gone past. -/
theorem keep (h : Behind s t p q kept) {size : Nat} (hs : p + headerWords + size ≤ s.words.size)
    (hc : c.literals.size ≤ size) (hn : n ≤ c.literals.size) :
    Behind s (t.keepAt p q c n) (p + headerWords + size) (q + headerWords + n)
      (kept ++ (c.take n).settled.words) where
  le := by
    have := h.le
    omega
  size := by rw [size_keepAt, h.size]
  epoch := by rw [epoch_keepAt, h.epoch]
  ahead k hk := by
    rw [word_keepAt_of_ne h.le (by rw [h.size]; omega) hn (by omega)]
    exact h.ahead k (by omega)
  stop := by
    rw [Array.size_append, h.stop, size_words]
    simp only [Record.settled, Record.take, Array.take_eq_extract, Array.size_extract]
    omega
  kept k hk := by
    by_cases hkq : k < q
    · rw [word_keepAt_of_ne h.le (by rw [h.size]; omega) hn (.inl hkq), h.kept k hkq]
      simp only [Array.getD_eq_getD_getElem?]
      rw [Array.getElem?_append_left (by rw [h.stop]; exact hkq)]
    · obtain ⟨i, rfl⟩ := Nat.exists_eq_add_of_le (Nat.le_of_not_lt hkq)
      rw [word_keepAt h.le (by rw [h.size]; omega) hn (by omega)]
      simp only [Array.getD_eq_getD_getElem?]
      rw [Array.getElem?_append_right (by rw [h.stop]; omega), h.stop, Nat.add_sub_cancel_left]

theorem hasAt (h : Behind s t p q kept) (hat : s.HasAt p) : t.HasAt p where
  size := by
    rw [h.ahead p (Nat.le_refl p)]
    exact hat.size
  three := by
    rw [sizeAt, h.ahead p (Nat.le_refl p)]
    exact hat.three
  fits := by
    rw [sizeAt, h.ahead p (Nat.le_refl p), h.size]
    exact hat.fits
  next := by
    rw [sizeAt, h.ahead p (Nat.le_refl p)]
    exact (hat.next.beyond (by omega) h.size h.ahead).1

/-- The clause that is visited next is as it was. -/
theorem recordAt (h : Behind s t p q kept) (hat : s.HasAt p) : t.recordAt p = s.recordAt p :=
  recordAt_congr hat (h.hasAt hat) fun k hk _ => h.ahead k hk

/-- The words that were kept. -/
theorem take_eq (h : Behind s t p q kept) (hp : p ≤ s.words.size) : t.words.take q = kept := by
  have hle := h.le
  have hsize : (t.words.take q).size = q := by
    rw [Array.take_eq_extract, Array.size_extract, h.size]
    omega
  refine Array.ext (hsize.trans h.stop.symm) fun k hk hk' => ?_
  have := h.kept k (by omega)
  simpa [word, Array.getD_eq_getD_getElem?, hk', show k < t.words.size by rw [h.size]; omega] using this

/-- The sweep in place goes on as the sweep into new words does. -/
theorem compactFrom (h : Behind s t p q kept) (hr : rule.Tells visit) (hc : s.Chain p) (x : σ) :
    Behind s (t.compactFrom visit p q x).1 s.words.size (t.compactFrom visit p q x).2.1 (s.sweepFrom rule p kept x).1 ∧
      (t.compactFrom visit p q x).2.2 = (s.sweepFrom rule p kept x).2 := by
  induction hc generalizing t q kept x with
  | done =>
    rw [Store.compactFrom, if_neg (by rw [h.size]; omega), sweepFrom, if_neg (Nat.lt_irrefl _)]
    exact ⟨h, rfl⟩
  | @gap p inside pad _ ih =>
    rw [Store.compactFrom, if_pos (by rw [h.size]; exact inside), if_pos ((h.ahead p (Nat.le_refl p)).trans pad),
      sweepFrom, if_pos inside, if_pos pad]
    exact ih (h.skip 1) x
  | @clause p size three fits next ih =>
    have hat : s.HasAt p := ⟨size, three, fits, next⟩
    have hsize : t.sizeAt p = s.sizeAt p := h.ahead p (Nat.le_refl p)
    have hlen : (s.recordAt p).literals.size = s.sizeAt p := size_literalsAt fits
    have h3 : 3 ≤ (s.recordAt p).literals.size := hlen ▸ three
    have hnew : kept.size = q := h.stop
    rw [Store.compactFrom, if_pos (by rw [h.size]; exact hat.inside), if_neg (h.hasAt hat).size, sweepFrom,
      if_pos hat.inside, if_neg size]
    simp only [h.recordAt hat, hsize, h.epoch, hnew, hr.left x _ _ _ h3]
    cases hv : visit x ⟨p, s.epoch⟩ ⟨q, nextEpoch s.epoch⟩ (s.recordAt p) with
    | mk left x' =>
      cases left with
      | none => exact ih (Nat.add_assoc p _ _ ▸ h.skip (headerWords + s.sizeAt p)) x'
      | some y =>
        obtain ⟨hle, hle'⟩ := hr.fits x _ _ _ y.1 y.2 (by rw [hv]) h3
        rw [hlen] at hle hle'
        simp only [Option.map_some, hlen]
        exact ih (h.keep fits hle' hle) x'

end Behind

/-- A sweep in place comes to what a sweep into new words does. -/
theorem compact_eq_gather (hr : rule.Tells visit) {start : Nat} (hc : s.Chain (min start s.words.size)) (x : σ) :
    s.compact start visit x = s.gather start rule x := by
  obtain ⟨hbehind, hx⟩ := (behind_start (Nat.min_le_right start s.words.size)).compactFrom hr hc x
  simp only [compact, gather, hbehind.take_eq (Nat.le_refl _), hx]

theorem sweep_eq_gather (hr : rule.Fits) {start : Nat} (hc : s.Chain (min start s.words.size)) (x : σ) :
    s.sweep start rule x = s.gather start rule x := compact_eq_gather hr.tells hc x

end Store

end ClauseLearning
