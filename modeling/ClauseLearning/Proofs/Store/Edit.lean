import ClauseLearning.Proofs.Ends
import ClauseLearning.Proofs.Store.Walk

/-!
# Changes of the clause store

What each change of the store does to the clauses in it, in terms of the walk.

* `Store.Permuted` — the literals of one clause are in another order.
* `Store.Reflagged`, `Store.Trashed` — the flags of one clause are others.
* `Store.Appended` — one more clause, after all others.
-/

namespace ClauseLearning

namespace Store

variable {s s' : Store} {o : Nat}

/-! ## Exchanging literals -/

theorem literalAt_swapAt {i j k : Nat} (hf : o + headerWords + s.sizeAt o ≤ s.words.size) (hi : i < s.sizeAt o)
    (hj : j < s.sizeAt o) :
    (s.swapAt o i j).literalAt o k =
      if k = i then s.literalAt o j else if k = j then s.literalAt o i else s.literalAt o k := by
  simp only [literalAt]
  rw [word_swapAt (by omega) (by omega)]
  by_cases h : k = i
  · simp [h]
  · by_cases h' : k = j
    · by_cases hij : j = i <;> simp [h', hij]
    · simp [h, h']

/-- The literals of a clause are in another order, and nothing else changed. -/
structure Permuted (o : Nat) (s s' : Store) : Prop extends EditedAt o s s' where
  /-- The literals are the same ones. -/
  perm : (s'.lits o).Perm (s.lits o)
  /-- The flags are as they were. -/
  flags : s'.flagsAt o = s.flagsAt o
  /-- The glue is as it was. -/
  glue : s'.glueAt o = s.glueAt o

theorem Permuted.rfl' : Permuted o s s := ⟨.rfl', .rfl, rfl, rfl⟩

theorem Permuted.trans {s'' : Store} (h : Permuted o s s') (h' : Permuted o s' s'') :
    Permuted o s s'' :=
  ⟨h.toEditedAt.trans h'.toEditedAt, h'.perm.trans h.perm, h'.flags.trans h.flags, h'.glue.trans h.glue⟩

theorem Permuted.mem_lits {l : Literal} (h : Permuted o s s') : l ∈ s'.lits o ↔ l ∈ s.lits o :=
  h.perm.mem_iff

theorem permuted_swapAt {i j : Nat} (hf : o + headerWords + s.sizeAt o ≤ s.words.size) (hi : i < s.sizeAt o)
    (hj : j < s.sizeAt o) : Permuted o s (s.swapAt o i j) := by
  have he := EditedAt.of_swapAt hf hi hj
  have hhead : ∀ k < headerWords, (s.swapAt o i j).word (o + k) = s.word (o + k) := fun k hk => by
    rw [word_swapAt (by omega) (by omega), if_neg (by omega), if_neg (by omega)]
  refine ⟨he, ?_, congrArg Flags.ofWord (hhead 2 (by decide)), hhead 1 (by decide)⟩
  · have hli : i < (s.lits o).length := by rwa [length_lits]
    have hlj : j < (s.lits o).length := by rwa [length_lits]
    have : (s.swapAt o i j).lits o =
        ((s.lits o).set i ((s.lits o)[j])).set j ((s.lits o)[i]) := by
      apply List.ext_getElem?
      intro k
      rw [getElem?_lits, he.sizeAt_self, literalAt_swapAt hf hi hj]
      simp only [List.getElem?_set, List.length_set, length_lits, getElem?_lits]
      by_cases hki : k = i
      · subst hki
        by_cases hkj : j = k
        · subst hkj
          simp [hi, lits]
        · simp [hi, hkj, lits]
      · by_cases hkj : k = j
        · subst hkj
          simp [hj, hki, lits]
        · simp [hki, hkj, Ne.symm hki, Ne.symm hkj]
    rw [this]
    exact List.set_set_perm hli hlj

theorem permuted_setSearchedAt (s : Store) (o n : Nat) : Permuted o s (s.setSearchedAt o n) := by
  have he : EditedAt o s (s.setSearchedAt o n) := .of_setWord _ _ (by omega) (by
    simp only [headerWords]
    omega)
  have hother : ∀ i, i ≠ o + 3 → (s.setSearchedAt o n).word i = s.word i := fun i hi => by
    rw [setSearchedAt, word_setWord, if_neg (by omega)]
  refine ⟨he, ?_, congrArg Flags.ofWord (hother _ (by omega)), hother _ (by omega)⟩
  rw [lits_congr he.sizeAt_self fun i _ => hother _ (by simp only [headerWords]; omega)]

@[simp] theorem literalAt_setSearchedAt (s : Store) (o n i : Nat) :
    (s.setSearchedAt o n).literalAt o i = s.literalAt o i := by
  simp only [literalAt, setSearchedAt, word_setWord]
  rw [if_neg (by simp only [headerWords]; omega)]

/-! ## Flags -/

/-- The flags of a clause are `f`, and nothing else changed. -/
structure Reflagged (o : Nat) (f : Flags) (s s' : Store) : Prop extends Alike s s' where
  /-- Other clauses have the same flags. -/
  others : ∀ o' ∈ s.offsets, o' ≠ o → s'.flagsAt o' = s.flagsAt o'
  /-- The flags that were written. -/
  flags : s'.flagsAt o = { f with used := min f.used Flags.maxUsed }
  /-- What else is noted of clauses stays. -/
  notes : ∀ o' ∈ s.offsets, s'.glueAt o' = s.glueAt o' ∧ s'.searchedAt o' = s.searchedAt o'

theorem reflagged_setFlagsAt (hc : s.Chain 0) (ho : o ∈ s.offsets) (f : Flags) :
    Reflagged o f s (s.setFlagsAt o f) := by
  obtain ⟨halike, hothers, hflags⟩ := alike_setFlagsAt hc ho f
  refine ⟨halike, hothers, hflags, fun o' ho' => ?_⟩
  have hne : o + 2 ≠ o' + 1 ∧ o + 2 ≠ o' + 3 := by
    rcases Nat.lt_trichotomy o o' with hlt | rfl | hlt
    · have := hc.apart ho ho' hlt
      simp only [headerWords] at this
      omega
    · omega
    · have := hc.apart ho' ho hlt
      simp only [headerWords] at this
      omega
  simp only [glueAt, searchedAt, setFlagsAt, word_setWord]
  exact ⟨if_neg fun h => hne.1 h.1, if_neg fun h => hne.2 h.1⟩

theorem ends_locate {r : Reference} {Q : Nat → Store → Prop} {E : Fault → Store → Prop}
    (hc : s.Chain 0) (hr : s.Current r) : Ends (locate r) s Q E ↔ Q (s.sizeAt r.offset) s :=
  ends_of_ok (by simp only [locate, size?_of_current hc hr])

theorem locate_of_error {s : Store} {r : Reference} {e : Fault} (h : s.size? r = .error e) :
    locate r s = .error e s := by
  rw [locate, h]

/-- What begins with finding a clause fails, and changes nothing, if the reference is refused. -/
theorem bind_locate_of_error {s : Store} {α : Type} {r : Reference} {e : Fault} {f : Nat → StoreM α}
    (h : s.size? r = .error e) : (locate r >>= f) s = .error e s := by
  show EStateM.bind _ _ _ = _
  rw [EStateM.bind, locate_of_error h]

/-- Changing the flags of a current reference succeeds. -/
theorem ends_updateFlags {r : Reference} {f : Flags → Flags} {E : Fault → Store → Prop}
    (hc : s.Chain 0) (hr : s.Current r) :
    Ends (updateFlags r f) s (fun _ s' => Reflagged r.offset (f (s.flagsAt r.offset)) s s') E := by
  simp only [updateFlags, ends_bind, ends_locate hc hr, ends_modify]
  exact reflagged_setFlagsAt hc hr.2 _

/-- A clause is garbage now, and nothing else changed but how often it was used. -/
structure Trashed (o : Nat) (s s' : Store) : Prop extends Alike s s' where
  /-- The flags of every clause. -/
  flags : ∀ o' ∈ s.offsets, ∃ used, s'.flagsAt o' =
    { s.flagsAt o' with used, garbage := (s.flagsAt o').garbage || o' == o }

/-- Marking a current reference as garbage succeeds. -/
theorem ends_markGarbage {r : Reference} {E : Fault → Store → Prop}
    (hc : s.Chain 0) (hr : s.Current r) :
    Ends (markGarbage r) s (fun _ s' => Trashed r.offset s s') E := by
  simp only [markGarbage, ends_bind, ends_locate hc hr, ends_get]
  split
  · next h =>
    refine (ends_pure _).2 ⟨.refl hc, fun o' _ => ⟨(s.flagsAt o').used, ?_⟩⟩
    by_cases he : o' = r.offset
    · simp [he, ← h]
    · rw [beq_eq_false_iff_ne.2 he, Bool.or_false]
  · simp only [ends_bind, ends_modify, ends_pure]
    have h := reflagged_setFlagsAt hc hr.2 { s.flagsAt r.offset with garbage := true }
    have hsame : Alike (s.setFlagsAt r.offset { s.flagsAt r.offset with garbage := true })
        { s.setFlagsAt r.offset { s.flagsAt r.offset with garbage := true } with
          garbage := s.garbage + headerWords + s.sizeAt r.offset } := .of_words h.chain rfl rfl
    refine ⟨h.toAlike.trans hsame, fun o' ho' => ?_⟩
    by_cases he : o' = r.offset
    · rw [he]
      exact ⟨min (s.flagsAt r.offset).used Flags.maxUsed, h.flags.trans (by simp)⟩
    · refine ⟨(s.flagsAt o').used, (h.others o' ho' he).trans ?_⟩
      rw [beq_eq_false_iff_ne.2 he, Bool.or_false]

/-! ## One more clause -/

/-- A clause with given literals was stored after all others. -/
structure Appended (ls : List Literal) (f : Flags) (s s' : Store) : Prop where
  /-- The epoch is as it was. -/
  epoch : s'.epoch = s.epoch
  /-- The words of the clause were added. -/
  size : s'.words.size = s.words.size + headerWords + ls.length
  /-- The walk is good. -/
  chain : s'.Chain 0
  /-- The clause comes last. -/
  offsets : s'.offsets = s.offsets ++ [s.words.size]
  /-- Earlier words are as they were. -/
  word : ∀ i < s.words.size, s'.word i = s.word i
  /-- The literals of the clause. -/
  lits : s'.lits s.words.size = ls
  /-- The flags of the clause. -/
  flags : s'.flagsAt s.words.size = { f with used := min f.used Flags.maxUsed }

namespace Appended

variable {ls : List Literal} {f : Flags}

theorem sizeAt (h : Appended ls f s s') (hc : s.Chain 0) {o : Nat} (ho : o ∈ s.offsets) :
    s'.sizeAt o = s.sizeAt o := h.word o (hc.mem ho).2.inside

theorem lits_old (h : Appended ls f s s') (hc : s.Chain 0) {o : Nat} (ho : o ∈ s.offsets) :
    s'.lits o = s.lits o :=
  lits_congr (h.sizeAt hc ho) fun i hi => h.word _ (by have := (hc.mem ho).2.fits; omega)

theorem literalAt_old (h : Appended ls f s s') (hc : s.Chain 0) {o i : Nat} (ho : o ∈ s.offsets)
    (hi : i < s.sizeAt o) : s'.literalAt o i = s.literalAt o i := by
  simp only [literalAt, h.word _ (by have := (hc.mem ho).2.fits; omega :
    o + headerWords + i < s.words.size)]

theorem flagsAt_old (h : Appended ls f s s') (hc : s.Chain 0) {o : Nat} (ho : o ∈ s.offsets) :
    s'.flagsAt o = s.flagsAt o := by
  simp only [flagsAt, h.word (o + 2) (by
    have := (hc.mem ho).2.fits
    simp only [headerWords] at this
    omega)]

theorem glueAt_old (h : Appended ls f s s') (hc : s.Chain 0) {o : Nat} (ho : o ∈ s.offsets) :
    s'.glueAt o = s.glueAt o := h.word (o + 1) (by
  have := (hc.mem ho).2.fits
  simp only [headerWords] at this
  omega)

theorem current (h : Appended ls f s s') {r : Reference} (hr : s.Current r) : s'.Current r :=
  ⟨hr.1.trans h.epoch.symm, by rw [h.offsets]; exact List.mem_append_left _ hr.2⟩

end Appended

/-- The store after the words of a clause. -/
def append (s : Store) (c : Record) : Store := { s with words := s.words ++ c.words }

@[simp] theorem size_words (c : Record) : c.words.size = headerWords + c.literals.size := by
  simp only [Record.words, headerWords, Array.size_append, Array.size_map]
  rfl

theorem word_append_left {c : Record} {i : Nat} (h : i < s.words.size) :
    (s.append c).word i = s.word i := by
  simp [append, word, Array.getElem?_append, h]

theorem word_append_right (s : Store) (c : Record) (i : Nat) :
    (s.append c).word (s.words.size + i) = c.words.getD i 0 := by
  simp only [append, word, Array.getD_eq_getD_getElem?, Array.getElem?_append]
  rw [if_neg (by omega), Nat.add_sub_cancel_left]

theorem glueAt_append (s : Store) (c : Record) : (s.append c).glueAt s.words.size = c.glue := by
  rw [glueAt, word_append_right]
  simp [Record.words, Array.getElem?_append]

/-- The words of a clause after its header are its literals. -/
theorem getD_words_literal (c : Record) (i : Nat) :
    c.words.getD (headerWords + i) 0 = (c.literals[i]?.map Literal.code).getD 0 := by
  rw [Record.words, Array.getD_eq_getD_getElem?, Array.getElem?_append_right (by simp [headerWords])]
  simp [headerWords]

/-- The walk is good up to a clause that is added, if it was good before. -/
theorem Chain.append {p : Nat} {c : Record} (h : s.Chain p) (h3 : 3 ≤ c.literals.size)
    (hp : c.literals.size ≠ padding) :
    (s.append c).Chain p ∧ (s.append c).offsetsFrom p = s.offsetsFrom p ++ [s.words.size] := by
  have hsize : (s.append c).words.size = s.words.size + (headerWords + c.literals.size) := by
    rw [Store.append, Array.size_append, size_words]
  induction h with
  | done =>
    have hw : (s.append c).word s.words.size = c.literals.size := by
      rw [show s.words.size = s.words.size + 0 from rfl, word_append_right]
      simp [Record.words, Array.getElem?_append]
    have hat : (s.append c).sizeAt s.words.size = c.literals.size := hw
    have hend : s.words.size + headerWords + c.literals.size = (s.append c).words.size := by
      rw [hsize, Nat.add_assoc]
    refine ⟨.clause (by rw [hw]; exact hp) (by rw [hat]; exact h3) (Nat.le_of_eq (by rw [hat, hend]))
      (by rw [hat, hend]; exact .done), ?_⟩
    rw [offsetsFrom_clause (by rw [hsize]; simp only [headerWords]; omega) (by rw [hw]; exact hp),
      hat, offsetsFrom_done (Nat.le_of_eq hend.symm), offsetsFrom_done (Nat.le_refl _)]
    rfl
  | gap inside pad _ ih =>
    have hw := (word_append_left (c := c) inside).trans pad
    refine ⟨.gap (by omega) hw ih.1, ?_⟩
    rw [offsetsFrom_gap (by omega) hw, offsetsFrom_gap inside pad, ih.2]
  | @clause p size three fits next ih =>
    have hw : (s.append c).word p = s.word p := word_append_left (by omega)
    have hat : (s.append c).sizeAt p = s.sizeAt p := hw
    refine ⟨.clause (by rw [hw]; exact size) (by rw [hat]; exact three) (by rw [hat]; omega)
      (by rw [hat]; exact ih.1), ?_⟩
    rw [offsetsFrom_clause (by omega) (by rw [hw]; exact size), offsetsFrom_clause (by omega) size,
      hat, ih.2]
    rfl

/-- A clause of three or more literals is stored after all others. -/
theorem appended_append {c : Record} (hc : s.Chain 0) (h3 : 3 ≤ c.literals.size)
    (hp : c.literals.size ≠ padding) : Appended c.literals.toList c.flags s (s.append c) := by
  have hword := word_append_right s c
  have hw : (s.append c).word s.words.size = c.literals.size := by
    rw [show s.words.size = s.words.size + 0 from rfl, hword]
    simp [Record.words, Array.getElem?_append]
  refine ⟨rfl, ?_, (hc.append h3 hp).1, (hc.append h3 hp).2, fun i hi => word_append_left hi, ?_, ?_⟩
  · simp only [append, Array.size_append, size_words, Array.length_toList]
    omega
  · apply List.ext_getElem?
    intro i
    rw [getElem?_lits, sizeAt, hw]
    by_cases hi : i < c.literals.size
    · rw [if_pos hi, literalAt, Nat.add_assoc, hword, getD_words_literal, Array.getElem?_toList]
      simp [hi]
    · rw [if_neg hi, Array.getElem?_toList, Array.getElem?_eq_none (Nat.le_of_not_lt hi)]
  · rw [flagsAt, hword, ← Flags.ofWord_toWord]
    simp [Record.words, Array.getElem?_append]

/-- Storing a clause succeeds unless the clause is too short or there is no room. -/
theorem ends_allocate {ls : Array Literal} {redundant : Bool} {glue : Nat} (hc : s.Chain 0)
    (h3 : 3 ≤ ls.size) :
    Ends (allocate ls redundant glue) s
      (fun r s' => r = s.nextReference ∧ Appended ls.toList (.fresh redundant) s s' ∧
        s'.words.size < padding)
      (fun e s' => e = .exhausted ∧ s' = s) := by
  unfold allocate
  simp only [ends_bind, ends_get, ends_modify, ends_pure, ends_ite, ends_throw]
  refine ⟨fun h => by omega, fun _ => ⟨fun _ => ⟨trivial, trivial⟩, fun h => ?_⟩⟩
  simp only [nextReference] at h
  have ha := appended_append (c := Record.fresh ls redundant glue) hc h3 (by
    simp only [Record.fresh]
    omega)
  refine ⟨trivial, ha, ?_⟩
  have hsize := ha.size
  simp only [append, Record.fresh, Array.length_toList] at hsize
  simp only [hsize, Record.fresh]
  omega

end Store

end ClauseLearning
