import ClauseLearning.Proofs.Store.Shrink
import Mathlib.Algebra.GroupWithZero.Nat

/-!
# Clauses as values, and what a change makes of them

Each change of the store that goes through a reference makes another clause of the one referred to, and
leaves every other clause alone.  Which clause it makes can be said without any words.

* `Store.Record.stored`, `Store.Record.flagged`, `Store.Record.trashed`, `Store.Record.shortened` — the
  clauses that changes make.
* `Store.Edit` — what is written through a view of a clause, with `Edit.apply` on values and `Edit.run` on
  the store.
* `Store.Amended` — one clause is another one, and all others are as they were.
* `Store.ends_edit`, `Store.ends_markGarbage_amended`, `Store.ends_shrink_amended` — every change amends.
* `Store.recordAt_append` — a clause that was stored reads back.
-/

namespace ClauseLearning

namespace Store

variable {s s' : Store} {o : Nat}

/-! ## Clauses as values -/

namespace Record

/-- A clause as it reads back after it was written: the word of its flags has no room for more than the
greatest count of uses. -/
def stored (c : Record) : Record :=
  { c with flags := { c.flags with used := min c.flags.used 2 } }

/-- A clause with other flags. -/
def flagged (c : Record) (f : Flags) : Record := { c with flags := { f with used := min f.used 2 } }

/-- A clause that is garbage. -/
def trashed (c : Record) : Record :=
  if c.flags.garbage then c else c.flagged { c.flags with garbage := true }

/-- A clause cut to its first literals where it is.  It bears a mark of that, and the search for a watch
does not resume beyond its end. -/
def shortened (c : Record) (n : Nat) : Record :=
  { c with
    flags := { c.flags with used := min c.flags.used 2, shrunken := true }
    searched := if n ≤ c.searched then 2 else c.searched
    literals := c.literals.take n }

end Record

/-- What is written to a clause through a view of it. -/
inductive Edit where
  /-- The glue is written. -/
  | glue (n : Nat)
  /-- The flags are changed. -/
  | flags (f : Flags → Flags)
  /-- The position from which the search for a watch resumes is written. -/
  | searched (n : Nat)
  /-- Two literals change places. -/
  | swap (i j : Nat)

/-- A clause after something was written to it.  Of a position that does not fit in a word, the low bits are kept. -/
def Edit.apply (c : Record) : Edit → Record
  | glue n => { c with glue := n }
  | flags f => c.flagged (f c.flags)
  | searched n => { c with searched := n % 2 ^ 32 }
  | swap i j => { c with literals := c.literals.swapIfInBounds i j }

/-- Writes to the clause of a reference.  Only positions within the clause can change places. -/
def Edit.run (r : Reference) : Edit → StoreM Unit
  | glue n => setGlue r n
  | flags f => updateFlags r f
  | searched n => setSearched r n
  | swap i j => do
    let n ← locate r
    if i < n ∧ j < n then swapLiterals r i j

@[simp] theorem Edit.size_apply (e : Edit) (c : Record) :
    (e.apply c).literals.size = c.literals.size := by
  cases e with
  | glue n => rfl
  | flags f => rfl
  | searched n => rfl
  | swap i j => exact Array.size_swapIfInBounds

/-! ## One clause is another one -/

/-- The clause at an offset is `c` now, and every other clause is as it was. -/
structure Amended (o : Nat) (c : Record) (s s' : Store) : Prop where
  /-- The epoch is as it was. -/
  epoch : s'.epoch = s.epoch
  /-- No words were added. -/
  size : s'.words.size = s.words.size
  /-- The walk is good. -/
  chain : s'.Chain 0
  /-- The clauses are at the same places. -/
  offsets : s'.offsets = s.offsets
  /-- The clause at the offset. -/
  self : s'.recordAt o = c
  /-- The other clauses. -/
  other : ∀ o' ∈ s.offsets, o' ≠ o → s'.recordAt o' = s.recordAt o'

theorem Amended.refl (hc : s.Chain 0) : Amended o (s.recordAt o) s s :=
  ⟨rfl, rfl, hc, rfl, rfl, fun _ _ _ => rfl⟩

/-- A count of garbage is no matter of clauses. -/
theorem Amended.of_words {t : Store} {c : Record} (h : Amended o c s t) (he : s'.epoch = t.epoch)
    (hw : s'.words = t.words) : Amended o c s s' := by
  have hrec : ∀ o', s'.recordAt o' = t.recordAt o' := fun o' => by
    simp only [recordAt, glueAt, flagsAt, searchedAt, literalsAt, sizeAt, word, hw]
  exact ⟨he.trans h.epoch, by rw [hw, h.size], h.chain.of_words hw,
    (offsetsFrom_of_words hw h.chain).trans h.offsets, (hrec o).trans h.self,
    fun o' ho' hne => (hrec o').trans (h.other o' ho' hne)⟩

theorem EditedAt.amended {c : Record} (h : EditedAt o s s') (hc : s.Chain 0) (ho : o ∈ s.offsets)
    (hself : s'.recordAt o = c) : Amended o c s s' :=
  ⟨h.epoch, h.size, h.chain hc ho, h.offsets hc ho, hself, fun _ ho' hne => h.recordAt_other hc ho ho' hne⟩

theorem recordAt_eq {c : Record} (hg : s.glueAt o = c.glue) (hf : s.flagsAt o = c.flags)
    (hs : s.searchedAt o = c.searched) (hl : s.literalsAt o = c.literals) : s.recordAt o = c := by
  simp only [recordAt, hg, hf, hs, hl]

/-- The size of a clause as a value is the one that is noted of it. -/
theorem HasAt.size_recordAt (h : s.HasAt o) : (s.recordAt o).literals.size = s.sizeAt o :=
  size_literalsAt h.fits

section Writes

variable (hc : s.Chain 0) (ho : o ∈ s.offsets)
include hc ho

/-- A word of the header is written, and it is not the size. -/
theorem amended_setWord {k w : Nat} {c : Record} (h0 : 0 < k) (h4 : k < headerWords)
    (hg : (s.setWord (o + k) w).glueAt o = c.glue) (hf : (s.setWord (o + k) w).flagsAt o = c.flags)
    (hs : (s.setWord (o + k) w).searchedAt o = c.searched) (hl : c.literals = s.literalsAt o) :
    Amended o c s (s.setWord (o + k) w) := by
  have he : EditedAt o s (s.setWord (o + k) w) := .of_setWord _ _ (by omega) (by omega)
  have hmem : o ∈ (s.setWord (o + k) w).offsets := by rwa [he.offsets hc ho]
  refine he.amended hc ho (recordAt_eq hg hf hs (hl ▸ ?_))
  refine literalsAt_congr (hc.mem ho).2 ((he.chain hc ho).mem hmem).2 (lits_congr he.sizeAt_self fun i _ => ?_)
  rw [word_setWord, if_neg (by omega)]

/-- The words of the header are within the words. -/
theorem header_inside {k : Nat} (h4 : k < headerWords) : o + k < s.words.size := by
  have := (hc.mem ho).2.fits
  omega

theorem amended_setGlueAt (n : Nat) : Amended o { s.recordAt o with glue := n } s (s.setGlueAt o n) := by
  have hin := header_inside hc ho (k := 1) (by decide)
  refine amended_setWord hc ho (by decide) (by decide) ?_ ?_ ?_ rfl
  · rw [glueAt, word_setWord, if_pos ⟨rfl, hin⟩]
  · rw [flagsAt, word_setWord, if_neg (by omega)]
    rfl
  · rw [searchedAt, word_setWord, if_neg (by omega)]
    rfl

theorem amended_setFlagsAt (f : Flags) : Amended o ((s.recordAt o).flagged f) s (s.setFlagsAt o f) := by
  have hin := header_inside hc ho (k := 2) (by decide)
  refine amended_setWord hc ho (by decide) (by decide) ?_ (flagsAt_setFlagsAt hin f) ?_ rfl
  · rw [glueAt, word_setWord, if_neg (by omega)]
    rfl
  · rw [searchedAt, word_setWord, if_neg (by omega)]
    rfl

theorem amended_setSearchedAt (n : Nat) :
    Amended o { s.recordAt o with searched := n } s (s.setSearchedAt o n) := by
  have hin := header_inside hc ho (k := 3) (by decide)
  refine amended_setWord hc ho (by decide) (by decide) ?_ ?_ ?_ rfl
  · rw [glueAt, word_setWord, if_neg (by omega)]
    rfl
  · rw [flagsAt, word_setWord, if_neg (by omega)]
    rfl
  · rw [searchedAt, word_setWord, if_pos ⟨rfl, hin⟩]

theorem amended_swapAt {i j : Nat} (hi : i < s.sizeAt o) (hj : j < s.sizeAt o) :
    Amended o { s.recordAt o with literals := (s.literalsAt o).swapIfInBounds i j } s (s.swapAt o i j) := by
  have hat := (hc.mem ho).2
  have hf := hat.fits
  have he := EditedAt.of_swapAt hf hi hj
  have hsize := size_literalsAt hf
  have hhead : ∀ k < headerWords, (s.swapAt o i j).word (o + k) = s.word (o + k) := fun k hk => by
    rw [word_swapAt (by omega) (by omega), if_neg (by omega), if_neg (by omega)]
  refine he.amended hc ho (recordAt_eq (hhead 1 (by decide)) (congrArg Flags.ofWord (hhead 2 (by decide)))
    (hhead 3 (by decide)) (Array.toList_inj.1 (List.ext_getElem? fun k => ?_)))
  have hfits : o + headerWords + (s.swapAt o i j).sizeAt o ≤ (s.swapAt o i j).words.size := by
    rw [he.sizeAt_self, he.size]
    exact hf
  have hold : ∀ k, (s.literalsAt o)[k]? = if k < s.sizeAt o then some (s.literalAt o k) else none := fun k => by
    rw [← Array.getElem?_toList, literalsAt_toList hf, getElem?_lits]
  rw [literalsAt_toList hfits, getElem?_lits, he.sizeAt_self, literalAt_swapAt hf hi hj, Array.getElem?_toList,
    Array.swapIfInBounds_def, dif_pos (by omega), dif_pos (by omega), Array.getElem?_swap, hold]
  have hget : ∀ k (h : k < (s.literalsAt o).size), (s.literalsAt o)[k] = s.literalAt o k := fun k h => by
    have := hold k
    rw [if_pos (by omega), Array.getElem?_eq_getElem h] at this
    exact Option.some.inj this
  rw [hget i, hget j]
  by_cases hki : k = i
  · by_cases hkj : j = k
    · rw [if_pos (by omega), if_pos hki, if_pos hkj, ← hkj.trans hki]
    · rw [if_pos (by omega), if_pos hki, if_neg hkj, if_pos hki.symm]
  · by_cases hkj : k = j
    · rw [if_pos (by omega), if_neg hki, if_pos hkj, if_pos hkj.symm]
    · rw [if_neg hki, if_neg hkj, if_neg (Ne.symm hkj), if_neg (Ne.symm hki)]

theorem amended_cutAt {n : Nat} (h3 : 3 ≤ n) (hn : n < s.sizeAt o) (hp : n ≠ padding) :
    Amended o ((s.recordAt o).shortened n) s (s.cutAt o (s.sizeAt o) n) := by
  have hat := (hc.mem ho).2
  have hshort := shortened_cutAt hc ho h3 hn hp
  obtain ⟨hsize, hepoch⟩ := size_cutAt (s := s) (o := o) (n := n) (s.sizeAt o)
  have hmem : ∀ {o'}, o' ∈ s.offsets → (s.cutAt o (s.sizeAt o) n).HasAt o' := fun ho' =>
    (hshort.chain.mem (hshort.offsets.symm ▸ ho' : _ ∈ (s.cutAt o (s.sizeAt o) n).offsets)).2
  refine ⟨hepoch, hsize, hshort.chain, hshort.offsets, recordAt_eq ?_ ?_ ?_ ?_, fun o' ho' hne => ?_⟩
  · rw [glueAt, word_cutAt hat hn _ (by omega) (by omega), if_neg (by omega),
      if_neg (by simp only [headerWords]; omega)]
    rfl
  · exact flagsAt_cutAt hat hn
  · exact searchedAt_cutAt hat hn
  · apply Array.toList_inj.1
    rw [literalsAt_toList (hmem ho).fits, hshort.lits, ← literalsAt_toList hat.fits]
    simp only [Record.shortened, recordAt, Array.take_eq_extract,
      Array.toList_extract, List.extract_eq_take_drop, List.drop_zero, Nat.sub_zero]
  · refine recordAt_congr (hc.mem ho').2 (hmem ho') fun i hi hi' => word_cutAt_outside hat hn ?_
    rcases Nat.lt_or_gt_of_ne hne with hlt | hlt
    · have := hc.apart ho' ho hlt
      omega
    · have := hc.apart ho ho' hlt
      omega

end Writes

/-! ## Changes by reference -/

section Changes

variable {r : Reference} {E : Fault → Store → Prop} (hc : s.Chain 0) (hr : s.Current r)
include hc hr

/-- Writing through a view amends the clause referred to. -/
theorem ends_edit (e : Edit) :
    Ends (e.run r) s (fun _ s' => Amended r.offset (e.apply (s.recordAt r.offset)) s s') E := by
  cases e with
  | glue n =>
    simp only [Edit.run, setGlue, ends_bind, ends_locate hc hr, ends_modify]
    exact amended_setGlueAt hc hr.2 n
  | flags f =>
    simp only [Edit.run, updateFlags, ends_bind, ends_locate hc hr, ends_modify]
    exact amended_setFlagsAt hc hr.2 _
  | searched n =>
    simp only [Edit.run, setSearched, ends_bind, ends_locate hc hr, ends_modify]
    exact amended_setSearchedAt hc hr.2 _
  | swap i j =>
    have hsize := (hc.mem hr.2).2.size_recordAt
    simp only [Edit.run, swapLiterals, ends_bind, ends_locate hc hr, ends_ite, ends_modify, ends_pure]
    refine ⟨fun h => amended_swapAt hc hr.2 h.1 h.2, fun h => ?_⟩
    have hsame : Edit.apply (s.recordAt r.offset) (.swap i j) = s.recordAt r.offset := by
      have : (s.recordAt r.offset).literals.swapIfInBounds i j = (s.recordAt r.offset).literals := by
        rw [Array.swapIfInBounds_def]
        split
        · rw [dif_neg (by omega)]
        · rfl
      rw [Edit.apply, this]
    rw [hsame]
    exact .refl hc

/-- Marking a clause as garbage amends it, and tells whether it was not garbage before. -/
theorem ends_markGarbage_amended :
    Ends (markGarbage r) s (fun fresh s' => fresh = !(s.recordAt r.offset).flags.garbage ∧
      Amended r.offset (s.recordAt r.offset).trashed s s') E := by
  have hflags : (s.recordAt r.offset).flags = s.flagsAt r.offset := rfl
  simp only [markGarbage, ends_bind, ends_locate hc hr, ends_get, Record.trashed, hflags]
  split
  · next h =>
    exact (ends_pure _).2 ⟨by rw [h]; rfl, .refl hc⟩
  · next h =>
    simp only [ends_bind, ends_modify, ends_pure]
    refine ⟨by rw [(Bool.not_eq_true _).mp h]; rfl, ?_⟩
    exact (amended_setFlagsAt hc hr.2 _).of_words rfl rfl

/-- Shortening a clause where it is amends it, unless too few literals would be left. -/
theorem ends_shrink_amended {n : Nat} (hp : s.sizeAt r.offset < padding) :
    Ends (shrink r n) s
      (fun _ s' => 3 ≤ n ∧ Amended r.offset
        (if n < s.sizeAt r.offset then (s.recordAt r.offset).shortened n else s.recordAt r.offset) s s')
      (fun e s' => n < 3 ∧ e = .tooShort ∧ s' = s) := by
  simp only [shrink, ends_bind, ends_locate hc hr, ends_ite, ends_throw, ends_modify, ends_pure]
  refine ⟨fun h => ⟨h, trivial, trivial⟩, fun h3 => ⟨fun hn => ⟨by omega, ?_⟩, fun hn => ⟨by omega, ?_⟩⟩⟩
  · rw [if_pos hn]
    exact amended_cutAt hc hr.2 (by omega) hn (by omega)
  · rw [if_neg hn]
    exact .refl hc

end Changes

/-! ## One more clause -/

/-- A clause that is written after all others reads back. -/
theorem recordAt_append (hc : s.Chain 0) {c : Record} (h3 : 3 ≤ c.literals.size)
    (hp : c.literals.size ≠ padding) : (s.append c).recordAt s.words.size = c.stored := by
  have h := appended_append hc h3 hp
  have hat := (h.chain.mem (h.offsets.symm ▸ List.mem_append_right _ (List.mem_singleton_self _) :
    s.words.size ∈ (s.append c).offsets)).2
  refine recordAt_eq (glueAt_append s c) h.flags ?_ (Array.toList_inj.1 ?_)
  · rw [searchedAt, word_append_right]
    simp [Record.words, Record.stored, Array.getElem?_append]
  · rw [literalsAt_toList hat.fits, h.lits]
    rfl

/-- Earlier clauses are as they were. -/
theorem Appended.recordAt_old {ls : List Literal} {f : Flags} (h : Appended ls f s s') (hc : s.Chain 0) {o : Nat}
    (ho : o ∈ s.offsets) : s'.recordAt o = s.recordAt o := by
  have hmem : o ∈ s'.offsets := h.offsets.symm ▸ List.mem_append_left _ ho
  exact recordAt_congr (hc.mem ho).2 (h.chain.mem hmem).2 fun i _ hi =>
    h.word i (by have := (hc.mem ho).2.fits; omega)

end Store

end ClauseLearning
