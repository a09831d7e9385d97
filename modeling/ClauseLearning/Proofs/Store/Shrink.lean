import ClauseLearning.Proofs.Store.Edit
import ClauseLearning.Solver.Simplify

/-!
# Clauses that are shortened where they are

Literals are written over the first ones of a clause, and then the clause may be cut.  The words that become
free are padding, so that the walk over the store comes across the same clauses as before.

* `Store.Overwritten` — the first literals of one clause are others.
* `Store.Shortened` — one clause was cut to its first literals.
* `Store.Replaced` — what these have in common: only one clause is another one.
-/

namespace ClauseLearning

namespace Store

variable {s s' : Store} {o : Nat}

/-! ## Writing literals -/

/-- The first literals of a clause are others, and nothing else changed. -/
structure Overwritten (o : Nat) (ls : List Literal) (s s' : Store) : Prop extends EditedAt o s s' where
  /-- The literals of the clause. -/
  lits : s'.lits o = ls ++ (s.lits o).drop ls.length
  /-- The flags are as they were. -/
  flags : s'.flagsAt o = s.flagsAt o

theorem literalAt_setLiteralAt {i k : Nat} {l : Literal} (ho : s.HasAt o) (hi : i < s.sizeAt o) :
    (s.setLiteralAt o i l).literalAt o k = if k = i then l else s.literalAt o k := by
  have := ho.fits
  simp only [literalAt, setLiteralAt, word_setWord]
  by_cases h : k = i
  · subst h
    rw [if_pos ⟨rfl, by omega⟩, if_pos rfl]
  · rw [if_neg (by omega), if_neg h]

theorem EditedAt.setLiteralAt {i : Nat} {l : Literal} (hi : i < s.sizeAt o) :
    EditedAt o s (s.setLiteralAt o i l) :=
  .of_setWord _ _ (by simp only [headerWords]; omega) (by omega)

/-- Literals are written one after another. -/
theorem edited_setLiteralsAt {ls : List Literal} {i : Nat} (hc : s.Chain 0) (ho : o ∈ s.offsets)
    (hi : i + ls.length ≤ s.sizeAt o) :
    EditedAt o s (s.setLiteralsAt o i ls) ∧ (s.setLiteralsAt o i ls).flagsAt o = s.flagsAt o ∧
      ∀ k, (s.setLiteralsAt o i ls).literalAt o k =
        if i ≤ k then ls.getD (k - i) (s.literalAt o k) else s.literalAt o k := by
  induction ls generalizing s i with
  | nil =>
    refine ⟨.rfl', rfl, fun k => ?_⟩
    simp [setLiteralsAt]
  | cons l ls ih =>
    rw [List.length_cons] at hi
    have hat := (hc.mem ho).2
    have he : EditedAt o s (s.setLiteralAt o i l) := .setLiteralAt (by omega)
    obtain ⟨he', hf, hl⟩ := ih (s := s.setLiteralAt o i l) (i := i + 1) (he.chain hc ho)
      (he.offsets hc ho ▸ ho) (by rw [he.sizeAt_self]; omega)
    refine ⟨he.trans he', hf.trans ?_, fun k => (hl k).trans ?_⟩
    · simp only [flagsAt, setLiteralAt, word_setWord]
      rw [if_neg (by simp only [headerWords]; omega)]
    · rw [literalAt_setLiteralAt hat (by omega)]
      by_cases hk : k = i
      · subst hk
        rw [if_neg (by omega), if_pos rfl, if_pos (Nat.le_refl k), Nat.sub_self, List.getD_cons_zero]
      · rw [if_neg hk]
        by_cases hlt : i + 1 ≤ k
        · rw [if_pos hlt, if_pos (by omega), show k - i = (k - (i + 1)) + 1 by omega,
            List.getD_cons_succ]
        · rw [if_neg hlt, if_neg (by omega)]

theorem overwritten_setLiteralsAt {ls : List Literal} (hc : s.Chain 0) (ho : o ∈ s.offsets)
    (hle : ls.length ≤ s.sizeAt o) : Overwritten o ls s (s.setLiteralsAt o 0 ls) := by
  obtain ⟨he, hf, hl⟩ := @edited_setLiteralsAt s o ls 0 hc ho (by omega)
  refine ⟨he, List.ext_getElem? fun k => ?_, hf⟩
  rw [getElem?_lits, he.sizeAt_self, hl, if_pos (Nat.zero_le k), Nat.sub_zero, List.getElem?_append,
    List.getElem?_drop, getElem?_lits, List.getD_eq_getElem?_getD]
  by_cases hk : k < ls.length
  · rw [if_pos hk, if_pos (by omega), List.getElem?_eq_getElem hk, Option.getD_some]
  · rw [if_neg hk, List.getElem?_eq_none (by omega), Option.getD_none, Nat.add_sub_cancel' (by omega)]

/-! ## Padding -/

theorem word_pad (s : Store) (i n k : Nat) (h : i + n ≤ s.words.size) :
    (s.pad i n).word k = if i ≤ k ∧ k < i + n then padding else s.word k := by
  induction n generalizing s i with
  | zero => rw [pad, if_neg (by omega)]
  | succ n ih =>
    rw [pad, ih _ _ (by rw [size_setWord]; omega), word_setWord]
    by_cases hk : k = i
    · rw [if_neg (by omega), if_pos (by omega), if_pos (by omega)]
    · rw [if_neg (show ¬ (i = k ∧ i < s.words.size) by omega)]
      exact if_congr (by omega) rfl rfl

@[simp] theorem size_pad (s : Store) (i n : Nat) : (s.pad i n).words.size = s.words.size := by
  induction n generalizing s i with
  | zero => rfl
  | succ n ih => rw [pad, ih, size_setWord]

@[simp] theorem epoch_pad (s : Store) (i n : Nat) : (s.pad i n).epoch = s.epoch := by
  induction n generalizing s i with
  | zero => rfl
  | succ n ih => rw [pad, ih, epoch_setWord]

/-- The walk passes over padding. -/
theorem Chain.pads {p n : Nat} (hw : ∀ i, p ≤ i → i < p + n → s.word i = padding)
    (hc : s.Chain (p + n)) : s.Chain p ∧ s.offsetsFrom p = s.offsetsFrom (p + n) := by
  induction n generalizing p with
  | zero => exact ⟨hc, rfl⟩
  | succ n ih =>
    have hle := hc.le
    obtain ⟨hc', he⟩ := ih (p := p + 1) (fun i h1 h2 => hw i (by omega) (by omega))
      (by rwa [show p + 1 + n = p + (n + 1) by omega])
    have hpad := hw p (Nat.le_refl p) (by omega)
    refine ⟨.gap (by omega) hpad hc', ?_⟩
    rw [offsetsFrom_gap (by omega) hpad, he, show p + 1 + n = p + (n + 1) by omega]

/-! ## Cutting a clause -/

/-- A clause was cut to its first `n` literals.  Of its flags, only those that do not matter changed. -/
structure Shortened (o n : Nat) (s s' : Store) : Prop where
  /-- The epoch is as it was. -/
  epoch : s'.epoch = s.epoch
  /-- The walk is good. -/
  chain : s'.Chain 0
  /-- The clauses are at the same places. -/
  offsets : s'.offsets = s.offsets
  /-- The literals of the clause. -/
  lits : s'.lits o = (s.lits o).take n
  /-- Other clauses have the same literals. -/
  lits_other : ∀ o' ∈ s.offsets, o' ≠ o → s'.lits o' = s.lits o'
  /-- The flags of every clause. -/
  flags : ∀ o' ∈ s.offsets, ∃ used shrunken, s'.flagsAt o' = { s.flagsAt o' with used, shrunken }

section Cut

variable {n : Nat} (ho : s.HasAt o) (hn : n < s.sizeAt o)
include ho hn

/-- What stands where after a clause was cut. -/
theorem word_cutAt (k : Nat) (h2 : k ≠ o + 2) (h3 : k ≠ o + 3) :
    (s.cutAt o (s.sizeAt o) n).word k =
      if k = o then n
      else if o + headerWords + n ≤ k ∧ k < o + headerWords + s.sizeAt o then padding
      else s.word k := by
  have hfits := ho.fits
  have hpad := word_pad s (o + headerWords + n) (s.sizeAt o - n) k (by omega)
  rw [show o + headerWords + n + (s.sizeAt o - n) = o + headerWords + s.sizeAt o by omega] at hpad
  -- the words of the flags and of the resumed search are not looked at
  have hset : ∀ (t : Store) (f : Flags) (g : Nat),
      ({ t.setFlagsAt o f with garbage := g } : Store).word k = t.word k := fun t f g => by
    show (t.setWord (o + 2) f.toWord).word k = _
    rw [word_setWord, if_neg (by omega)]
  have hsearched : ∀ (t : Store) (m : Nat), (t.setSearchedAt o m).word k = t.word k := fun t m => by
    rw [setSearchedAt, word_setWord, if_neg (by omega)]
  unfold cutAt
  simp only [hset]
  split
  all_goals
    try rw [hsearched]
    rw [word_setWord, hpad, size_pad]
    by_cases hk : k = o
    · rw [if_pos ⟨hk.symm, by omega⟩, if_pos hk]
    · rw [if_neg (by omega), if_neg hk]

theorem flagsAt_cutAt : (s.cutAt o (s.sizeAt o) n).flagsAt o =
    { s.flagsAt o with used := min (s.flagsAt o).used Flags.maxUsed, shrunken := true } := by
  have hfits := ho.fits
  simp only [headerWords] at hfits
  -- the flags are read back from the word that nothing before has touched
  have hword : ∀ t : Store, t.word (o + 2) = s.word (o + 2) → t.words.size = s.words.size → ∀ g : Nat,
      ({ t.setFlagsAt o { t.flagsAt o with shrunken := true } with garbage := g } : Store).flagsAt o =
        { s.flagsAt o with used := min (s.flagsAt o).used Flags.maxUsed, shrunken := true } :=
      fun t ht hsize g => by
    have hf : t.flagsAt o = s.flagsAt o := by simp only [flagsAt, ht]
    exact (flagsAt_setFlagsAt (s := t) (by omega) _).trans (by rw [hf])
  have hpad := word_pad s (o + headerWords + n) (s.sizeAt o - n) (o + 2)
    (by simp only [headerWords]; omega)
  rw [if_neg (by simp only [headerWords]; omega)] at hpad
  have hset := (word_setWord (s.pad (o + headerWords + n) (s.sizeAt o - n)) o n (o + 2)).trans
    (if_neg (by omega))
  unfold cutAt
  simp only
  split
  · refine hword _ ?_ (by simp [setSearchedAt]) _
    rw [setSearchedAt, word_setWord, if_neg (by omega), hset, hpad]
  · exact hword _ (hset.trans hpad) (by simp) _

theorem searchedAt_cutAt : (s.cutAt o (s.sizeAt o) n).searchedAt o =
    if n ≤ s.searchedAt o then 2 else s.searchedAt o := by
  have hfits := ho.fits
  simp only [headerWords] at hfits
  have hset : ∀ (t : Store) (f : Flags) (g : Nat),
      ({ t.setFlagsAt o f with garbage := g } : Store).searchedAt o = t.searchedAt o := fun t f g => by
    show (t.setWord (o + 2) f.toWord).word (o + 3) = _
    rw [word_setWord, if_neg (by omega)]
    rfl
  have hpad := word_pad s (o + headerWords + n) (s.sizeAt o - n) (o + 3) (by simp only [headerWords]; omega)
  rw [if_neg (by simp only [headerWords]; omega)] at hpad
  have hsize := (word_setWord (s.pad (o + headerWords + n) (s.sizeAt o - n)) o n (o + 3)).trans
    (if_neg (by omega))
  have hkeep : ((s.pad (o + headerWords + n) (s.sizeAt o - n)).setWord o n).searchedAt o = s.searchedAt o :=
    hsize.trans hpad
  unfold cutAt
  simp only [hset, hkeep]
  split
  · rw [setSearchedAt, searchedAt, word_setWord, if_pos ⟨rfl, by simp; omega⟩]
  · exact hkeep

/-- Words outside of a clause that was cut are as they were. -/
theorem word_cutAt_outside {i : Nat} (hi : i < o ∨ o + headerWords + s.sizeAt o ≤ i) :
    (s.cutAt o (s.sizeAt o) n).word i = s.word i := by
  simp only [headerWords] at hi
  rw [word_cutAt ho hn i (by omega) (by omega), if_neg (by omega), if_neg (by simp only [headerWords]; omega)]

omit ho hn in
theorem size_cutAt (m : Nat) : (s.cutAt o m n).words.size = s.words.size ∧
    (s.cutAt o m n).epoch = s.epoch := by
  unfold cutAt
  simp only
  split <;> simp [setFlagsAt, setSearchedAt]

end Cut

theorem shortened_cutAt {n : Nat} (hc : s.Chain 0) (ho : o ∈ s.offsets) (h3 : 3 ≤ n)
    (hn : n < s.sizeAt o) (hp : n ≠ padding) : Shortened o n s (s.cutAt o (s.sizeAt o) n) := by
  have hat := (hc.mem ho).2
  have hfits := hat.fits
  have hw := word_cutAt hat hn
  obtain ⟨hsize, hepoch⟩ := size_cutAt (s := s) (o := o) (n := n) (s.sizeAt o)
  have hself : (s.cutAt o (s.sizeAt o) n).sizeAt o = n := by
    rw [sizeAt, hw o (by omega) (by omega), if_pos rfl]
  have hout : ∀ i, i < o ∨ o + headerWords + s.sizeAt o ≤ i →
      (s.cutAt o (s.sizeAt o) n).word i = s.word i := fun i hi => word_cutAt_outside hat hn hi
  -- the walk goes on after the clause over the new padding
  obtain ⟨hc', he⟩ := hc.replace ho hsize hout fun hnext => by
    obtain ⟨hpads, hoff⟩ := Chain.pads (p := o + headerWords + n) (n := s.sizeAt o - n) (fun i h1 h2 => by
      simp only [headerWords] at h1 h2
      rw [hw i (by omega) (by omega), if_neg (by omega), if_pos (by simp only [headerWords]; omega)])
      (by rwa [show o + headerWords + n + (s.sizeAt o - n) = o + headerWords + s.sizeAt o by omega])
    have hpad : (s.cutAt o (s.sizeAt o) n).word o ≠ padding := by
      rw [hw o (by omega) (by omega), if_pos rfl]
      exact hp
    refine ⟨.clause hpad (by rw [hself]; exact h3) (by rw [hself, hsize]; omega) (by rwa [hself]), ?_⟩
    rw [offsetsFrom_clause (by rw [hsize]; omega) hpad, hself, hoff,
      show o + headerWords + n + (s.sizeAt o - n) = o + headerWords + s.sizeAt o by omega]
  have hother : ∀ o' ∈ s.offsets, o' ≠ o → ∀ i, o' ≤ i → i < o' + headerWords + s.sizeAt o' →
      (s.cutAt o (s.sizeAt o) n).word i = s.word i := fun o' ho' hne i h1 h2 => by
    apply hout
    rcases Nat.lt_or_gt_of_ne hne with hlt | hlt
    · have := hc.apart ho' ho hlt
      omega
    · have := hc.apart ho ho' hlt
      omega
  refine ⟨hepoch, hc', he, List.ext_getElem? fun i => ?_, fun o' ho' hne => ?_, fun o' ho' => ?_⟩
  · rw [List.getElem?_take, getElem?_lits, getElem?_lits, hself]
    by_cases hi : i < n
    · have := hw (o + headerWords + i) (by simp only [headerWords]; omega)
        (by simp only [headerWords]; omega)
      rw [if_neg (by simp only [headerWords]; omega), if_neg (by omega)] at this
      rw [if_pos hi, if_pos hi, if_pos (by omega), literalAt, literalAt, this]
    · rw [if_neg hi, if_neg hi]
  · exact lits_congr (hother o' ho' hne o' (Nat.le_refl _) (by simp only [headerWords]; omega))
      fun i hi => hother o' ho' hne _ (by omega) (by omega)
  · by_cases hne : o' = o
    · rw [hne]
      exact ⟨_, true, flagsAt_cutAt hat hn⟩
    · refine ⟨(s.flagsAt o').used, (s.flagsAt o').shrunken, ?_⟩
      simp only [flagsAt, hother o' ho' hne (o' + 2) (by omega) (by simp only [headerWords]; omega)]

/-- Shortening a clause to three literals or more succeeds. -/
theorem ends_shrink {r : Reference} {n : Nat} {E : Fault → Store → Prop} (hc : s.Chain 0)
    (hr : s.Current r) (h3 : 3 ≤ n) (hp : n ≠ padding) :
    Ends (shrink r n) s (fun _ s' => Shortened r.offset n s s') E := by
  simp only [shrink, ends_bind, ends_locate hc hr, ends_ite, ends_throw, ends_modify, ends_pure]
  refine ⟨fun h => by omega, fun _ => ⟨fun hn => shortened_cutAt hc hr.2 h3 hn hp, fun hn => ?_⟩⟩
  refine ⟨rfl, hc, rfl, ?_, fun _ _ _ => rfl, fun o' _ => ⟨_, _, rfl⟩⟩
  rw [List.take_of_length_le (by rw [length_lits]; omega)]

/-! ## Changes of one clause -/

/-- One clause has other literals or is garbage now.  All others are as they were. -/
structure Replaced (o : Nat) (s s' : Store) : Prop where
  /-- The epoch is as it was. -/
  epoch : s'.epoch = s.epoch
  /-- The walk is good. -/
  chain : s'.Chain 0
  /-- The clauses are at the same places. -/
  offsets : s'.offsets = s.offsets
  /-- Other clauses have the same literals. -/
  lits : ∀ o' ∈ s.offsets, o' ≠ o → s'.lits o' = s.lits o'
  /-- Other clauses are garbage if they were. -/
  garbage : ∀ o' ∈ s.offsets, o' ≠ o → (s'.flagsAt o').garbage = (s.flagsAt o').garbage
  /-- What is redundant stays so. -/
  redundant : ∀ o' ∈ s.offsets, (s'.flagsAt o').redundant = (s.flagsAt o').redundant
  /-- What is pinned stays so. -/
  reason : ∀ o' ∈ s.offsets, (s'.flagsAt o').reason = (s.flagsAt o').reason

theorem Replaced.trans {s'' : Store} (h : Replaced o s s') (h' : Replaced o s' s'') :
    Replaced o s s'' := by
  have hoff : ∀ {o'}, o' ∈ s.offsets → o' ∈ s'.offsets := fun ho => h.offsets.symm ▸ ho
  exact ⟨h'.epoch.trans h.epoch, h'.chain, h'.offsets.trans h.offsets,
    fun o' ho hne => (h'.lits o' (hoff ho) hne).trans (h.lits o' ho hne),
    fun o' ho hne => (h'.garbage o' (hoff ho) hne).trans (h.garbage o' ho hne),
    fun o' ho => (h'.redundant o' (hoff ho)).trans (h.redundant o' ho),
    fun o' ho => (h'.reason o' (hoff ho)).trans (h.reason o' ho)⟩

theorem Overwritten.replaced {ls : List Literal} (h : Overwritten o ls s s') (hc : s.Chain 0)
    (ho : o ∈ s.offsets) : Replaced o s s' := by
  have hflags : ∀ o' ∈ s.offsets, s'.flagsAt o' = s.flagsAt o' := fun _ ho' => h.flagsAt_eq h.flags hc ho ho'
  exact ⟨h.epoch, h.chain hc ho, h.offsets hc ho, fun o' ho' hne => h.lits_other hc ho ho' hne,
    fun o' ho' _ => by rw [hflags o' ho'], fun o' ho' => by rw [hflags o' ho'],
    fun o' ho' => by rw [hflags o' ho']⟩

theorem Trashed.replaced (h : Trashed o s s') : Replaced o s s' := by
  refine ⟨h.epoch, h.chain, h.offsets, fun o' ho' _ => h.lits o' ho', fun o' ho' hne => ?_,
    fun o' ho' => ?_, fun o' ho' => ?_⟩
  · obtain ⟨used, hf⟩ := h.flags o' ho'
    rw [hf, beq_eq_false_iff_ne.2 hne, Bool.or_false]
  · obtain ⟨used, hf⟩ := h.flags o' ho'
    rw [hf]
  · obtain ⟨used, hf⟩ := h.flags o' ho'
    rw [hf]

theorem Shortened.replaced {n : Nat} (h : Shortened o n s s') : Replaced o s s' := by
  refine ⟨h.epoch, h.chain, h.offsets, h.lits_other, fun o' ho' _ => ?_, fun o' ho' => ?_,
    fun o' ho' => ?_⟩
  all_goals
    obtain ⟨used, shrunken, hf⟩ := h.flags o' ho'
    rw [hf]

end Store

end ClauseLearning
