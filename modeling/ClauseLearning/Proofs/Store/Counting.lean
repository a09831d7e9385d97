import ClauseLearning.Proofs.Store.Compaction
import ClauseLearning.Proofs.Store.Packing

/-!
# The count of garbage, call by call

A store keeps a count of the words that a sweep would free.  Marking a clause adds all its words, cutting one adds
the words that are cut off, and a sweep counts afresh.  So the count is that of a walk over the store, with one
exception: words that are cut off from a clause which is garbage already were counted when it was marked, and are
counted once more.

* `Store.Call`, `Store.calls` — the calls that move the count, one after another.
* `Store.countedTwice` — how many words are counted once more.
* `Store.Amended.garbageFrom` — what another clause in the place of one does to the walk.
* `Store.Chain.loose` — every word is part of a clause or loose.
* `Store.garbage_calls` — the count after any calls.
-/

namespace ClauseLearning

namespace Store

/-! ## Calls -/

/-- The store that a change leaves behind, whether it fails or not. -/
def after {α : Type} (x : StoreM α) (s : Store) : Store :=
  match x s with
  | .ok _ s => s
  | .error _ s => s

/-- What moves the count of garbage. -/
inductive Call where
  /-- A clause is stored. -/
  | allocate (literals : Array Literal) (redundant : Bool) (glue : Nat)
  /-- A clause becomes garbage. -/
  | markGarbage (r : Reference)
  /-- A clause is cut to its first `n` literals where it is. -/
  | shrink (r : Reference) (n : Nat)
  /-- Clauses are swept from a position on. -/
  | sweep {σ : Type} (start : Nat) (rule : SweepRule σ) (x : σ)

/-- The store after a call. -/
def Call.run (s : Store) : Call → Store
  | allocate literals redundant glue => after (Store.allocate literals redundant glue) s
  | markGarbage r => after (Store.markGarbage r) s
  | shrink r n => after (Store.shrink r n) s
  | sweep start rule x => (s.sweep start rule x).1

instance (s : Store) (r : Reference) : Decidable (s.Current r) :=
  inferInstanceAs (Decidable (r.epoch = s.epoch ∧ r.offset ∈ s.offsets))

/-- A reference that is accepted is to a clause, and a sweep begins at a position that no clause lies across. -/
def Call.Proper (s : Store) : Call → Prop
  | allocate .. => True
  | markGarbage r => (s.size? r).isOk = true → s.Current r
  | shrink r _ => (s.size? r).isOk = true → s.Current r
  | sweep start rule _ => s.Seam (min start s.words.size) ∧ rule.Fits

/-- How many words are counted twice after a call, if `n` are before: those that are cut off from garbage, until
there is a sweep. -/
def Call.countedTwice (s : Store) (n : Nat) : Call → Nat
  | allocate .. => n
  | markGarbage _ => n
  | shrink r k =>
    if s.Current r ∧ 3 ≤ k ∧ (s.flagsAt r.offset).garbage = true then n + (s.sizeAt r.offset - k) else n
  | sweep .. => 0

/-- The store after some calls. -/
def calls (s : Store) : List Call → Store
  | [] => s
  | c :: cs => (c.run s).calls cs

/-- Every call is proper when its turn comes. -/
def Proper (s : Store) : List Call → Prop
  | [] => True
  | c :: cs => c.Proper s ∧ (c.run s).Proper cs

/-- How many words are counted twice after some calls, if `n` are before. -/
def countedTwice (s : Store) (n : Nat) : List Call → Nat
  | [] => n
  | c :: cs => (c.run s).countedTwice (c.countedTwice s n) cs

variable {s s' t : Store} {p o twice : Nat}

/-- What holds however a change ends holds of the store that it leaves behind. -/
theorem after_of_ends {α : Type} {x : StoreM α} {P : Store → Prop} (h : Ends x s (fun _ => P) fun _ => P) :
    P (after x s) := by
  unfold after
  split
  · next hx => exact h.of_ok hx
  · next hx => exact h.of_error hx

theorem after_of_error {α : Type} {x : StoreM α} {e : Fault} (h : x s = .error e s') : after x s = s' := by
  rw [after, h]

/-! ## Another clause in the place of one -/

/-- How many words a clause takes that is not garbage. -/
def Record.used (c : Record) : Nat := if c.flags.garbage then 0 else headerWords + c.literals.size

theorem usedBy_recordAt (h : s.HasAt o) : s.usedBy [o] = (s.recordAt o).used := by
  rw [usedBy_singleton, Record.used, h.size_recordAt]
  rfl

/-- What one clause takes less, the walk finds more. -/
theorem Amended.garbageFrom {c : Record} (h : Amended o c s s') (hc : s.Chain 0) (ho : o ∈ s.offsets) :
    s'.garbageFrom 0 + c.used = s.garbageFrom 0 + (s.recordAt o).used := by
  have hat : ∀ {o'}, o' ∈ s.offsets → s'.HasAt o' := fun {o'} ho' =>
    (h.chain.mem (show o' ∈ s'.offsets from h.offsets.symm ▸ ho')).2
  have hsum := hc.garbageFrom_add
  have hsum' := h.chain.garbageFrom_add
  have hoff : s'.offsetsFrom 0 = s.offsetsFrom 0 := h.offsets
  have hnodup : (s.offsetsFrom 0).Nodup := hc.nodup
  obtain ⟨as, bs, hsplit⟩ := List.append_of_mem (show o ∈ s.offsetsFrom 0 from ho)
  -- the clauses before and after this one take as many words as they did
  have hsame : ∀ os : List Nat, (∀ o' ∈ os, o' ∈ s.offsets ∧ o' ≠ o) → s'.usedBy os = s.usedBy os := fun os hos =>
    usedBy_congr
      (fun o' ho' => by
        obtain ⟨hmem, hne⟩ := hos o' ho'
        rw [← (hat hmem).size_recordAt, h.other o' hmem hne, (hc.mem hmem).2.size_recordAt])
      fun o' ho' => by
        obtain ⟨hmem, hne⟩ := hos o' ho'
        exact congrArg (·.flags.garbage) (h.other o' hmem hne)
  rw [hsplit] at hnodup
  obtain ⟨-, hbs, hdisj⟩ := List.nodup_append.1 hnodup
  have has : s'.usedBy as = s.usedBy as := hsame as fun o' ho' =>
    ⟨show o' ∈ s.offsetsFrom 0 by rw [hsplit]; exact List.mem_append_left _ ho',
      hdisj o' ho' o (List.mem_cons_self ..)⟩
  have hrest : s'.usedBy bs = s.usedBy bs := hsame bs fun o' ho' =>
    ⟨show o' ∈ s.offsetsFrom 0 by rw [hsplit]; exact List.mem_append_right _ (List.mem_cons_of_mem _ ho'),
      fun he => (List.nodup_cons.1 hbs).1 (he ▸ ho')⟩
  have hself : s'.usedBy [o] = c.used := by rw [usedBy_recordAt (hat ho), h.self]
  have hself' := usedBy_recordAt (hc.mem ho).2
  rw [hoff, hsplit, ← List.singleton_append, usedBy_append, usedBy_append, has, hrest, hself, h.size] at hsum'
  rw [hsplit, ← List.singleton_append, usedBy_append, usedBy_append, hself'] at hsum
  omega

@[simp] theorem Record.used_trashed (c : Record) : c.trashed.used = 0 := by
  unfold Record.trashed
  split
  · next h => rw [Record.used, if_pos h]
  · rfl

@[simp] theorem Record.size_shortened (c : Record) (n : Nat) :
    (c.shortened n).literals.size = min n c.literals.size := by
  simp only [Record.shortened, Array.take_eq_extract,
    Array.size_extract, Nat.sub_zero]

/-- A clause that is cut takes fewer words, unless it is garbage. -/
theorem Record.used_shortened {c : Record} {n : Nat} (h : n ≤ c.literals.size) :
    (c.shortened n).used + (if c.flags.garbage = true then 0 else c.literals.size - n) = c.used := by
  have hg : (c.shortened n).flags.garbage = c.flags.garbage := rfl
  rw [Record.used, Record.used, hg, Record.size_shortened]
  split
  · rfl
  · omega

theorem garbage_pad (s : Store) (i m : Nat) : (s.pad i m).garbage = s.garbage := by
  induction m generalizing s i with
  | zero => rfl
  | succ m ih => exact ih _ (i + 1)

/-- What is cut off is counted, whatever the clause is. -/
theorem garbage_cutAt (s : Store) (o size n : Nat) : (s.cutAt o size n).garbage = s.garbage + (size - n) := by
  unfold cutAt
  simp only
  split <;> exact congrArg (· + _) (garbage_pad s _ _)

/-! ## What one call does -/

/-- A store whose walk is good, and in which no clause is as long as padding. -/
structure Orderly (s : Store) : Prop where
  /-- The walk is good. -/
  chain : s.Chain 0
  /-- No clause is as long as padding. -/
  room : ∀ o ∈ s.offsets, s.sizeAt o < padding

/-- An orderly store in whose count `twice` words are counted twice. -/
structure Counts (twice : Nat) (s : Store) : Prop extends Orderly s where
  /-- The count. -/
  count : s.garbage = s.garbageFrom 0 + twice

theorem orderly_of_none (h : s.words.size = 0) : Orderly s := by
  have hoff : s.offsets = [] := offsetsFrom_done (Nat.le_of_eq h)
  exact ⟨h ▸ .done, fun o ho => by rw [hoff] at ho; cases ho⟩

/-- What is counted does not matter for the order. -/
theorem Orderly.of_words (h : Orderly s) (hw : s'.words = s.words) : Orderly s' := by
  refine ⟨h.chain.of_words hw, fun o ho => ?_⟩
  rw [offsets, offsetsFrom_of_words hw h.chain] at ho
  have hroom := h.room o ho
  simpa only [sizeAt, word, hw] using hroom

/-- One clause more, after all others. -/
theorem Orderly.append (h : Orderly s) {c : Record} (h3 : 3 ≤ c.literals.size) (hp : c.literals.size < padding) :
    Orderly (s.append c) := by
  have happ := appended_append h.chain h3 (Nat.ne_of_lt hp)
  refine ⟨happ.chain, fun o ho => ?_⟩
  rw [happ.offsets] at ho
  rcases List.mem_append.1 ho with ho | ho
  · rw [happ.sizeAt h.chain ho]
    exact h.room o ho
  · rwa [List.mem_singleton.1 ho, ← length_lits, happ.lits, Array.length_toList]

/-- One clause is another one that is not longer. -/
theorem Orderly.amend {c : Record} (h : Orderly s) (ha : Amended o c s s')
    (hsize : c.literals.size ≤ (s.recordAt o).literals.size) : Orderly s' := by
  refine ⟨ha.chain, fun o' ho' => ?_⟩
  rw [← (ha.chain.mem ho').2.size_recordAt]
  rw [ha.offsets] at ho'
  have hroom := h.room o' ho'
  rw [← (h.chain.mem ho').2.size_recordAt] at hroom
  by_cases hne : o' = o
  · rw [hne, ha.self]
    rw [hne] at hroom
    omega
  · rwa [ha.other o' ho' hne]

/-- Clauses that a sweep goes past are where they were. -/
theorem Orderly.cut (h : Orderly s) {q : Nat} (hq : s.Seam q) (e : Nat) : Orderly (s.cut q e) := by
  refine ⟨hq.chain_cut h.chain e, fun o ho => ?_⟩
  have hmem := ((hq.mem_cut h.chain).1 ho).1
  have hsize : (s.cut q e).sizeAt o = s.sizeAt o := by
    have hfits := hq.fits h.chain ho
    exact word_cut (by have := (h.chain.mem hmem).2.three; omega) e
  rw [hsize]
  exact h.room o hmem

/-- A sweep leaves an orderly store behind.  Every visit appends one clause at most, to clauses that stay. -/
theorem Orderly.sweep (h : Orderly s) {σ : Type} {start : Nat} (hq : s.Seam (min start s.words.size))
    {rule : SweepRule σ} (hrule : rule.Fits) (x : σ) : Orderly (s.sweep start rule x).1 := by
  have hswept := @sweepFrom_induct s (min start s.words.size) σ rule (fun _ t _ => Orderly t) []
    (s.offsetsFrom (min start s.words.size)) (s.words.take (min start s.words.size)) x (hq.chain h.chain)
    (fun done o rest t x _ ho ht => by
      have hmem := ((hq.mem_offsetsFrom h.chain).1 ho).1
      have hsize := (h.chain.mem hmem).2.size_recordAt
      have h3 := (h.chain.mem hmem).2.three
      have hroom := h.room o hmem
      unfold Visits
      split
      · exact ht
      · next c x' hout =>
        have hfit := hrule x ⟨o, s.epoch⟩ ⟨t.words.size, nextEpoch s.epoch⟩ (s.recordAt o) c (by rw [hout]) (by omega)
        exact ht.append (c := c.settled) hfit.1 (Nat.lt_of_le_of_lt hfit.2 (by omega)))
    rfl (h.cut hq (nextEpoch s.epoch))
  rw [sweep_eq_gather hrule (hq.chain h.chain)]
  exact hswept.of_words rfl

theorem counts_empty : Counts 0 {} where
  toOrderly := orderly_of_none rfl
  count := by rw [garbageFrom, if_neg (show ¬ 0 < ({} : Store).words.size from Nat.lt_irrefl 0)]

namespace Counts

theorem allocate (h : Counts twice s) (ls : Array Literal) (redundant : Bool) (glue : Nat) :
    Counts twice (after (Store.allocate ls redundant glue) s) := by
  refine after_of_ends ?_
  simp only [Store.allocate, ends_bind, ends_get, ends_modify, ends_pure, ends_ite, ends_throw]
  refine ⟨fun _ => h, fun h3 => ⟨fun _ => h, fun hroom => ?_⟩⟩
  simp only [nextReference] at hroom
  have h3' : 3 ≤ (Record.fresh ls redundant glue).literals.size := Nat.le_of_not_lt h3
  have hp : (Record.fresh ls redundant glue).literals.size < padding := by
    show ls.size < padding
    omega
  have hwalk := (appended_append h.chain h3' (Nat.ne_of_lt hp)).garbageFrom h.chain
  rw [show (Record.fresh ls redundant glue).flags.garbage = false from rfl, if_neg Bool.false_ne_true,
    Nat.add_zero] at hwalk
  exact ⟨h.append h3' hp, h.count.trans (congrArg (· + twice) hwalk.symm)⟩

/-- Marking a clause counts its words, unless it is garbage already. -/
theorem markGarbage (h : Counts twice s) {r : Reference} (hr : s.Current r) :
    Counts twice (after (Store.markGarbage r) s) := by
  have hsize := (h.chain.mem hr.2).2.size_recordAt
  have hnoted : Ends (Store.markGarbage r) s
      (fun _ s' => s'.garbage = s.garbage + (s.recordAt r.offset).used) fun _ _ => False := by
    have hflags : (s.recordAt r.offset).flags = s.flagsAt r.offset := rfl
    simp only [Store.markGarbage, ends_bind, ends_locate h.chain hr, ends_get, Record.used, hsize, hflags]
    split
    · exact (ends_pure _).2 rfl
    · simp only [ends_bind, ends_modify, ends_pure]
      exact Nat.add_assoc ..
  refine after_of_ends ((hnoted.and (ends_markGarbage_amended (E := fun _ _ => False) h.chain hr)).imp
    (fun _ s' hs => ?_) fun _ _ hs => hs.1.elim)
  obtain ⟨hgarbage, -, ha⟩ := hs
  have hwalk := ha.garbageFrom h.chain hr.2
  have hcount := h.count
  rw [Record.used_trashed] at hwalk
  refine ⟨h.amend ha (Nat.le_of_eq ?_), by omega⟩
  rw [Record.trashed]
  split <;> rfl

/-- Cutting a clause counts the words that are cut off.  If it is garbage they were counted before. -/
theorem shrink (h : Counts twice s) {r : Reference} (hr : s.Current r) (k : Nat) :
    Counts (Call.countedTwice s twice (.shrink r k)) (after (Store.shrink r k) s) := by
  have hsize := (h.chain.mem hr.2).2.size_recordAt
  have hnoted : Ends (Store.shrink r k) s
      (fun _ s' => s'.garbage = s.garbage + (s.sizeAt r.offset - k)) fun _ _ => True := by
    simp only [Store.shrink, ends_bind, ends_locate h.chain hr, ends_ite, ends_throw, ends_modify, ends_pure]
    refine ⟨fun _ => trivial, fun _ => ⟨fun _ => garbage_cutAt .., fun _ => by omega⟩⟩
  refine after_of_ends ((hnoted.and (ends_shrink_amended h.chain hr (h.room _ hr.2))).imp
    (fun _ s' hs => ?_) fun _ s' hs => ?_)
  · obtain ⟨hgarbage, h3, ha⟩ := hs
    have hwalk := ha.garbageFrom h.chain hr.2
    have hcount := h.count
    have hflags : (s.recordAt r.offset).flags = s.flagsAt r.offset := rfl
    have htwice : Call.countedTwice s twice (.shrink r k) =
        twice + if (s.flagsAt r.offset).garbage = true then s.sizeAt r.offset - k else 0 := by
      rw [Call.countedTwice]
      by_cases hg : (s.flagsAt r.offset).garbage = true
      · rw [if_pos ⟨hr, h3, hg⟩, if_pos hg]
      · rw [if_neg fun hcut => hg hcut.2.2, if_neg hg, Nat.add_zero]
    rw [htwice]
    by_cases hk : k < s.sizeAt r.offset
    · have hused := Record.used_shortened (c := s.recordAt r.offset) (n := k) (by omega)
      rw [if_pos hk] at ha hwalk
      rw [hsize, hflags] at hused
      refine ⟨h.amend ha (by rw [Record.size_shortened]; exact Nat.min_le_right ..), ?_⟩
      split <;> rename_i hg
      · rw [if_pos hg] at hused
        omega
      · rw [if_neg hg] at hused
        omega
    · rw [if_neg hk] at ha hwalk
      refine ⟨h.amend ha (Nat.le_refl _), ?_⟩
      split <;> omega
  · obtain ⟨-, h3, -, rfl⟩ := hs
    rw [Call.countedTwice, if_neg fun hcut => absurd hcut.2.1 (Nat.not_le_of_lt h3)]
    exact h

/-- What a proper call does to the count. -/
theorem run (h : Counts twice s) {c : Call} (hc : c.Proper s) : Counts (c.countedTwice s twice) (c.run s) := by
  have hrefused : ∀ r : Reference, ¬ (s.size? r).isOk = true → ∃ e, s.size? r = .error e := fun r hr => by
    cases he : s.size? r with
    | ok n => exact absurd (by rw [he]; rfl) hr
    | error e => exact ⟨e, rfl⟩
  cases c with
  | allocate ls redundant glue => exact h.allocate ls redundant glue
  | markGarbage r =>
    by_cases hr : (s.size? r).isOk = true
    · exact h.markGarbage (hc hr)
    · obtain ⟨e, he⟩ := hrefused r hr
      have hsame : after (Store.markGarbage r) s = s := after_of_error (bind_locate_of_error he)
      rwa [Call.run, hsame]
  | shrink r k =>
    by_cases hr : (s.size? r).isOk = true
    · exact h.shrink (hc hr) k
    · obtain ⟨e, he⟩ := hrefused r hr
      have hsame : after (Store.shrink r k) s = s := after_of_error (bind_locate_of_error he)
      rw [Call.run, hsame, Call.countedTwice, if_neg]
      · exact h
      · rintro ⟨hr, -⟩
        rw [size?_of_current h.chain hr] at he
        cases he
  | sweep start rule x => exact ⟨h.toOrderly.sweep hc.1 hc.2 x, garbage_sweep s start rule x⟩

/-- What proper calls do to the count, one after another. -/
theorem calls (h : Counts twice s) {cs : List Call} (hcs : s.Proper cs) :
    Counts (s.countedTwice twice cs) (s.calls cs) := by
  induction cs generalizing s twice with
  | nil => exact h
  | cons c cs ih => exact ih (h.run hcs.1) hcs.2

end Counts

/-! ## Words that no clause has -/

/-- Whether a word is part of a clause. -/
def Occupied (s : Store) (i : Nat) : Prop := ∃ o ∈ s.offsets, o ≤ i ∧ i < o + headerWords + s.sizeAt o

instance (s : Store) (i : Nat) : Decidable (s.Occupied i) :=
  inferInstanceAs (Decidable (∃ o ∈ s.offsets, o ≤ i ∧ i < o + headerWords + s.sizeAt o))

/-- How many words belong to clauses that are garbage. -/
def deadWords (s : Store) : Nat :=
  ((s.offsets.filter fun o => (s.flagsAt o).garbage).map fun o => headerWords + s.sizeAt o).sum

/-- How many words are part of no clause. -/
def looseWords (s : Store) : Nat := (List.range s.words.size).countP fun i => ¬ s.Occupied i

/-- The positions of the next words, and those after them, as a walk goes over them. -/
theorem range'_split {p n m : Nat} (h : p + n ≤ m) :
    List.range' p (m - p) = List.range' p n ++ List.range' (p + n) (m - (p + n)) := by
  rw [List.range'_append_1]
  congr 1
  omega

/-- Every word from a position on is part of a clause or loose.  The induction is along the walk. -/
theorem Chain.loose (h : s.Chain p) :
    (List.range' p (s.words.size - p)).countP
        (fun i => ¬ ∃ o ∈ s.offsetsFrom p, o ≤ i ∧ i < o + headerWords + s.sizeAt o) +
      ((s.offsetsFrom p).map fun o => headerWords + s.sizeAt o).sum + p = s.words.size := by
  induction h with
  | done => simp [offsetsFrom_done (Nat.le_refl _)]
  | @gap p inside pad next ih =>
    have hout : ¬ ∃ o ∈ s.offsetsFrom (p + 1), o ≤ p ∧ p < o + headerWords + s.sizeAt o := by
      rintro ⟨o, ho, hle, -⟩
      have := (next.mem ho).1
      omega
    rw [offsetsFrom_gap inside pad, range'_split (show p + 1 ≤ s.words.size from inside), List.countP_append,
      List.range'_one, List.countP_singleton, if_pos (decide_eq_true hout)]
    omega
  | @clause p size three fits next ih =>
    have hin : ∀ i ∈ List.range' p (headerWords + s.sizeAt p),
        ∃ o ∈ p :: s.offsetsFrom (p + headerWords + s.sizeAt p), o ≤ i ∧ i < o + headerWords + s.sizeAt o :=
      fun i hi => by
        obtain ⟨hle, hlt⟩ := List.mem_range'_1.1 hi
        exact ⟨p, List.mem_cons_self .., hle, by omega⟩
    have hrest : ∀ i ∈ List.range' (p + headerWords + s.sizeAt p) (s.words.size - (p + headerWords + s.sizeAt p)),
        (decide (¬ ∃ o ∈ p :: s.offsetsFrom (p + headerWords + s.sizeAt p), o ≤ i ∧ i < o + headerWords + s.sizeAt o) =
            true ↔
          decide (¬ ∃ o ∈ s.offsetsFrom (p + headerWords + s.sizeAt p), o ≤ i ∧ i < o + headerWords + s.sizeAt o) =
            true) := fun i hi => by
      have hle := (List.mem_range'_1.1 hi).1
      rw [decide_eq_true_iff, decide_eq_true_iff, List.exists_mem_cons_iff, or_iff_right (by omega)]
    have hnone : (List.range' p (headerWords + s.sizeAt p)).countP (fun i => ¬ ∃ o ∈
        p :: s.offsetsFrom (p + headerWords + s.sizeAt p), o ≤ i ∧ i < o + headerWords + s.sizeAt o) = 0 :=
      List.countP_eq_zero.2 fun i hi => by simpa only [decide_eq_true_eq, not_not] using hin i hi
    rw [offsetsFrom_clause (by omega) size, range'_split (n := headerWords + s.sizeAt p) (by omega), List.countP_append,
      hnone, ← Nat.add_assoc, List.countP_congr hrest, List.map_cons, List.sum_cons]
    omega

/-- The words of clauses are those of garbage and the others. -/
theorem deadWords_add (s : Store) :
    s.deadWords + s.usedBy s.offsets = (s.offsets.map fun o => headerWords + s.sizeAt o).sum := by
  unfold deadWords
  generalize s.offsets = os
  induction os with
  | nil => rfl
  | cons o os ih =>
    rw [← List.singleton_append, usedBy_append, usedBy_singleton, List.filter_append, List.map_append, List.map_append,
      List.sum_append, List.sum_append, ← ih]
    cases hg : (s.flagsAt o).garbage <;> simp [hg] <;> omega

/-- The walk finds the words of garbage clauses and the loose ones. -/
theorem Chain.garbageFrom_eq (h : s.Chain 0) : s.garbageFrom 0 = s.deadWords + s.looseWords := by
  have hsum := h.garbageFrom_add
  have hloose := h.loose
  have hdead := s.deadWords_add
  have hcount : s.looseWords = (List.range' 0 (s.words.size - 0)).countP
      fun i => ¬ ∃ o ∈ s.offsetsFrom 0, o ≤ i ∧ i < o + headerWords + s.sizeAt o := by
    rw [looseWords, List.range_eq_range']
    rfl
  rw [← hcount] at hloose
  simp only [offsets] at hdead
  omega

/-! ## After any calls -/

/-- What the count of a store is, if `twice` words are counted twice. -/
structure Counted (twice : Nat) (s : Store) : Prop where
  /-- The count is that of a walk over the store, and what is counted once more. -/
  count : s.garbage = s.garbageFrom 0 + twice
  /-- The walk finds the words of clauses that are garbage, and those that are part of no clause. -/
  walk : s.garbageFrom 0 = s.deadWords + s.looseWords
  /-- What is part of no clause is padding. -/
  padded : ∀ i < s.words.size, ¬ s.Occupied i → s.word i = padding
  /-- The walk does not find more words than there are. -/
  within : s.garbageFrom 0 ≤ s.words.size

/-- After any calls on an empty store, the words that are garbage or padding are counted exactly, and those that
were cut off from garbage since the last sweep once more. -/
theorem garbage_calls {cs : List Call} (h : Proper {} cs) :
    Counted (countedTwice {} 0 cs) (calls {} cs) := by
  have hcounts := counts_empty.calls h
  have hsum := hcounts.chain.garbageFrom_add
  exact {
    count := hcounts.count
    walk := hcounts.chain.garbageFrom_eq
    padded := fun i hi hout => (hcounts.chain.covered (Nat.zero_le i) hi).resolve_left hout
    within := by omega }

/-- Clauses that are not garbage are kept, and turned around. -/
def dropGarbage : SweepRule Unit := fun x _ _ c =>
  (if c.flags.garbage then none else some { c with literals := c.literals.reverse }, x)

theorem fits_dropGarbage : dropGarbage.Fits := by
  intro x old new c c' hkept h3
  simp only [dropGarbage] at hkept
  split at hkept
  · cases hkept
  · obtain rfl := Option.some.inj hkept
    simpa using h3

/-- Three clauses are stored.  The first is cut and then marked, the second marked and then cut; a sweep that begins
where the second one is drops it; a stale reference is refused, and the third is marked and cut. -/
def chores : List Call :=
  [.allocate #[⟨0⟩, ⟨2⟩, ⟨4⟩, ⟨6⟩, ⟨8⟩] false 0, .allocate #[⟨1⟩, ⟨3⟩, ⟨5⟩, ⟨7⟩] true 2,
    .allocate #[⟨8⟩, ⟨10⟩, ⟨12⟩, ⟨14⟩] true 3, .shrink ⟨0, 0⟩ 3, .markGarbage ⟨0, 0⟩, .markGarbage ⟨9, 0⟩,
    .shrink ⟨9, 0⟩ 3, .sweep 9 dropGarbage (), .markGarbage ⟨9, 0⟩, .markGarbage ⟨9, 1⟩, .shrink ⟨9, 1⟩ 3]

theorem garbage_calls_chores :
    Proper {} chores ∧ Counted (countedTwice {} 0 chores) (calls {} chores) ∧
      (calls {} (chores.take 5)).garbage = 9 ∧ (calls {} (chores.take 7)).garbage = 18 ∧
      countedTwice {} 0 (chores.take 7) = 1 ∧ (calls {} (chores.take 8)).garbage = 9 ∧
      countedTwice {} 0 (chores.take 8) = 0 ∧ countedTwice {} 0 chores = 1 := by
  have h : Proper {} chores :=
    ⟨trivial, trivial, trivial, fun _ => by decide +kernel, fun _ => by decide +kernel, fun _ => by decide +kernel,
      fun _ => by decide +kernel, ⟨by decide +kernel, fits_dropGarbage⟩, fun hr => absurd hr (by decide +kernel),
      fun _ => by decide +kernel, fun _ => by decide +kernel, trivial⟩
  exact ⟨h, garbage_calls h, by decide +kernel⟩

/-- When a clause of four literals is marked as garbage and then cut to three, nine words are counted: seven of the
clause, one of padding, and that one again.  There are eight words. -/
theorem garbage_counted_twice :
    let cs : List Call := [.allocate #[⟨2⟩, ⟨4⟩, ⟨6⟩, ⟨8⟩] false 0, .markGarbage ⟨0, 0⟩, .shrink ⟨0, 0⟩ 3]
    Proper {} cs ∧ (calls {} cs).garbage = 9 ∧ (calls {} cs).deadWords = 7 ∧ (calls {} cs).looseWords = 1 ∧
      (calls {} cs).words.size = 8 :=
  ⟨⟨trivial, fun _ => by decide +kernel, fun _ => by decide +kernel, trivial⟩, by decide +kernel⟩

end Store

end ClauseLearning
