import ClauseLearning.Proofs.Relay.Pool
import Mathlib.Algebra.GroupWithZero.Nat
import Mathlib.Data.List.Count

/-!
# What a selection takes

A selection goes through the buckets of a pool, the shorter clauses first, and counts literals.  When the next clause
would be too much it does not look further, and it need not: of a clause that is longer there is no room either.  So
whatever stays in the pool is too long for what is left of the limit.

* `literalCount` — the count of literals of some clauses.
* `Pool.Greedy` — a selection of clauses which are not units.
* `Pool.Selected`, `Pool.selected_give` — a selection as a whole.
* `Pool.add_eq_false_iff` — when a clause is refused.
* `Pool.called_stocked` — a pool after any calls.
-/

namespace ClauseLearning

/-- The count of literals of some clauses. -/
def literalCount (cs : List SharedClause) : Nat := (cs.map SharedClause.size).sum

@[simp] theorem literalCount_append (cs ds : List SharedClause) :
    literalCount (cs ++ ds) = literalCount cs + literalCount ds := by
  simp only [literalCount, List.map_append, List.sum_append]

theorem literalCount_of_size {cs : List SharedClause} {size : Nat} (h : ∀ c ∈ cs, c.size = size) :
    literalCount cs = cs.length * size := by
  rw [literalCount, List.map_congr_left h, List.map_const', List.sum_replicate_nat]

/-- Whether a clause has some size. -/
def SharedClause.hasSize (k : Nat) (c : SharedClause) : Bool := c.size = k

theorem SharedClause.size_of_hasSize {k : Nat} {c : SharedClause} (h : c.hasSize k = true) : c.size = k :=
  of_decide_eq_true h

/-- Clauses of all sizes are the same, if those of each size are. -/
theorem perm_of_hasSize {cs ds : List SharedClause} (h : ∀ k, cs.filter (·.hasSize k) = ds.filter (·.hasSize k)) :
    cs.Perm ds := by
  refine List.perm_iff_count.2 fun c => ?_
  have hself : c.hasSize c.size = true := decide_eq_true rfl
  rw [← List.count_filter (p := (·.hasSize c.size)) hself, h, List.count_filter hself]

namespace Pool

variable {p : Pool} {c : SharedClause} {size k limit literals : Nat} {buckets : List (Array SharedClause)}

/-! ## Buckets -/

theorem SortedFrom.of_getElem? {i : Nat} {bucket : Array SharedClause} (h : SortedFrom size buckets)
    (hb : buckets[i]? = some bucket) :
    (∀ c ∈ bucket, c.size = size + i) ∧ (flat buckets).filter (·.hasSize (size + i)) = bucket.toList := by
  induction buckets generalizing size i with
  | nil => simp at hb
  | cons b rest ih =>
    rw [flat_cons, List.filter_append]
    cases i with
    | zero =>
      obtain rfl : b = bucket := by simpa using hb
      have hall : b.toList.filter (·.hasSize size) = b.toList :=
        List.filter_eq_self.2 fun c hc => decide_eq_true (h.1 c hc)
      refine ⟨fun c hc => h.1 c (Array.mem_toList_iff.2 hc), ?_⟩
      rw [Nat.add_zero, hall, filter_flat_of_lt (fun _ => SharedClause.size_of_hasSize) h.2 (Nat.lt_succ_self size),
        List.append_nil]
    | succ i =>
      obtain ⟨hsize, hfilter⟩ := ih h.2 (by simpa using hb)
      rw [Nat.add_right_comm, Nat.add_assoc] at hsize hfilter
      refine ⟨hsize, ?_⟩
      rw [filter_bucket_of_ne (fun _ => SharedClause.size_of_hasSize) h.1 (by omega), List.nil_append, hfilter]

theorem length_select : (select limit buckets size literals).2.length = buckets.length := by
  induction buckets generalizing size literals with
  | nil => rfl
  | cons bucket rest ih =>
    rw [select]
    split
    · exact congrArg (· + 1) ih
    · dsimp only
      split
      · rfl
      · exact congrArg (· + 1) ih

/-! ## Longer clauses -/

/-- A selection of clauses which are not units, where `literals` literals were taken before. -/
structure Greedy (limit literals : Nat) (taken kept : List SharedClause) : Prop where
  /-- The shorter clauses come first. -/
  sorted : taken.Pairwise fun c d => c.size ≤ d.size
  /-- The limit is kept, unless it was passed before. -/
  within : literals + literalCount taken ≤ max limit literals
  /-- A clause that stays is not shorter than one that is taken, and there is no room for it. -/
  full : ∀ c ∈ kept, (∀ d ∈ taken, d.size ≤ c.size) ∧ limit < literals + literalCount taken + c.size

/-- Where there is no room for the shortest clauses there is none for any. -/
theorem select_of_lt (hsize : 2 ≤ size) (h : limit < literals + size) :
    select limit buckets size literals = ([], buckets) := by
  cases buckets with
  | nil => rfl
  | cons bucket rest =>
    rw [select, if_neg (by omega)]
    dsimp only
    rw [if_pos (Nat.div_eq_of_lt (by omega))]

theorem mem_flat_of_mem_select (h : SortedFrom size buckets) (hc : c ∈ (select limit buckets size literals).1) :
    c ∈ flat buckets := by
  have hq : ∀ d, (d == c) = true → d.size = c.size := fun d hd => by rw [beq_iff_eq.1 hd]
  have hmem : c ∈ (flat buckets).filter (· == c) := by
    rw [← filter_select hq h]
    exact List.mem_append_left _ (List.mem_filter.2 ⟨hc, beq_self_eq_true c⟩)
  exact (List.mem_filter.1 hmem).1

/-- Clauses of one size are taken before, and they are not longer. -/
theorem Greedy.prepend {head taken kept : List SharedClause} (h : Greedy limit (literals + literalCount head) taken kept)
    (hhead : ∀ c ∈ head, c.size = size) (htaken : ∀ c ∈ taken, size ≤ c.size) (hkept : ∀ c ∈ kept, size ≤ c.size) :
    ((head ++ taken).Pairwise fun c d => c.size ≤ d.size) ∧
      ∀ c ∈ kept, (∀ d ∈ head ++ taken, d.size ≤ c.size) ∧ limit < literals + literalCount (head ++ taken) + c.size := by
  have hsame : head.Pairwise fun c d => c.size ≤ d.size := List.pairwise_of_forall_mem_list fun c hc d hd =>
    Nat.le_of_eq ((hhead c hc).trans (hhead d hd).symm)
  refine ⟨List.pairwise_append.2 ⟨hsame, h.sorted, fun c hc d hd => hhead c hc ▸ htaken d hd⟩, fun c hc => ?_⟩
  obtain ⟨hle, hlt⟩ := h.full c hc
  rw [literalCount_append, ← Nat.add_assoc]
  refine ⟨fun d hd => ?_, hlt⟩
  rcases List.mem_append.1 hd with hd | hd
  · exact hhead d hd ▸ hkept c hc
  · exact hle d hd

/-- The clauses of one size for which there is room: they fit, and if these are not all there is no room for one more. -/
theorem room_spec {count n : Nat} (hsize : 0 < size) (hn : min ((limit - literals) / size) count = n) :
    n * size ≤ limit - literals ∧ (n < count → limit - literals < n * size + size) := by
  constructor
  · have hle : n ≤ (limit - literals) / size := hn ▸ Nat.min_le_left ..
    exact Nat.le_trans (Nat.mul_le_mul_right size hle) (Nat.div_mul_le_self ..)
  · intro hlt
    have hdiv := Nat.lt_mul_div_succ (limit - literals) hsize
    rwa [show (limit - literals) / size = n by omega, Nat.mul_comm, Nat.succ_mul] at hdiv

/-- A bucket is cut in two. -/
theorem bucket_cut {bucket : Array SharedClause} {n : Nat} (h : ∀ c ∈ bucket.toList, c.size = size)
    (hn : n ≤ bucket.size) :
    (∀ c ∈ (bucket.take n).toList, c.size = size) ∧ literalCount (bucket.take n).toList = n * size ∧
      ∀ c ∈ (bucket.drop n).toList, c.size = size ∧ n < bucket.size := by
  rw [← toList_take_drop bucket n] at h
  have htake : ∀ c ∈ (bucket.take n).toList, c.size = size := fun c hc => h c (List.mem_append_left _ hc)
  refine ⟨htake, ?_, fun c hc => ⟨h c (List.mem_append_right _ hc), ?_⟩⟩
  · rw [literalCount_of_size htake]
    simp [Nat.min_eq_left hn]
  · rw [toList_drop] at hc
    have hpos := List.length_pos_of_mem hc
    rw [List.length_drop, Array.length_toList] at hpos
    omega

/-- Longer clauses are selected greedily.  The induction is along the buckets. -/
theorem greedy_select (h : SortedFrom size buckets) (hsize : 2 ≤ size) :
    Greedy limit literals (select limit buckets size literals).1 (flat (select limit buckets size literals).2) := by
  induction buckets generalizing size literals with
  | nil => exact ⟨.nil, Nat.le_max_right .., fun c hc => absurd hc List.not_mem_nil⟩
  | cons bucket rest ih =>
    by_cases hroom : limit < literals + size
    · rw [select_of_lt hsize hroom]
      refine ⟨.nil, Nat.le_max_right .., fun c hc => ⟨fun d hd => absurd hd List.not_mem_nil, ?_⟩⟩
      exact Nat.lt_of_lt_of_le hroom (Nat.add_le_add_left (h.le_size hc) literals)
    · have hdiv : 0 < (limit - literals) / size := Nat.div_pos (by omega) (by omega)
      rw [select, if_neg (by omega)]
      dsimp only
      rw [if_neg (Nat.ne_of_gt hdiv)]
      generalize hn : min ((limit - literals) / size) bucket.size = n
      obtain ⟨hfits, hmore⟩ := room_spec (by omega) hn
      obtain ⟨htake, hcount, hdrop⟩ := bucket_cut h.1 (show n ≤ bucket.size from hn ▸ Nat.min_le_right ..)
      have hgreedy := @ih (size + 1) (literals + literalCount (bucket.take n).toList) h.2 (by omega)
      obtain ⟨hsorted, hrest⟩ := hgreedy.prepend htake
        (fun c hc => Nat.le_of_succ_le (h.2.le_size (mem_flat_of_mem_select h.2 hc)))
        (fun c hc => Nat.le_of_succ_le ((sortedFrom_select h.2).le_size hc))
      have hwithin := hgreedy.within
      rw [hcount] at hsorted hrest hwithin
      refine ⟨hsorted, by rw [literalCount_append, hcount]; omega, fun c hc => ?_⟩
      rw [flat_cons, List.mem_append] at hc
      rcases hc with hc | hc
      · -- a clause of this bucket stays, so there is no room for a longer one
        obtain ⟨hsame, hlt⟩ := hdrop c hc
        have hfull := hmore hlt
        rw [select_of_lt (by omega) (by omega), List.append_nil, hcount, hsame]
        exact ⟨fun d hd => Nat.le_of_eq (htake d hd), by omega⟩
      · exact hrest c hc

/-! ## A selection as a whole -/

/-- What a selection of at most `limit` literals takes of the clauses that are held, and what it keeps. -/
structure Selected (limit : Nat) (held taken kept : List SharedClause) : Prop where
  /-- Nothing is lost. -/
  perm : (taken ++ kept).Perm held
  /-- Of clauses of one size, those that came first are taken first. -/
  queued : ∀ k, taken.filter (·.hasSize k) ++ kept.filter (·.hasSize k) = held.filter (·.hasSize k)
  /-- All units are taken. -/
  units : taken.filter (·.hasSize 1) = held.filter (·.hasSize 1)
  /-- The shorter clauses come first. -/
  sorted : taken.Pairwise fun c d => c.size ≤ d.size
  /-- The limit is kept, unless there are more units. -/
  within : literalCount taken ≤ max limit (held.countP (·.hasSize 1))
  /-- A clause that stays is not shorter than one that is taken, and there is no room for it.  So it is for the
  shortest of them. -/
  full : ∀ c ∈ kept, (∀ d ∈ taken, d.size ≤ c.size) ∧ limit < literalCount taken + c.size

/-- Units are taken first, whatever the limit is, and then longer clauses greedily. -/
theorem select_units (h : SortedFrom 1 buckets) (limit : Nat) :
    ∃ taken, (select limit buckets 1 0).1 = (flat buckets).filter (·.hasSize 1) ++ taken ∧ (∀ c ∈ taken, 2 ≤ c.size) ∧
      Greedy limit ((flat buckets).countP (·.hasSize 1)) taken (flat (select limit buckets 1 0).2) := by
  cases buckets with
  | nil => exact ⟨[], rfl, fun c hc => absurd hc List.not_mem_nil, .nil, Nat.le_max_right .., fun c hc =>
      absurd hc List.not_mem_nil⟩
  | cons bucket rest =>
    have hunits : (flat (bucket :: rest)).filter (·.hasSize 1) = bucket.toList :=
      (h.of_getElem? (i := 0) rfl).2
    rw [List.countP_eq_length_filter, hunits, Array.length_toList, select, if_pos rfl, Nat.zero_add]
    exact ⟨_, rfl, fun c hc => h.2.le_size (mem_flat_of_mem_select h.2 hc), greedy_select h.2 (Nat.le_refl 2)⟩

theorem selected_give (h : p.Sorted) (limit : Nat) :
    Selected limit p.toList (p.give limit).1 (p.give limit).2.toList := by
  obtain ⟨taken, htaken, hlong, hgreedy⟩ := select_units h limit
  have hfirst : (p.give limit).1 = p.toList.filter (·.hasSize 1) ++ taken := htaken
  have hkept : flat (select limit p.buckets.toList 1 0).2 = (p.give limit).2.toList := rfl
  have hunit : ∀ c ∈ p.toList.filter (·.hasSize 1), c.size = 1 := fun c hc =>
    SharedClause.size_of_hasSize (List.mem_filter.1 hc).2
  have hcount : literalCount (p.toList.filter (·.hasSize 1)) = p.toList.countP (·.hasSize 1) := by
    rw [literalCount_of_size hunit, Nat.mul_one, List.countP_eq_length_filter]
  have hqueued : ∀ k, (p.give limit).1.filter (·.hasSize k) ++ (p.give limit).2.toList.filter (·.hasSize k) =
      p.toList.filter (·.hasSize k) := fun k => filter_give (fun _ => SharedClause.size_of_hasSize) h limit
  have hnone : taken.filter (·.hasSize 1) = [] := List.filter_eq_nil_iff.2 fun c hc hone => by
    have htwo := hlong c hc
    rw [SharedClause.size_of_hasSize hone] at htwo
    omega
  rw [hkept, ← toList_eq, ← hcount, ← Nat.zero_add (literalCount _)] at hgreedy
  obtain ⟨hsorted, hfull⟩ := hgreedy.prepend hunit (fun c hc => Nat.le_of_succ_le (hlong c hc))
    fun c hc => (sorted_give h limit).le_size hc
  have hwithin := hgreedy.within
  simp only [Nat.zero_add, ← hfirst] at hsorted hfull hwithin
  exact {
    perm := perm_of_hasSize fun k => by rw [List.filter_append, hqueued]
    queued := hqueued
    units := by
      rw [hfirst, List.filter_append, List.filter_filter, hnone, List.append_nil]
      simp only [Bool.and_self]
    sorted := hsorted
    within := by rwa [hfirst, literalCount_append, ← hcount]
    full := hfull }

/-! ## Refusals -/

/-- A clause is refused if it is empty, or too long, or would fill its bucket. -/
theorem add_eq_false_iff (h : p.Sorted) (c : SharedClause) :
    (p.add c).1 = false ↔ c.size = 0 ∨ p.buckets.size < c.size ∨
      p.bucketLiterals ≤ literalCount (p.toList.filter (·.hasSize c.size)) + c.size := by
  have hadd : (p.add c).1 = p.accepts c := by
    unfold add
    split <;> simp_all
  rw [hadd, accepts]
  cases hsize : c.size with
  | zero => simp
  | succ n =>
    dsimp only
    cases hb : p.buckets[n]? with
    | none =>
      have hlong := Array.getElem?_eq_none_iff.1 hb
      simp only [true_iff]
      exact .inr (.inl (Nat.lt_succ_of_le hlong))
    | some bucket =>
      have hget : p.buckets.toList[n]? = some bucket := by simpa using hb
      obtain ⟨hall, hfilter⟩ := SortedFrom.of_getElem? h hget
      have hlt := (Array.getElem?_eq_some_iff.1 hb).1
      have hcount : literalCount (p.toList.filter (·.hasSize (n + 1))) = bucket.size * (n + 1) := by
        rw [Nat.add_comm n 1, toList_eq, hfilter, ← Array.length_toList]
        exact literalCount_of_size fun c hc => hall c (Array.mem_toList_iff.1 hc)
      rw [hcount, decide_eq_false_iff_not, Nat.not_lt, Nat.succ_mul]
      omega

theorem add_unchanged (h : (p.add c).1 = false) : (p.add c).2 = p := by
  unfold add at h ⊢
  split at h
  · cases h
  · next hc => rw [if_neg hc]

/-! ## Any calls -/

/-- What is done with a pool. -/
inductive Call where
  /-- A clause is added. -/
  | add (c : SharedClause)
  /-- A selection is taken out. -/
  | give (limit : Nat)
  /-- Every clause is removed. -/
  | clear

/-- What went into a pool and came out of it, in order. -/
structure Traffic where
  /-- The clauses that were accepted. -/
  accepted : List SharedClause := []
  /-- The clauses that were selected. -/
  given : List SharedClause := []

/-- What a call does to a pool. -/
def Call.act (p : Pool) : Call → Pool
  | add c => (p.add c).2
  | give limit => (p.give limit).2
  | clear => p.clear

/-- What went in and came out after a call.  Nothing did after everything was removed. -/
def Call.note (p : Pool) (t : Traffic) : Call → Traffic
  | add c => if (p.add c).1 then { t with accepted := t.accepted ++ [c] } else t
  | give limit => { t with given := t.given ++ (p.give limit).1 }
  | clear => {}

/-- A pool, and what went in and came out, after some calls. -/
def called (p : Pool) (t : Traffic) : List Call → Pool × Traffic
  | [] => (p, t)
  | x :: xs => (x.act p).called (x.note p t) xs

variable {t : Traffic} {maxSize bound : Nat}

/-- What every call preserves. -/
structure Kept (maxSize bound : Nat) (p : Pool) (t : Traffic) : Prop where
  /-- Every clause is in the bucket for its size. -/
  sorted : p.Sorted
  /-- There is a bucket for each size. -/
  buckets : p.buckets.size = maxSize
  /-- The bound of a bucket. -/
  bucketLiterals : p.bucketLiterals = bound
  /-- The bound is not reached, unless it is zero. -/
  below : ∀ k, p.toList.filter (·.hasSize k) ≠ [] → literalCount (p.toList.filter (·.hasSize k)) < bound
  /-- What came out of what went in is its first part, size by size. -/
  queued : ∀ k, t.accepted.filter (·.hasSize k) = t.given.filter (·.hasSize k) ++ p.toList.filter (·.hasSize k)

theorem kept_ofBounds (maxSize bound : Nat) : Kept maxSize bound (ofBounds maxSize bound) {} where
  sorted := sorted_ofBounds maxSize bound
  buckets := Array.size_replicate
  bucketLiterals := rfl
  below k hne := by
    rw [toList_ofBounds] at hne
    exact absurd rfl hne
  queued k := by
    rw [toList_ofBounds]
    rfl

namespace Kept

theorem add (h : Kept maxSize bound p t) (c : SharedClause) :
    Kept maxSize bound (p.add c).2 (Call.note p t (.add c)) := by
  cases hadd : (p.add c).1 with
  | false =>
    have hnote : Call.note p t (.add c) = t := by simp only [Call.note, hadd, Bool.false_eq_true, if_false]
    rw [add_unchanged hadd, hnote]
    exact h
  | true =>
    have hc : p.accepts c = true := by
      unfold Pool.add at hadd
      split at hadd
      · assumption
      · cases hadd
    have hnote : Call.note p t (.add c) = { t with accepted := t.accepted ++ [c] } := by
      simp only [Call.note, hadd, if_true]
    have hfilter : ∀ k, (p.add c).2.toList.filter (·.hasSize k) =
        p.toList.filter (·.hasSize k) ++ [c].filter (·.hasSize k) := fun k =>
      filter_add (fun _ => SharedClause.size_of_hasSize) h.sorted hc
    have hbuckets : (p.add c).2.buckets.size = p.buckets.size ∧ (p.add c).2.bucketLiterals = p.bucketLiterals := by
      rw [Pool.add, if_pos hc]
      exact ⟨Array.size_modify, rfl⟩
    rw [hnote]
    refine ⟨sorted_add h.sorted c, hbuckets.1.trans h.buckets, hbuckets.2.trans h.bucketLiterals, fun k hne => ?_,
      fun k => ?_⟩
    · rw [hfilter] at hne ⊢
      by_cases hk : c.hasSize k = true
      · obtain rfl := SharedClause.size_of_hasSize hk
        have hroom := (add_eq_false_iff h.sorted c).not.1 (by simp [hadd])
        have hone : literalCount [c] = c.size := Nat.add_zero c.size
        rw [h.bucketLiterals, not_or, not_or, Nat.not_le] at hroom
        rw [List.filter_cons_of_pos hk, List.filter_nil, literalCount_append, hone]
        exact hroom.2.2
      · rw [List.filter_cons_of_neg hk, List.filter_nil, List.append_nil] at hne ⊢
        exact h.below k hne
    · rw [hfilter, List.filter_append, h.queued, List.append_assoc]

theorem give (h : Kept maxSize bound p t) (limit : Nat) :
    Kept maxSize bound (p.give limit).2 (Call.note p t (.give limit)) := by
  have hqueued := (selected_give h.sorted limit).queued
  refine ⟨sorted_give h.sorted limit, ?_, h.bucketLiterals, fun k hne => ?_, fun k => ?_⟩
  · refine Eq.trans ?_ h.buckets
    show (select limit p.buckets.toList 1 0).2.toArray.size = p.buckets.size
    rw [List.size_toArray, length_select, Array.length_toList]
  · have hsplit := hqueued k
    have hcount := congrArg literalCount hsplit
    have hbelow := h.below k fun hnil => by
      rw [hnil] at hsplit
      exact hne (List.append_eq_nil_iff.1 hsplit).2
    rw [literalCount_append] at hcount
    omega
  · show t.accepted.filter _ = (t.given ++ (p.give limit).1).filter _ ++ _
    rw [List.filter_append, List.append_assoc, hqueued, h.queued]

theorem clear (h : Kept maxSize bound p t) : Kept maxSize bound p.clear {} := by
  have hempty : p.clear = ofBounds maxSize bound := by
    rw [Pool.clear, ofBounds, h.bucketLiterals, ← h.buckets]
    congr 1
    exact Array.ext (by simp) fun i _ _ => by simp
  rw [hempty]
  exact kept_ofBounds maxSize bound

theorem act (h : Kept maxSize bound p t) (x : Call) : Kept maxSize bound (x.act p) (x.note p t) := by
  cases x with
  | add c => exact h.add c
  | give limit => exact h.give limit
  | clear => exact h.clear

theorem called (h : Kept maxSize bound p t) (xs : List Call) :
    Kept maxSize bound (p.called t xs).1 (p.called t xs).2 := by
  induction xs generalizing p t with
  | nil => exact h
  | cons x xs ih => exact ih (h.act x)

end Kept

/-- What can be said of a pool for clauses of at most `maxSize` literals, with fewer than `bound` literals in each
bucket. -/
structure Stocked (maxSize bound : Nat) (p : Pool) (t : Traffic) : Prop where
  /-- There is a bucket for each size from one on. -/
  buckets : p.buckets.size = maxSize
  /-- A bucket has clauses of its size, and fewer literals than the bound. -/
  below : ∀ i bucket, p.buckets[i]? = some bucket → (∀ c ∈ bucket, c.size = i + 1) ∧
    (bucket ≠ #[] → literalCount bucket.toList < bound)
  /-- A clause is refused if it is empty, too long, or would make its bucket reach the bound. -/
  refused : ∀ c, (p.add c).1 = false ↔ c.size = 0 ∨ maxSize < c.size ∨
    bound ≤ literalCount (p.toList.filter (·.hasSize c.size)) + c.size
  /-- Nothing changes if a clause is refused. -/
  unchanged : ∀ c, (p.add c).1 = false → (p.add c).2 = p
  /-- What was accepted was given out or is there. -/
  perm : (t.given ++ p.toList).Perm t.accepted
  /-- Of clauses of one size, those that were accepted first were given out first, and the others are there in the
  order in which they were accepted. -/
  queued : ∀ k, t.given.filter (·.hasSize k) ++ p.toList.filter (·.hasSize k) = t.accepted.filter (·.hasSize k)
  /-- What is selected is selected greedily. -/
  selected : ∀ limit, Selected limit p.toList (p.give limit).1 (p.give limit).2.toList

/-- After any calls, selections take the shorter clauses first, take what there is room for, and lose nothing. -/
theorem called_stocked (maxSize bound : Nat) (xs : List Call) :
    Stocked maxSize bound (called (ofBounds maxSize bound) {} xs).1 (called (ofBounds maxSize bound) {} xs).2 := by
  have h := (kept_ofBounds maxSize bound).called xs
  generalize called (ofBounds maxSize bound) {} xs = x at h ⊢
  refine {
    buckets := h.buckets
    below := fun i bucket hb => ?_
    refused := fun c => ?_
    unchanged := fun c => add_unchanged
    perm := perm_of_hasSize fun k => by rw [List.filter_append, h.queued]
    queued := fun k => (h.queued k).symm
    selected := selected_give h.sorted }
  · have hget : x.1.buckets.toList[i]? = some bucket := by simpa using hb
    obtain ⟨hall, hfilter⟩ := SortedFrom.of_getElem? h.sorted hget
    rw [Nat.add_comm] at hall hfilter
    refine ⟨hall, fun hne => ?_⟩
    rw [← hfilter]
    refine h.below (i + 1) fun hnil => hne ?_
    rw [← toList_eq, hnil] at hfilter
    exact Array.toList_eq_nil_iff.1 hfilter.symm
  · rw [add_eq_false_iff h.sorted, h.buckets, h.bucketLiterals]

end Pool

end ClauseLearning
