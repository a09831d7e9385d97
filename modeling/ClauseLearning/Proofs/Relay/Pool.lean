import ClauseLearning.Proofs.Relay.Fates

/-!
# The pool, size by size

The buckets of a pool are queues: of the clauses of one size, those that came first are in front, and a selection
takes them out first.  Nothing is lost on the way from the pool into a selection.

* `Pool.Sorted` — every clause is in the bucket for its size.
* `Pool.filter_add` — a clause that is added comes last of its size.
* `Pool.filter_give` — what a selection takes comes before what stays, size by size.
* `Pool.size_eq` — the count of clauses.
-/

namespace ClauseLearning

namespace Pool

/-- The clauses in buckets for `size` literals and more. -/
def flat (buckets : List (Array SharedClause)) : List SharedClause := buckets.flatMap Array.toList

/-- Every clause is in the bucket for its size, where the first bucket is for `size` literals. -/
def SortedFrom : Nat → List (Array SharedClause) → Prop
  | _, [] => True
  | size, bucket :: rest => (∀ c ∈ bucket.toList, c.size = size) ∧ SortedFrom (size + 1) rest

/-- Every clause is in the bucket for its size. -/
def Sorted (p : Pool) : Prop := SortedFrom 1 p.buckets.toList

variable {p : Pool} {c : SharedClause} {size k limit literals : Nat} {buckets : List (Array SharedClause)}
  {q : SharedClause → Bool}

@[simp] theorem flat_cons (b : Array SharedClause) (bs : List (Array SharedClause)) :
    flat (b :: bs) = b.toList ++ flat bs := List.flatMap_cons

theorem toList_eq (p : Pool) : p.toList = flat p.buckets.toList := rfl

theorem sorted_ofBounds (maxSize bucketLiterals : Nat) : (ofBounds maxSize bucketLiterals).Sorted := by
  have h : ∀ n size, SortedFrom size (List.replicate n #[]) := by
    intro n
    induction n with
    | zero => exact fun _ => trivial
    | succ n ih => exact fun size => ⟨fun c hc => by simp at hc, ih (size + 1)⟩
  show SortedFrom 1 (Array.replicate maxSize #[]).toList
  rw [Array.toList_replicate]
  exact h maxSize 1

theorem toList_ofBounds (maxSize bucketLiterals : Nat) : (ofBounds maxSize bucketLiterals).toList = [] := by
  simp [toList, ofBounds, List.flatMap_eq_nil_iff]

/-- No clause is smaller than those of the first bucket. -/
theorem SortedFrom.le_size (h : SortedFrom size buckets) (hc : c ∈ flat buckets) : size ≤ c.size := by
  induction buckets generalizing size with
  | nil => exact absurd hc List.not_mem_nil
  | cons bucket rest ih =>
    rw [flat_cons, List.mem_append] at hc
    rcases hc with hc | hc
    · exact Nat.le_of_eq (h.1 c hc).symm
    · exact Nat.le_of_succ_le (ih h.2 hc)

/-! What follows is about the clauses that pass a test.  Only clauses of one size do. -/

section Test

variable (hq : ∀ c, q c = true → c.size = k)
include hq

/-- Clauses of one size are in one bucket. -/
theorem filter_flat_of_lt (h : SortedFrom size buckets) (hk : k < size) : (flat buckets).filter q = [] := by
  rw [List.filter_eq_nil_iff]
  intro c hc hqc
  have hle := h.le_size hc
  rw [hq c hqc] at hle
  omega

theorem filter_bucket_of_ne {bucket : List SharedClause} (h : ∀ c ∈ bucket, c.size = size) (hk : k ≠ size) :
    bucket.filter q = [] := by
  rw [List.filter_eq_nil_iff]
  exact fun c hc hqc => hk ((hq c hqc).symm.trans (h c hc))

/-! ## Adding -/

omit hq in
theorem sortedFrom_modify {i : Nat} (h : SortedFrom size buckets) (hc : c.size = size + i) :
    SortedFrom size (buckets.modify i fun bucket => bucket.push c) := by
  induction buckets generalizing size i with
  | nil => simpa using h
  | cons bucket rest ih =>
    cases i with
    | zero =>
      rw [List.modify_zero_cons]
      refine ⟨fun x hx => ?_, h.2⟩
      rw [Array.toList_push, List.mem_append, List.mem_singleton] at hx
      rcases hx with hx | rfl
      · exact h.1 x hx
      · exact hc
    | succ i =>
      rw [List.modify_succ_cons]
      exact ⟨h.1, ih h.2 (by omega)⟩

theorem filter_flat_modify {i : Nat} (h : SortedFrom size buckets) (hi : i < buckets.length)
    (hc : c.size = size + i) :
    (flat (buckets.modify i fun bucket => bucket.push c)).filter q =
      (flat buckets).filter q ++ [c].filter q := by
  induction buckets generalizing size i with
  | nil => simp at hi
  | cons bucket rest ih =>
    cases i with
    | zero =>
      rw [List.modify_zero_cons, flat_cons, flat_cons, Array.toList_push, List.filter_append, List.filter_append,
        List.filter_append]
      by_cases hqc : q c = true
      · have hk := hq c hqc
        rw [filter_flat_of_lt hq h.2 (by omega), List.append_nil, List.append_nil]
      · rw [List.filter_cons_of_neg hqc, List.filter_nil, List.append_nil, List.append_nil]
    | succ i =>
      rw [List.modify_succ_cons, flat_cons, flat_cons, List.filter_append, List.filter_append,
        ih h.2 (by simpa using hi) (by omega), List.append_assoc]

omit hq in
/-- A clause is added if there is a bucket for it. -/
theorem accepts_spec (h : p.accepts c = true) : c.size - 1 < p.buckets.size ∧ c.size = 1 + (c.size - 1) := by
  unfold accepts at h
  split at h
  · cases h
  · next n hn =>
    split at h
    · next bucket hb =>
      have := (Array.getElem?_eq_some_iff.1 hb).1
      omega
    · cases h

/-- A clause that is added comes last of its size. -/
theorem filter_add (h : p.Sorted) (hc : p.accepts c = true) :
    (p.add c).2.toList.filter q = p.toList.filter q ++ [c].filter q := by
  obtain ⟨hi, hsize⟩ := accepts_spec hc
  have hlist : (p.buckets.modify (c.size - 1) fun bucket => bucket.push c).toList =
      p.buckets.toList.modify (c.size - 1) fun bucket => bucket.push c := Array.toList_modify ..
  rw [add, if_pos hc, toList_eq, toList_eq, hlist]
  exact filter_flat_modify hq h (by simpa using hi) hsize

/-! ## Selecting -/

/-- Where part of a bucket is taken, and part of the buckets after it, nothing is lost and the order stays. -/
theorem filter_split {taken kept bucket taken' kept' rest : List SharedClause} (hb : taken ++ kept = bucket)
    (hsize : ∀ c ∈ bucket, c.size = size) (hrest : k ≤ size → rest.filter q = [])
    (h : taken'.filter q ++ kept'.filter q = rest.filter q) :
    (taken ++ taken').filter q ++ (kept ++ kept').filter q = (bucket ++ rest).filter q := by
  subst hb
  simp only [List.filter_append]
  by_cases hk : k = size
  · have hnil := hrest (Nat.le_of_eq hk)
    rw [hnil] at h ⊢
    obtain ⟨htaken, hkept⟩ := List.append_eq_nil_iff.1 h
    rw [htaken, hkept, List.append_nil, List.append_nil, List.append_nil]
  · rw [filter_bucket_of_ne hq (fun c hc => hsize c (List.mem_append_right _ hc)) hk, List.nil_append, List.append_nil,
      List.append_assoc, h]

omit hq in
theorem toList_drop (bucket : Array SharedClause) (n : Nat) : (bucket.drop n).toList = bucket.toList.drop n := by
  simp [Array.drop_eq_extract, List.take_of_length_le]

omit hq in
theorem toList_take_drop (bucket : Array SharedClause) (n : Nat) :
    (bucket.take n).toList ++ (bucket.drop n).toList = bucket.toList := by
  rw [toList_drop]
  simp [Array.take_eq_extract, Array.toList_extract]

/-- What is taken comes before what stays, size by size. -/
theorem filter_select (h : SortedFrom size buckets) :
    (select limit buckets size literals).1.filter q ++ (flat (select limit buckets size literals).2).filter q =
      (flat buckets).filter q := by
  induction buckets generalizing size literals with
  | nil => rfl
  | cons bucket rest ih =>
    have hrest : k ≤ size → (flat rest).filter q = [] := fun hk => filter_flat_of_lt hq h.2 (by omega)
    rw [select]
    split
    · next hone =>
      subst hone
      rw [flat_cons, flat_cons]
      exact filter_split hq (List.append_nil _) h.1 hrest (ih h.2)
    · dsimp only
      split
      · rfl
      · rw [flat_cons, flat_cons]
        exact filter_split hq (toList_take_drop bucket _) h.1 hrest (ih h.2)

/-- What a selection takes comes before what stays, size by size. -/
theorem filter_give (h : p.Sorted) (limit : Nat) :
    (p.give limit).1.filter q ++ (p.give limit).2.toList.filter q = p.toList.filter q :=
  filter_select hq h

end Test

/-! ## The order of the buckets -/

theorem sorted_add (h : p.Sorted) (c : SharedClause) : (p.add c).2.Sorted := by
  unfold add
  split
  · next hc =>
    show SortedFrom 1 (p.buckets.modify _ _).toList
    rw [Array.toList_modify]
    exact sortedFrom_modify h (accepts_spec hc).2
  · exact h

theorem sortedFrom_select (h : SortedFrom size buckets) : SortedFrom size (select limit buckets size literals).2 := by
  induction buckets generalizing size literals with
  | nil => trivial
  | cons bucket rest ih =>
    rw [select]
    split
    · next hone =>
      subst hone
      exact ⟨fun c hc => by simp at hc, ih h.2⟩
    · dsimp only
      split
      · exact h
      · refine ⟨fun c hc => h.1 c ?_, ih h.2⟩
        rw [← toList_take_drop bucket]
        exact List.mem_append_right _ hc

theorem sorted_give (h : p.Sorted) (limit : Nat) : (p.give limit).2.Sorted := sortedFrom_select h

/-! ## The count of clauses -/

/-- The count of clauses is the length of the list of them. -/
theorem size_eq (p : Pool) : p.size = p.toList.length := by
  have h : ∀ (bs : List (Array SharedClause)) n,
      bs.foldl (fun n bucket => n + bucket.size) n = n + (flat bs).length := by
    intro bs
    induction bs with
    | nil => exact fun _ => rfl
    | cons b bs ih =>
      intro n
      rw [List.foldl_cons, ih, flat_cons, List.length_append, ← Array.length_toList, Nat.add_assoc]
  rw [size, ← Array.foldl_toList, h, toList_eq, Nat.zero_add]

end Pool

end ClauseLearning
