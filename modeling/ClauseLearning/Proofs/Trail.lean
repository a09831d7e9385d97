import ClauseLearning.Assignment
import ClauseLearning.Trail
import Mathlib.Data.List.Nodup
import Mathlib.Data.List.TakeDrop

/-!
# The trail and the assignment

The trail says in which order literals became true, and the assignment says which are true now and at
which level.  `Trail.Matches` states that the two tell the same story: a literal is true exactly if it is
on the trail, and its level is the one whose part of the trail it stands in.

* `Assignment.Sized` — room for so many variables, and opposite values for opposite literals.
* `Trail.upTo` — the literals on the first so many positions.
* `Trail.Matches` — the agreement, kept by `Matches.push`, `Matches.pushDecision`, `Matches.truncate`.
-/

namespace ClauseLearning

/-! ## Literals -/

namespace Literal

theorem negate_ne (l : Literal) : -l ≠ l := by
  intro h
  have := positive_negate l
  rw [h] at this
  cases l.positive <;> simp at this

theorem var_eq_iff {l m : Literal} : l.var = m.var ↔ l = m ∨ l = -m := by
  constructor
  · intro h
    by_cases hp : l.positive = m.positive
    · left
      rw [← make_var_positive l, ← make_var_positive m, h, hp]
    · right
      rw [← make_var_positive l, ← make_var_positive (-m), var_negate, positive_negate, h]
      congr 1
      cases hl : l.positive <;> cases hm : m.positive <;> simp_all
  · rintro (rfl | rfl)
    · rfl
    · exact var_negate m

theorem negate_inj {l m : Literal} : -l = -m ↔ l = m := by
  constructor
  · intro h
    rw [← negate_negate l, h, negate_negate]
  · rintro rfl
    rfl

theorem code_lt_iff {l : Literal} {n : Nat} : l.code < 2 * n ↔ l.var < n := by
  simp only [var]
  omega

theorem code_inj {l m : Literal} : l.code = m.code ↔ l = m := ⟨fun h => Literal.ext h, fun h => h ▸ rfl⟩

end Literal

namespace Value

@[simp] theorem neg_tt : -tt = ff := rfl
@[simp] theorem neg_ff : -ff = tt := rfl
@[simp] theorem neg_unassigned : -unassigned = unassigned := rfl

theorem neg_eq_tt {v : Value} : -v = tt ↔ v = ff := by cases v <;> simp [Neg.neg, negate]

end Value

/-! ## The assignment -/

namespace Assignment

/-- An assignment with room for `n` variables, in which opposite literals have opposite values. -/
structure Sized (n : Nat) (a : Assignment) : Prop where
  /-- There is a value for each literal. -/
  values : a.values.size = 2 * n
  /-- There is a record for each variable. -/
  records : a.records.size = n
  /-- Opposite literals have opposite values. -/
  opposite : ∀ l, a.value (-l) = -a.value l

variable {n : Nat} {a : Assignment}

theorem value_write (h : Sized n a) {l : Literal} (hl : l.var < n) (v : Value) (m : Literal) :
    (a.write l v).value m = if m = l then v else if m = -l then -v else a.value m := by
  have hc : l.code < a.values.size := by rw [h.values]; exact Literal.code_lt_iff.2 hl
  have hc' : (-l).code < a.values.size := by
    rw [h.values]; exact Literal.code_lt_iff.2 (by rwa [Literal.var_negate])
  have hne : l.code ≠ (-l).code := fun he => Literal.negate_ne l (Literal.code_inj.1 he.symm)
  simp only [write, value, Array.getD_eq_getD_getElem?, Array.getElem?_setIfInBounds,
    Array.size_setIfInBounds, hc, hc', if_true, ← Literal.code_inj (l := m)]
  by_cases h1 : m.code = l.code
  · simp [h1, Ne.symm hne]
  · by_cases h2 : m.code = (-l).code
    · simp [h2, Ne.symm hne]
    · simp [h1, h2, Ne.symm h1, Ne.symm h2]

theorem Sized.write (h : Sized n a) {l : Literal} (hl : l.var < n) (v : Value) :
    Sized n (a.write l v) := by
  refine ⟨by simp [Assignment.write, h.values], h.records, fun m => ?_⟩
  rw [value_write h hl, value_write h hl, h.opposite]
  by_cases h1 : m = l
  · subst h1
    simp [Literal.negate_ne]
  · by_cases h2 : m = -l
    · subst h2
      simp [Literal.negate_ne]
    · have h3 : -m ≠ l := fun he => h2 (by rw [← he, Literal.negate_negate])
      have h4 : -m ≠ -l := fun he => h1 (Literal.negate_inj.1 he)
      simp [h1, h2, h3, h4]

theorem value_set (h : Sized n a) {l : Literal} (hl : l.var < n) (level : Nat) (reason : Reason)
    (m : Literal) :
    (a.set l level reason).value m =
      if m = l then .tt else if m = -l then .ff else a.value m := by
  have := value_write h hl .tt m
  rw [Value.neg_tt] at this
  simpa only [value, Assignment.set] using this

theorem record_set (h : Sized n a) {l : Literal} (hl : l.var < n) (level : Nat) (reason : Reason)
    (x : Nat) :
    (a.set l level reason).record x = if x = l.var then { level, reason } else a.record x := by
  simp only [record, Assignment.set, Array.getD_eq_getD_getElem?, Array.getElem?_setIfInBounds]
  by_cases hx : x = l.var
  · subst hx
    simp [Assignment.write, h.records, hl]
  · simp [Assignment.write, hx, Ne.symm hx]

theorem Sized.set (h : Sized n a) {l : Literal} (hl : l.var < n) (level : Nat) (reason : Reason) :
    Sized n (a.set l level reason) := by
  have := h.write hl .tt
  exact ⟨this.values, by simp [Assignment.set, this.records], this.opposite⟩

theorem Sized.unset (h : Sized n a) {l : Literal} (hl : l.var < n) : Sized n (a.unset l) :=
  h.write hl .unassigned

@[simp] theorem record_unset (a : Assignment) (l : Literal) (x : Nat) :
    (a.unset l).record x = a.record x := rfl

theorem value_unset (h : Sized n a) {l : Literal} (hl : l.var < n) (m : Literal) :
    (a.unset l).value m = if m.var = l.var then .unassigned else a.value m := by
  rw [unset, value_write h hl]
  by_cases h1 : m = l
  · simp [h1]
  · by_cases h2 : m = -l
    · simp [h2]
    · have h3 : m.var ≠ l.var := fun hv => (Literal.var_eq_iff.1 hv).elim h1 h2
      simp [h1, h2, h3]

theorem record_modify (h : Sized n a) {x : Nat} (hx : x < n) (f : Assigned → Assigned) (y : Nat) :
    (a.modify x f).record y = if y = x then f (a.record x) else a.record y := by
  simp only [record, Assignment.modify, Array.getD_eq_getD_getElem?, Array.getElem?_modify]
  by_cases hy : y = x
  · subst hy
    simp [h.records, hx]
  · simp [hy, Ne.symm hy]

theorem Sized.modify (h : Sized n a) (x : Nat) (f : Assigned → Assigned) : Sized n (a.modify x f) :=
  ⟨h.values, by simp [Assignment.modify, h.records], h.opposite⟩

theorem Sized.tt_iff (h : Sized n a) {l : Literal} : a.value (-l) = .tt ↔ a.value l = .ff := by
  rw [h.opposite, Value.neg_eq_tt]

@[simp] theorem level_negate (a : Assignment) (l : Literal) : a.level (-l) = a.level l := by
  simp [level]

/-- Taking several literals back leaves records as they are and makes their variables unassigned. -/
theorem foldl_unset (ls : List Literal) (hls : ∀ l ∈ ls, l.var < n) (h : Sized n a) :
    Sized n (ls.foldl Assignment.unset a) ∧
      (∀ x, (ls.foldl Assignment.unset a).record x = a.record x) ∧
      ∀ m, (ls.foldl Assignment.unset a).value m =
        if m.var ∈ ls.map Literal.var then .unassigned else a.value m := by
  induction ls generalizing a with
  | nil => exact ⟨h, fun _ => rfl, fun m => by simp⟩
  | cons l ls ih =>
    have hl := hls l (List.mem_cons_self ..)
    obtain ⟨hs, hr, hv⟩ := ih (fun m hm => hls m (List.mem_cons_of_mem _ hm)) (h.unset hl)
    refine ⟨hs, fun x => by rw [List.foldl_cons, hr, record_unset], fun m => ?_⟩
    rw [List.foldl_cons, hv, value_unset h hl]
    by_cases h1 : m.var ∈ ls.map Literal.var
    · simp [h1]
    · simp [h1]

end Assignment

/-! ## The trail -/

namespace Trail

/-- The literal at a position. -/
def at' (t : Trail) (i : Nat) : Literal := t.literals.getD i .invalid

/-- The literals on the first `p` positions. -/
def upTo (t : Trail) (p : Nat) : List Literal := t.literals.toList.take p

theorem mem_upTo {t : Trail} {p : Nat} {l : Literal} :
    l ∈ t.upTo p ↔ ∃ i < p, i < t.size ∧ t.at' i = l := by
  simp only [upTo, List.mem_take_iff_getElem, size, at']
  constructor
  · rintro ⟨i, hi, rfl⟩
    simp only [Array.length_toList] at hi
    exact ⟨i, by omega, by omega, by simp [show i < t.literals.size by omega]⟩
  · rintro ⟨i, hi, hs, rfl⟩
    exact ⟨i, by simp; omega, by simp [hs]⟩

theorem upTo_mono {t : Trail} {p q : Nat} (h : p ≤ q) {l : Literal} (hl : l ∈ t.upTo p) :
    l ∈ t.upTo q := by
  obtain ⟨i, hi, hs⟩ := mem_upTo.1 hl
  exact mem_upTo.2 ⟨i, by omega, hs⟩

theorem mem_of_mem_upTo {t : Trail} {p : Nat} {l : Literal} (hl : l ∈ t.upTo p) :
    l ∈ t.literals := Array.mem_toList_iff.1 (List.mem_of_mem_take hl)

theorem mem_upTo_size {t : Trail} {l : Literal} : l ∈ t.upTo t.size ↔ l ∈ t.literals := by
  rw [upTo, List.take_of_length_le (by simp [size]), Array.mem_toList_iff]

theorem at'_mem {t : Trail} {i : Nat} (h : i < t.size) : t.at' i ∈ t.literals := by
  simp only [size] at h
  simp [at', h]

theorem next?_of_lt {t : Trail} (h : t.propagated < t.size) :
    t.next? = some (t.at' t.propagated, { t with propagated := t.propagated + 1 }) := by
  simp only [size] at h
  simp [next?, at', h]

theorem next?_of_le {t : Trail} (h : t.size ≤ t.propagated) : t.next? = none := by
  simp only [size] at h
  simp [next?, h]

theorem exists_at' {t : Trail} {l : Literal} (h : l ∈ t.literals) : ∃ i < t.size, t.at' i = l := by
  obtain ⟨i, hi, -, he⟩ := mem_upTo.1 (mem_upTo_size.2 h)
  exact ⟨i, hi, he⟩

theorem size_push (t : Trail) (l : Literal) : (t.push l).size = t.size + 1 := by
  simp [size, push]

theorem at'_push (t : Trail) (l : Literal) (i : Nat) :
    (t.push l).at' i = if i = t.size then l else t.at' i := by
  simp only [at', push, size, Array.getD_eq_getD_getElem?, Array.getElem?_push]
  split <;> simp_all

theorem upTo_push {t : Trail} {p : Nat} (hp : p ≤ t.size) (l : Literal) :
    (t.push l).upTo p = t.upTo p := by
  simp only [upTo, push, Array.toList_push]
  rw [List.take_append_of_le_length (by simpa [size] using hp)]

@[simp] theorem decision_push (t : Trail) (l : Literal) (k : Nat) :
    (t.push l).decision k = t.decision k := rfl

@[simp] theorem level_push (t : Trail) (l : Literal) : (t.push l).level = t.level := rfl

theorem levelStart_push {t : Trail} {k : Nat} (hk : k ≤ t.level) (hf : 0 < t.frames.size)
    (l : Literal) : (t.push l).levelStart k = t.levelStart k := by
  have : k < t.frames.size := by simp only [level] at hk; omega
  simp [levelStart, push, this]

theorem size_pushDecision (t : Trail) (l : Literal) : (t.pushDecision l).size = t.size + 1 := by
  simp [size, pushDecision]

theorem at'_pushDecision (t : Trail) (l : Literal) (i : Nat) :
    (t.pushDecision l).at' i = if i = t.size then l else t.at' i := at'_push t l i

theorem level_pushDecision {t : Trail} (hf : 0 < t.frames.size) (l : Literal) :
    (t.pushDecision l).level = t.level + 1 := by
  simp only [level, pushDecision, Array.size_push]
  omega

theorem levelStart_pushDecision {t : Trail} {k : Nat} (hf : 0 < t.frames.size) (l : Literal)
    (hk : k ≤ t.level + 1) :
    (t.pushDecision l).levelStart k = if k = t.level + 1 then t.size else t.levelStart k := by
  have hsize : t.frames.size = t.level + 1 := by simp only [level]; omega
  simp only [levelStart, pushDecision, Array.getElem?_push, hsize]
  by_cases h : k = t.level + 1
  · simp [h]
  · simp [h, show k < t.frames.size by omega]

theorem decision_pushDecision {t : Trail} {k : Nat} (hf : 0 < t.frames.size) (l : Literal) :
    (t.pushDecision l).decision k = if k = t.level + 1 then l else t.decision k := by
  have hsize : t.frames.size = t.level + 1 := by simp only [level]; omega
  simp only [decision, pushDecision, Array.getD_eq_getD_getElem?, Array.getElem?_push, hsize]
  by_cases h : k = t.level + 1
  · simp [h]
  · simp [h]

theorem levelStart_above {t : Trail} {k : Nat} (hk : t.level < k) : t.levelStart k = t.size := by
  have : t.frames.size ≤ k := by simp only [level] at hk; omega
  simp [levelStart, this]

/-- The trail and the assignment tell the same story, over the variables which are `usable`. -/
structure Matches (usable : Nat → Prop) (t : Trail) (a : Assignment) : Prop where
  /-- There is a frame for the root. -/
  frames : 0 < t.frames.size
  /-- The root begins where the trail begins. -/
  root : t.levelStart 0 = 0
  /-- No variable is assigned twice. -/
  nodup : (t.literals.toList.map Literal.var).Nodup
  /-- Only usable variables are assigned. -/
  usable : ∀ l ∈ t.literals, usable l.var
  /-- What is on the trail is what is true. -/
  tt_iff : ∀ l, a.value l = .tt ↔ l ∈ t.literals
  /-- The level of a literal is the one it stands in. -/
  level_iff : ∀ i < t.size, ∀ k ≤ t.level + 1, t.levelStart k ≤ i ↔ k ≤ a.level (t.at' i)
  /-- A level begins with its decision. -/
  decision : ∀ k, 1 ≤ k → k ≤ t.level →
    t.levelStart k < t.size ∧ t.at' (t.levelStart k) = t.decision k ∧ a.level (t.decision k) = k
  /-- Propagation does not run ahead. -/
  propagated : t.propagated ≤ t.size
  /-- The levels below the current one are propagated. -/
  below : t.levelStart t.level ≤ t.propagated

namespace Matches

variable {n : Nat} {usable : Nat → Prop} {t : Trail} {a : Assignment}

theorem level_le (h : Matches usable t a) {i : Nat} (hi : i < t.size) :
    a.level (t.at' i) ≤ t.level := by
  by_contra hc
  have := (h.level_iff i hi (t.level + 1) (Nat.le_refl _)).2 (by omega)
  rw [levelStart_above (Nat.lt_succ_self _)] at this
  omega

theorem level_le_of_mem (h : Matches usable t a) {l : Literal} (hl : l ∈ t.literals) :
    a.level l ≤ t.level := by
  obtain ⟨i, hi, rfl⟩ := exists_at' hl
  exact h.level_le hi

/-- Levels increase along the trail. -/
theorem level_mono (h : Matches usable t a) {i j : Nat} (hij : i ≤ j) (hj : j < t.size) :
    a.level (t.at' i) ≤ a.level (t.at' j) := by
  have hi : i < t.size := by omega
  have hle := h.level_le hi
  have := (h.level_iff i hi _ (by omega)).2 (Nat.le_refl _)
  exact (h.level_iff j hj _ (by omega)).1 (by omega)

theorem levelStart_mono (h : Matches usable t a) {k m : Nat} (hkm : k ≤ m) (hm : m ≤ t.level) :
    t.levelStart k ≤ t.levelStart m := by
  rcases Nat.eq_zero_or_pos m with rfl | hpos
  · exact Nat.le_of_eq (by rw [Nat.le_zero.1 hkm])
  · have hlt := (h.decision m hpos hm).1
    have := (h.level_iff _ hlt m (by omega)).1 (Nat.le_refl _)
    exact (h.level_iff _ hlt k (by omega)).2 (by omega)

theorem levelStart_le (h : Matches usable t a) (k : Nat) : t.levelStart k ≤ t.size := by
  by_cases hk : t.level < k
  · exact Nat.le_of_eq (levelStart_above hk)
  · rcases Nat.eq_zero_or_pos k with rfl | hpos
    · rw [h.root]; omega
    · exact Nat.le_of_lt (h.decision k hpos (by omega)).1

/-- Each level has a literal of its own. -/
theorem level_le_size (h : Matches usable t a) : t.level ≤ t.size := by
  have hstart : ∀ k, k + 1 ≤ t.level → k ≤ t.levelStart (k + 1) := by
    intro k
    induction k with
    | zero => exact fun _ => Nat.zero_le _
    | succ k ih =>
      intro hk
      have hle := ih (by omega)
      obtain ⟨hlt, he, hlev⟩ := h.decision (k + 1) (by omega) (by omega)
      -- the decision of the level before stands before the level begins
      have : ¬ t.levelStart (k + 1 + 1) ≤ t.levelStart (k + 1) := fun hc => by
        have := (h.level_iff _ hlt (k + 1 + 1) (by omega)).1 hc
        rw [he, hlev] at this
        omega
      omega
  rcases Nat.eq_zero_or_pos t.level with h0 | hpos
  · omega
  · have h1 := hstart (t.level - 1) (by omega)
    have h2 := (h.decision t.level hpos (Nat.le_refl _)).1
    rw [Nat.sub_add_cancel hpos] at h1
    omega

/-- The decision of a level is on that level. -/
theorem level_decision (h : Matches usable t a) {k : Nat} (hk : 1 ≤ k) (hk' : k ≤ t.level) :
    a.level (t.decision k) = k := (h.decision k hk hk').2.2

theorem decision_mem (h : Matches usable t a) {k : Nat} (hk : 1 ≤ k) (hk' : k ≤ t.level) :
    t.decision k ∈ t.literals := by
  obtain ⟨hlt, he, -⟩ := h.decision k hk hk'
  exact he ▸ at'_mem hlt

theorem mem_upTo_levelStart (h : Matches usable t a) {l : Literal} {k : Nat} (hk : k ≤ t.level + 1) :
    l ∈ t.upTo (t.levelStart k) ↔ l ∈ t.literals ∧ a.level l < k := by
  constructor
  · intro hl
    obtain ⟨i, hi, hs, rfl⟩ := mem_upTo.1 hl
    refine ⟨at'_mem hs, ?_⟩
    by_contra hc
    have := (h.level_iff i hs k hk).2 (by omega)
    omega
  · rintro ⟨hl, hlt⟩
    obtain ⟨i, hi, rfl⟩ := exists_at' hl
    refine mem_upTo.2 ⟨i, ?_, hi, rfl⟩
    by_contra hc
    have := (h.level_iff i hi k hk).1 (by omega)
    omega

theorem mem_above (h : Matches usable t a) {l : Literal} {k : Nat} :
    l ∈ t.above k ↔ l ∈ t.literals ∧ k < a.level l := by
  have hs : t.above k = t.literals.toList.drop (t.levelStart (k + 1)) := by
    simp only [above, size, Array.toList_extract, List.extract_eq_take_drop]
    rw [List.take_of_length_le (by simp)]
  have hmem : l ∈ t.above k ↔ ∃ i, t.levelStart (k + 1) ≤ i ∧ i < t.size ∧ t.at' i = l := by
    rw [hs, List.mem_drop_iff_getElem]
    simp only [Array.length_toList, size, at']
    constructor
    · rintro ⟨i, hi, rfl⟩
      exact ⟨t.levelStart (k + 1) + i, by omega, by omega, by
        simp [show t.levelStart (k + 1) + i < t.literals.size by omega]⟩
    · rintro ⟨i, hle, hi, rfl⟩
      exact ⟨i - t.levelStart (k + 1), by omega, by
        simp [hi, show t.levelStart (k + 1) + (i - t.levelStart (k + 1)) = i by omega]⟩
  rw [hmem]
  constructor
  · rintro ⟨i, hle, hi, rfl⟩
    refine ⟨at'_mem hi, ?_⟩
    by_cases hk : k + 1 ≤ t.level + 1
    · exact (h.level_iff i hi _ hk).1 hle
    · rw [levelStart_above (by omega)] at hle
      omega
  · rintro ⟨hl, hlt⟩
    obtain ⟨i, hi, rfl⟩ := exists_at' hl
    have := h.level_le hi
    exact ⟨i, (h.level_iff i hi _ (by omega)).2 hlt, hi, rfl⟩

theorem ff_iff (h : Matches usable t a) (hs : a.Sized n) {l : Literal} :
    a.value l = .ff ↔ -l ∈ t.literals := by
  rw [← h.tt_iff, hs.tt_iff]

theorem unassigned_iff (h : Matches usable t a) (hs : a.Sized n) {l : Literal} :
    a.value l = .unassigned ↔ l.var ∉ t.literals.toList.map Literal.var := by
  have h1 := h.tt_iff l
  have h2 := h.ff_iff hs (l := l)
  have : l.var ∈ t.literals.toList.map Literal.var ↔ l ∈ t.literals ∨ -l ∈ t.literals := by
    simp only [List.mem_map, Array.mem_toList_iff]
    constructor
    · rintro ⟨m, hm, hv⟩
      rcases Literal.var_eq_iff.1 hv with rfl | rfl
      · exact .inl hm
      · exact .inr hm
    · rintro (hl | hl)
      · exact ⟨l, hl, rfl⟩
      · exact ⟨-l, hl, Literal.var_negate l⟩
  rw [this, ← h1, ← h2]
  cases a.value l <;> simp

/-- No literal stands twice on the trail, and none together with its negation. -/
theorem at'_inj (h : Matches usable t a) {i j : Nat} (hi : i < t.size) (hj : j < t.size)
    (hv : (t.at' i).var = (t.at' j).var) : i = j := by
  simp only [size] at hi hj
  have hi' : i < (t.literals.toList.map Literal.var).length := by simpa using hi
  have hj' : j < (t.literals.toList.map Literal.var).length := by simpa using hj
  refine (@List.Nodup.getElem_inj_iff _ _ h.nodup i hi' j hj').1 ?_
  simpa [at', hi, hj] using hv

theorem not_mem_of_neg_mem (h : Matches usable t a) (hs : a.Sized n) {l : Literal}
    (hl : -l ∈ t.literals) : l ∉ t.literals := by
  intro hm
  have h1 := (h.tt_iff l).2 hm
  have h2 := (h.ff_iff hs).2 hl
  simp [h1] at h2

/-! ### Changes of both -/

section Fresh

variable (h : Matches usable t a) (hs : a.Sized n) {l : Literal} (hl : l.var < n) (hv : a.value l = .unassigned)
include h hs hv

/-- A literal that is not assigned is not on the trail, nor is its negation. -/
theorem fresh : l.var ∉ t.literals.toList.map Literal.var := (h.unassigned_iff hs).1 hv

theorem nodup_push : ((t.push l).literals.toList.map Literal.var).Nodup := by
  have hfresh := h.fresh hs hv
  simp only [Trail.push, Array.toList_push, List.map_append, List.map_cons, List.map_nil]
  rw [List.nodup_append]
  refine ⟨h.nodup, by simp, ?_⟩
  intro x hx y hy hxy
  simp only [List.mem_singleton] at hy
  exact hfresh (by rwa [hxy, hy] at hx)

include hl

/-- Levels on the trail stay when it is assigned. -/
theorem level_set_of_mem (k : Nat) (reason : Reason) {m : Literal} (hm : m ∈ t.literals) :
    (a.set l k reason).level m = a.level m := by
  simp only [Assignment.level, Assignment.record_set hs hl]
  rw [if_neg]
  intro he
  exact h.fresh hs hv (he ▸ List.mem_map_of_mem (Array.mem_toList_iff.2 hm))

omit h hv in
theorem level_set_self (k : Nat) (reason : Reason) : (a.set l k reason).level l = k := by
  simp [Assignment.level, Assignment.record_set hs hl]

/-- What is true then is what is on the trail with it. -/
theorem tt_iff_push (k : Nat) (reason : Reason) (m : Literal) :
    (a.set l k reason).value m = .tt ↔ m ∈ (t.push l).literals := by
  rw [Assignment.value_set hs hl]
  simp only [Trail.push, Array.mem_push]
  by_cases h1 : m = l
  · simp [h1]
  · by_cases h2 : m = -l
    · subst h2
      simp only [Literal.negate_ne, if_false, if_true, or_false, reduceCtorEq, false_iff]
      intro hm
      refine h.fresh hs hv ?_
      rw [← Literal.var_negate l]
      exact List.mem_map_of_mem (Array.mem_toList_iff.2 hm)
    · simp [h1, h2, h.tt_iff]

end Fresh

theorem usable_push (h : Matches usable t a) {l : Literal} (hu : usable l.var) :
    ∀ m ∈ (t.push l).literals, usable m.var := by
  intro m hm
  rcases Array.mem_push.1 hm with hm | rfl
  · exact h.usable m hm
  · exact hu

/-- The trail with one more literal, whose variable was not assigned. -/
theorem push (h : Matches usable t a) (hs : a.Sized n) {l : Literal} (hl : l.var < n)
    (hu : usable l.var) (hv : a.value l = .unassigned) (reason : Reason) :
    Matches usable (t.push l) (a.set l t.level reason) where
  frames := h.frames
  root := by rw [levelStart_push (Nat.zero_le _) h.frames, h.root]
  nodup := h.nodup_push hs hv
  usable := h.usable_push hu
  tt_iff := h.tt_iff_push hs hl hv t.level reason
  level_iff i hi k hk := by
    rw [size_push] at hi
    rw [level_push] at hk
    rw [at'_push]
    by_cases hik : i = t.size
    · subst hik
      rw [if_pos rfl, level_set_self hs hl]
      by_cases hk' : k ≤ t.level
      · rw [levelStart_push hk' h.frames]
        have := h.levelStart_le k
        simp [hk', this]
      · rw [levelStart_above (by rw [level_push]; omega), size_push]
        omega
    · rw [if_neg hik, h.level_set_of_mem hs hl hv _ _ (at'_mem (by omega))]
      by_cases hk' : k ≤ t.level
      · rw [levelStart_push hk' h.frames]
        exact h.level_iff i (by omega) k hk
      · have := h.level_le (i := i) (by omega)
        rw [levelStart_above (by rw [level_push]; omega), size_push]
        omega
  decision k hk hk' := by
    rw [level_push] at hk'
    obtain ⟨hlt, he, hlev⟩ := h.decision k hk hk'
    rw [levelStart_push hk' h.frames, size_push, at'_push, if_neg (by omega), decision_push]
    refine ⟨by omega, he, ?_⟩
    rw [← he, h.level_set_of_mem hs hl hv _ _ (at'_mem hlt), he, hlev]
  propagated := by
    rw [size_push]
    exact Nat.le_succ_of_le h.propagated
  below := by
    rw [level_push, levelStart_push (Nat.le_refl _) h.frames]
    exact h.below

/-- The trail with a decision on a new level, where everything before it is propagated. -/
theorem pushDecision (h : Matches usable t a) (hs : a.Sized n) {l : Literal} (hl : l.var < n)
    (hu : usable l.var) (hv : a.value l = .unassigned) (hp : t.propagated = t.size) :
    Matches usable (t.pushDecision l) (a.set l (t.level + 1) .decision) where
  frames := by simp [Trail.pushDecision]
  root := by rw [levelStart_pushDecision h.frames l (Nat.zero_le _), if_neg (by omega), h.root]
  nodup := h.nodup_push hs hv
  usable := h.usable_push hu
  tt_iff := h.tt_iff_push hs hl hv (t.level + 1) .decision
  level_iff i hi k hk := by
    have hlev := level_pushDecision h.frames l
    rw [size_pushDecision] at hi
    rw [hlev] at hk
    rw [at'_pushDecision]
    by_cases hik : i = t.size
    · subst hik
      rw [if_pos rfl, level_set_self hs hl]
      by_cases hk' : k ≤ t.level + 1
      · rw [levelStart_pushDecision h.frames l hk']
        have := h.levelStart_le k
        split <;> omega
      · rw [levelStart_above (by rw [hlev]; omega), size_pushDecision]
        omega
    · rw [if_neg hik, h.level_set_of_mem hs hl hv _ _ (at'_mem (by omega))]
      have hle := h.level_le (i := i) (by omega)
      by_cases hk' : k ≤ t.level + 1
      · rw [levelStart_pushDecision h.frames l hk']
        split
        · omega
        · exact h.level_iff i (by omega) k (by omega)
      · rw [levelStart_above (by rw [hlev]; omega), size_pushDecision]
        omega
  decision k hk hk' := by
    rw [level_pushDecision h.frames l] at hk'
    rw [levelStart_pushDecision h.frames l hk', decision_pushDecision h.frames l,
      size_pushDecision, at'_pushDecision]
    by_cases hkl : k = t.level + 1
    · simp only [if_pos hkl, level_set_self hs hl]
      exact ⟨by omega, rfl, hkl.symm⟩
    · obtain ⟨hlt, he, hd⟩ := h.decision k hk (by omega)
      simp only [if_neg hkl, if_neg (Nat.ne_of_lt hlt)]
      exact ⟨by omega, he, by rw [h.level_set_of_mem hs hl hv _ _ (he ▸ at'_mem hlt), hd]⟩
  propagated := by
    rw [size_pushDecision]
    exact Nat.le_succ_of_le h.propagated
  below := by
    rw [level_pushDecision h.frames l, levelStart_pushDecision h.frames l (Nat.le_refl _), if_pos rfl]
    exact Nat.le_of_eq hp.symm

/-- Only values and levels matter. -/
theorem congr (h : Matches usable t a) {a' : Assignment} (hv : ∀ l, a'.value l = a.value l)
    (hl : ∀ l, a'.level l = a.level l) : Matches usable t a' :=
  { h with
    tt_iff := fun l => by rw [hv, h.tt_iff]
    level_iff := fun i hi k hk => by rw [hl, h.level_iff i hi k hk]
    decision := fun k hk hk' => by rw [hl]; exact h.decision k hk hk' }

theorem mono {usable' : Nat → Prop} (h : Matches usable t a)
    (hu : ∀ l ∈ t.literals, usable' l.var) : Matches usable' t a := { h with usable := hu }

/-- The trail on which one more literal counts as propagated. -/
theorem step (h : Matches usable t a) (hp : t.propagated < t.size) :
    Matches usable { t with propagated := t.propagated + 1 } a :=
  { h with propagated := hp, below := Nat.le_succ_of_le h.below }

end Matches

/-! ### Levels taken back -/

variable {n : Nat} {usable : Nat → Prop} {t : Trail} {a : Assignment} {k : Nat}

theorem level_truncate (hk : k < t.level) : (t.truncate k).level = k := by
  simp only [level, truncate, Array.size_shrink] at *
  omega

theorem size_truncate (h : t.levelStart (k + 1) ≤ t.size) :
    (t.truncate k).size = t.levelStart (k + 1) := by
  simp only [size, truncate, Array.size_shrink] at *
  omega

theorem at'_truncate {i : Nat} (hi : i < t.levelStart (k + 1)) :
    (t.truncate k).at' i = t.at' i := by
  simp only [at', truncate, Array.getD_eq_getD_getElem?]
  congr 1
  rw [← Array.getElem?_toList, Array.toList_shrink, List.getElem?_take, if_pos hi,
    Array.getElem?_toList]

theorem upTo_truncate {p : Nat} (hp : p ≤ t.levelStart (k + 1)) :
    (t.truncate k).upTo p = t.upTo p := by
  simp only [upTo, truncate, Array.toList_shrink, List.take_take, Nat.min_eq_left hp]

theorem frame_truncate {j : Nat} (hj : j ≤ k) : (t.truncate k).frames[j]? = t.frames[j]? := by
  rw [truncate, ← Array.getElem?_toList, Array.toList_shrink, List.getElem?_take,
    if_pos (by omega), Array.getElem?_toList]

theorem levelStart_truncate (hk : k < t.level) {j : Nat} (hj : j ≤ k) :
    (t.truncate k).levelStart j = t.levelStart j := by
  have : j < t.frames.size := by simp only [level] at hk; omega
  simp only [levelStart, frame_truncate hj]
  rw [Array.getElem?_eq_getElem this]

theorem decision_truncate {j : Nat} (hj : j ≤ k) : (t.truncate k).decision j = t.decision j := by
  simp only [decision, Array.getD_eq_getD_getElem?, frame_truncate hj]

namespace Matches

/-- Taking back what is above a level leaves what is on the level and below. -/
theorem value_back (h : Matches usable t a) (hs : a.Sized n) (hu : ∀ v, usable v → v < n)
    (m : Literal) :
    ((t.above k).foldl Assignment.unset a).value m =
      if k < a.level m then .unassigned else a.value m := by
  have hmem : ∀ l ∈ t.above k, l ∈ t.literals ∧ k < a.level l := fun l hl => h.mem_above.1 hl
  rw [(Assignment.foldl_unset (t.above k) (fun l hl => hu _ (h.usable l (hmem l hl).1)) hs).2.2 m]
  by_cases hv : m.var ∈ (t.above k).map Literal.var
  · obtain ⟨l, hl, he⟩ := List.mem_map.1 hv
    have : k < a.level m := by
      simp only [Assignment.level, ← he]
      exact (hmem l hl).2
    rw [if_pos hv, if_pos this]
  · rw [if_neg hv]
    split
    · next hlt =>
      cases hval : a.value m with
      | unassigned => rfl
      | tt => exact absurd (List.mem_map_of_mem (h.mem_above.2 ⟨(h.tt_iff m).1 hval, hlt⟩)) hv
      | ff =>
        rw [← Literal.var_negate] at hv
        refine absurd (List.mem_map_of_mem (h.mem_above.2 ⟨(h.ff_iff hs).1 hval, ?_⟩)) hv
        rwa [Assignment.level_negate]
    · rfl

/-- The records of variables stay when literals are taken back. -/
theorem record_back (h : Matches usable t a) (hs : a.Sized n) (hu : ∀ v, usable v → v < n) (x : Nat) :
    ((t.above k).foldl Assignment.unset a).record x = a.record x :=
  (Assignment.foldl_unset (t.above k) (fun l hl => hu _ (h.usable l (h.mem_above.1 hl).1)) hs).2.1 x

/-- What is on the trail when levels were taken back. -/
theorem mem_truncate (h : Matches usable t a) (hk : k < t.level) (m : Literal) :
    m ∈ (t.truncate k).literals ↔ m ∈ t.literals ∧ a.level m ≤ k := by
  rw [← Nat.lt_succ_iff, ← h.mem_upTo_levelStart (by omega), ← mem_upTo_size,
    size_truncate (h.levelStart_le (k + 1)), upTo_truncate (Nat.le_refl _)]

/-- The trail and the assignment without the levels above one of them. -/
theorem truncate (h : Matches usable t a) (hs : a.Sized n) (hu : ∀ v, usable v → v < n)
    (hk : k < t.level) :
    Matches usable (t.truncate k) ((t.above k).foldl Assignment.unset a) := by
  have hstart := h.levelStart_le (k + 1)
  have hsize := size_truncate hstart
  have hlev := level_truncate hk
  have hrec : ∀ m, ((t.above k).foldl Assignment.unset a).level m = a.level m := fun m => by
    rw [Assignment.level, h.record_back hs hu, Assignment.level]
  have hmem := h.mem_truncate hk
  refine ⟨?_, ?_, ?_, fun l hl => h.usable l ((hmem l).1 hl).1, fun l => ?_, ?_, ?_, ?_, ?_⟩
  · simp only [Trail.truncate, Array.size_shrink, level] at *
    omega
  · rw [levelStart_truncate hk (Nat.zero_le _), h.root]
  · simp only [Trail.truncate, Array.toList_shrink, List.map_take]
    exact h.nodup.sublist (List.take_sublist _ _)
  · rw [hmem, h.value_back hs hu, ← h.tt_iff]
    split
    · simp only [reduceCtorEq, false_iff]
      omega
    · exact ⟨fun hv => ⟨hv, by omega⟩, fun hv => hv.1⟩
  · intro i hi j hj
    rw [hsize] at hi
    rw [hlev] at hj
    rw [at'_truncate hi, hrec]
    by_cases hjk : j ≤ k
    · rw [levelStart_truncate hk hjk]
      exact h.level_iff i (by omega) j (by omega)
    · have hj' : j = k + 1 := by omega
      subst hj'
      rw [levelStart_above (by omega), hsize]
      exact h.level_iff i (by omega) (k + 1) (by omega)
  · intro j hj hj'
    rw [hlev] at hj'
    obtain ⟨hlt, he, hd⟩ := h.decision j hj (by omega)
    have hjs : t.levelStart j < t.levelStart (k + 1) := by
      by_contra hc
      have := (h.level_iff _ hlt (k + 1) (by omega)).1 (by omega)
      rw [he, hd] at this
      omega
    rw [levelStart_truncate hk hj', hsize, at'_truncate hjs, decision_truncate hj', hrec]
    exact ⟨hjs, he, hd⟩
  · rw [hsize]
    exact Nat.min_le_right _ _
  · rw [hlev, levelStart_truncate hk (Nat.le_refl _)]
    have h1 := h.below
    have h2 := h.levelStart_mono (k := k) (m := t.level) (by omega) (Nat.le_refl _)
    have h3 := h.levelStart_mono (k := k) (m := k + 1) (by omega) (by omega)
    simp only [Trail.truncate]
    omega

end Matches

end Trail

end ClauseLearning
