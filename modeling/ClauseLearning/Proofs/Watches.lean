import ClauseLearning.Proofs.Store.Walk
import ClauseLearning.Proofs.Trail
import ClauseLearning.Watches

/-!
# Watch lists

What the operations on watch lists do to the list of each literal, and when the lists of both literals
of every binary clause agree.

* `Watches.view` — the list of each literal, as a function.
* `Watches.pairs` — the notes on the copies of one binary clause, as the list of one literal has them.
* `Watches.Paired` — both lists have the same copies of every binary clause.
* `Watch.ref?` — the clause of the store that a watch is on.
-/

namespace ClauseLearning

namespace Watch

/-- The clause of the store that a watch is on, if it is on one. -/
def ref? : Watch → Option Reference
  | binary .. => none
  | large _ r => some r

/-- What a watch notes of the binary clause with a given other literal. -/
def noteOn (o : Literal) : Watch → Option (Bool × Bool)
  | binary other redundant hyper => if other = o then some (redundant, hyper) else none
  | large .. => none

@[simp] theorem ref?_binary (o : Literal) (r h : Bool) : ref? (binary o r h) = none := rfl
@[simp] theorem ref?_large (b : Literal) (r : Reference) : ref? (large b r) = some r := rfl
@[simp] theorem noteOn_large (o b : Literal) (r : Reference) : noteOn o (large b r) = none := rfl

theorem ref?_eq_some {w : Watch} {r : Reference} : w.ref? = some r ↔ ∃ b, w = large b r := by
  cases w <;> simp [ref?]

theorem noteOn_eq_some {w : Watch} {o : Literal} {x : Bool × Bool} :
    w.noteOn o = some x ↔ w = binary o x.1 x.2 := by
  obtain ⟨r, h⟩ := x
  cases w with
  | binary other r' h' =>
    simp only [noteOn, binary.injEq]
    split <;> simp_all
  | large => simp [noteOn]

end Watch

namespace Watches

variable {w : Watches} {l m o : Literal}

/-- The list of each literal. -/
def view (w : Watches) (l : Literal) : List Watch := (w.of l).toList

theorem of_eq (w : Watches) (l : Literal) : w.of l = w.lists[l.code]?.getD #[] := by
  simp [of]

theorem view_out_of_range (h : w.lists.size ≤ l.code) : w.view l = [] := by
  rw [view, of_eq, Array.getElem?_eq_none h]
  rfl

theorem in_range {x : Watch} (h : x ∈ w.view l) : l.code < w.lists.size := by
  by_contra hc
  rw [view_out_of_range (by omega)] at h
  simp at h

/-! ## Operations on one list -/

theorem view_set (list : Array Watch) (hl : l.code < w.lists.size) :
    (w.set l list).view m = if m = l then list.toList else w.view m := by
  simp only [view, of_eq, set, Array.getElem?_setIfInBounds, ← Literal.code_inj (l := m)]
  by_cases h : m.code = l.code
  · simp [h, hl]
  · simp [h, Ne.symm h]

@[simp] theorem size_set (w : Watches) (l : Literal) (list : Array Watch) :
    (w.set l list).lists.size = w.lists.size := by simp [set]

theorem view_add (x : Watch) (hl : l.code < w.lists.size) :
    (w.add l x).view m = if m = l then w.view m ++ [x] else w.view m := by
  simp only [view, of_eq, add, Array.getElem?_modify, ← Literal.code_inj (l := m)]
  by_cases h : m.code = l.code
  · simp [h, hl]
  · simp [h, Ne.symm h]

/-- The list of a literal after a watch was added, whether there was a list to add it to or not. -/
theorem view_add_eq (w : Watches) (m l : Literal) (x : Watch) :
    (w.add m x).view l = w.view l ++ if l = m ∧ m.code < w.lists.size then [x] else [] := by
  by_cases hm : m.code < w.lists.size
  · rw [view_add x hm]
    by_cases hl : l = m <;> simp [hl, hm]
  · have hnone : w.lists[m.code]? = none := Array.getElem?_eq_none (Nat.le_of_not_lt hm)
    rw [if_neg fun hc => hm hc.2, List.append_nil]
    simp only [view, of_eq, add, Array.getElem?_modify]
    split
    · next he => rw [← he, hnone, Option.map_none]
    · rfl

@[simp] theorem size_add (w : Watches) (l : Literal) (x : Watch) :
    (w.add l x).lists.size = w.lists.size := by simp [add]

theorem view_restore (list : Array Watch) (hl : l.code < w.lists.size) :
    (w.restore l list).view m = if m = l then list.toList ++ w.view m else w.view m := by
  simp only [view, of_eq, restore, Array.getElem?_modify, ← Literal.code_inj (l := m)]
  by_cases h : m.code = l.code
  · simp [h, hl]
  · simp [h, Ne.symm h]

@[simp] theorem size_restore (w : Watches) (l : Literal) (list : Array Watch) :
    (w.restore l list).lists.size = w.lists.size := by simp [restore]

/-- A list that is taken out and put back. -/
theorem restore_set (w : Watches) (l : Literal) : (w.set l #[]).restore l (w.of l) = w := by
  simp only [restore, set, of_eq]
  congr 1
  refine Array.ext_getElem? fun i => ?_
  rw [Array.getElem?_modify, Array.getElem?_setIfInBounds]
  by_cases h : l.code = i
  · subst h
    by_cases hl : l.code < w.lists.size
    · simp [hl]
    · simp [hl]
  · simp [h]

theorem view_addBinary (r h : Bool) (hl : l.code < w.lists.size) (hm : m.code < w.lists.size)
    (hne : l ≠ m) (o : Literal) :
    (w.addBinary l m r h).view o =
      if o = l then w.view o ++ [.binary m r h]
      else if o = m then w.view o ++ [.binary l r h] else w.view o := by
  rw [addBinary, view_add _ (by simpa using hm), view_add _ hl]
  by_cases h1 : o = l
  · subst h1
    simp [hne]
  · simp [h1]

@[simp] theorem size_addBinary (w : Watches) (l m : Literal) (r h : Bool) :
    (w.addBinary l m r h).lists.size = w.lists.size := by simp [addBinary]

theorem view_addLarge (r : Reference) (hl : l.code < w.lists.size) (hm : m.code < w.lists.size)
    (hne : l ≠ m) (o : Literal) :
    (w.addLarge r l m).view o =
      if o = l then w.view o ++ [.large m r]
      else if o = m then w.view o ++ [.large l r] else w.view o := by
  rw [addLarge, view_add _ (by simpa using hm), view_add _ hl]
  by_cases h1 : o = l
  · subst h1
    simp [hne]
  · simp [h1]

@[simp] theorem size_addLarge (w : Watches) (r : Reference) (l m : Literal) :
    (w.addLarge r l m).lists.size = w.lists.size := by simp [addLarge]

theorem view_dropLarge : w.dropLarge.view l = (w.view l).filter Watch.isBinary := by
  simp only [view, of_eq, dropLarge, Array.getElem?_map]
  cases w.lists[l.code]? <;> simp

@[simp] theorem size_dropLarge (w : Watches) : w.dropLarge.lists.size = w.lists.size := by
  simp [dropLarge]

theorem view_growTo (n : Nat) : (w.growTo n).view l = w.view l := by
  simp only [view, of_eq, growTo, Array.getElem?_append, Array.getElem?_replicate]
  by_cases h : l.code < w.lists.size
  · simp [h]
  · simp only [h, if_false, Array.getElem?_eq_none (Nat.le_of_not_lt h)]
    split <;> rfl

@[simp] theorem size_growTo (w : Watches) (n : Nat) :
    (w.growTo n).lists.size = max w.lists.size n := by
  simp only [growTo, Array.size_append, Array.size_replicate]
  omega

/-! ## Binary clauses -/

/-- The notes on the copies of the binary clause of `l` and `o`, as the list of `l` has them. -/
def pairs (view : Literal → List Watch) (l o : Literal) : List (Bool × Bool) :=
  (view l).filterMap (Watch.noteOn o)

theorem mem_pairs {view : Literal → List Watch} {x : Bool × Bool} :
    x ∈ pairs view l o ↔ .binary o x.1 x.2 ∈ view l := by
  simp only [pairs, List.mem_filterMap, Watch.noteOn_eq_some]
  constructor
  · rintro ⟨_, hw, rfl⟩
    exact hw
  · exact fun h => ⟨_, h, rfl⟩

/-- Both lists have the same copies of every binary clause, and these are on usable variables. -/
structure Paired (usable : Nat → Prop) (view : Literal → List Watch) : Prop where
  /-- The two literals are on different variables which are usable. -/
  usable : ∀ l o r h, .binary o r h ∈ view l → usable l.var ∧ usable o.var ∧ l.var ≠ o.var
  /-- The copies are the same, in the same order. -/
  symm : ∀ l o, pairs view l o = pairs view o l
  /-- What was derived during propagation is redundant. -/
  hyper : ∀ l o r, .binary o r true ∈ view l → r = true

namespace Paired

variable {usable usable' : Nat → Prop} {view view' : Literal → List Watch}

theorem mem_symm (h : Paired usable view) {r y : Bool} :
    .binary o r y ∈ view l ↔ .binary l r y ∈ view o := by
  rw [← mem_pairs (x := (r, y)), h.symm, mem_pairs]

theorem ne (h : Paired usable view) {r y : Bool} (hw : .binary o r y ∈ view l) : l ≠ o :=
  fun he => (h.usable l o r y hw).2.2 (congrArg Literal.var he)

theorem mono (h : Paired usable view) (hu : ∀ v, usable v → usable' v) : Paired usable' view :=
  { h with
    usable := fun l o r y hw =>
      let ⟨h1, h2, h3⟩ := h.usable l o r y hw
      ⟨hu _ h1, hu _ h2, h3⟩ }

/-- Only binary watches matter. -/
theorem congr (h : Paired usable view)
    (hv : ∀ l, (view' l).filter Watch.isBinary = (view l).filter Watch.isBinary) :
    Paired usable view' := by
  have hmem : ∀ {l o r y}, Watch.binary o r y ∈ view' l ↔ Watch.binary o r y ∈ view l := by
    intro l o r y
    have := congrArg (Watch.binary o r y ∈ ·) (hv l)
    simpa [List.mem_filter, Watch.isBinary] using this
  have hnote : ∀ (ws : List Watch) (o : Literal),
      (ws.filter Watch.isBinary).filterMap (Watch.noteOn o) = ws.filterMap (Watch.noteOn o) := by
    intro ws o
    rw [List.filterMap_filter]
    congr 1
    funext w
    cases w <;> simp [Watch.isBinary]
  have hpairs : ∀ l o, pairs view' l o = pairs view l o := fun l o => by
    rw [pairs, ← hnote, hv, hnote, pairs]
  exact ⟨fun l o r y hw => h.usable l o r y (hmem.1 hw),
    fun l o => by rw [hpairs, hpairs, h.symm], fun l o r hw => h.hyper l o r (hmem.1 hw)⟩

/-- One more binary clause, with a watch for each of its literals. -/
theorem addBinary (h : Paired usable view) {a b : Literal} {r y : Bool} (ha : usable a.var)
    (hb : usable b.var) (hne : a.var ≠ b.var) (hy : y = true → r = true)
    (hv : ∀ l, view' l =
      if l = a then view l ++ [.binary b r y]
      else if l = b then view l ++ [.binary a r y] else view l) :
    Paired usable view' := by
  have hab : a ≠ b := fun he => hne (congrArg Literal.var he)
  have hmem : ∀ {l o p q}, Watch.binary o p q ∈ view' l →
      Watch.binary o p q ∈ view l ∨ (p = r ∧ q = y ∧ (l = a ∧ o = b ∨ l = b ∧ o = a)) := by
    intro l o p q hw
    rw [hv] at hw
    split at hw
    · next hl =>
      rcases List.mem_append.1 hw with hw | hw
      · exact .inl hw
      · obtain ⟨rfl, rfl, rfl⟩ := Watch.binary.inj (List.mem_singleton.1 hw)
        exact .inr ⟨rfl, rfl, .inl ⟨hl, rfl⟩⟩
    · split at hw
      · next hl =>
        rcases List.mem_append.1 hw with hw | hw
        · exact .inl hw
        · obtain ⟨rfl, rfl, rfl⟩ := Watch.binary.inj (List.mem_singleton.1 hw)
          exact .inr ⟨rfl, rfl, .inr ⟨hl, rfl⟩⟩
      · exact .inl hw
  have hpairs : ∀ l o, pairs view' l o =
      pairs view l o ++ if l = a ∧ o = b ∨ l = b ∧ o = a then [(r, y)] else [] := by
    intro l o
    simp only [pairs, hv]
    by_cases h1 : l = a
    · subst h1
      by_cases h2 : o = b
      · simp [h2, Watch.noteOn]
      · simp [h2, Ne.symm h2, hab, Watch.noteOn]
    · by_cases h2 : l = b
      · subst h2
        by_cases h3 : o = a
        · simp [h1, h3, Watch.noteOn]
        · simp [h1, h3, Ne.symm h3, Watch.noteOn]
      · simp [h1, h2]
  refine ⟨fun l o p q hw => ?_, fun l o => ?_, fun l o p hw => ?_⟩
  · rcases hmem hw with hw | ⟨-, -, ⟨rfl, rfl⟩ | ⟨rfl, rfl⟩⟩
    · exact h.usable l o p q hw
    · exact ⟨ha, hb, hne⟩
    · exact ⟨hb, ha, Ne.symm hne⟩
  · rw [hpairs, hpairs, h.symm]
    congr 2
    simp only [eq_iff_iff]
    constructor <;> rintro (⟨h1, h2⟩ | ⟨h1, h2⟩) <;> simp [h1, h2]
  · rcases hmem hw with hw | ⟨rfl, hq, -⟩
    · exact h.hyper l o p hw
    · exact hy hq.symm

/-- Fewer binary clauses: what stays does so in both lists. -/
theorem filter (h : Paired usable view) {keep : Literal → Watch → Bool}
    (hk : ∀ l o r y, keep l (.binary o r y) = keep o (.binary l r y)) :
    Paired usable fun l => (view l).filter (keep l) := by
  have hpairs : ∀ l o, pairs (fun l => (view l).filter (keep l)) l o =
      (pairs view l o).filter fun x => keep l (.binary o x.1 x.2) := by
    intro l o
    simp only [pairs, List.filterMap_filter, List.filter_filterMap]
    congr 1
    funext w
    cases w with
    | binary other r y =>
      simp only [Watch.noteOn]
      by_cases h1 : other = o
      · subst h1
        cases hkeep : keep l (.binary other r y) <;> simp [hkeep, Option.filter]
      · simp [h1]
    | large b r => simp
  refine ⟨fun l o r y hw => h.usable l o r y (List.mem_of_mem_filter hw), fun l o => ?_,
    fun l o r hw => h.hyper l o r (List.mem_of_mem_filter hw)⟩
  rw [hpairs, hpairs, h.symm]
  congr 1
  funext x
  exact hk l o x.1 x.2

end Paired

/-- Every binary clause has its first literal before its second one, and is in the list of either. -/
theorem mem_binaries {c : BinaryClause} :
    c ∈ w.binaries ↔ c.a.before c.b = true ∧ .binary c.b c.redundant c.hyper ∈ w.view c.a := by
  obtain ⟨a, b, r, y⟩ := c
  have hlist : ∀ l list, (l, list) ∈ w.toList ↔ w.lists[l.code]? = some list := by
    intro l list
    simp only [toList, List.mem_map, Prod.exists, Prod.mk.injEq]
    constructor
    · rintro ⟨list', i, hi, rfl, rfl⟩
      rw [← Array.getElem?_toList]
      exact List.mem_zipIdx_iff_getElem?.1 hi
    · intro hl
      exact ⟨list, l.code, List.mem_zipIdx_iff_getElem?.2 (by rwa [Array.getElem?_toList]), rfl, rfl⟩
  simp only [binaries, List.mem_flatMap, List.mem_filterMap, Prod.exists]
  constructor
  · rintro ⟨l, list, hl, x, hx, hb⟩
    rw [hlist] at hl
    cases x with
    | large => simp [binaryOf?] at hb
    | binary other r' y' =>
      simp only [binaryOf?] at hb
      split at hb
      · next hlt =>
        simp only [Option.some.injEq, BinaryClause.mk.injEq] at hb
        obtain ⟨rfl, rfl, rfl, rfl⟩ := hb
        exact ⟨hlt, by rw [view, of_eq, hl]; exact hx⟩
      · simp at hb
  · rintro ⟨hlt, hw⟩
    have hr := in_range hw
    refine ⟨a, w.lists[a.code], (hlist _ _).2 (Array.getElem?_eq_getElem hr), .binary b r y, ?_, ?_⟩
    · rw [view, of_eq, Array.getElem?_eq_getElem hr] at hw
      exact hw
    · simp [binaryOf?, show a.before b = true from hlt]

end Watches

end ClauseLearning
