import ClauseLearning.Proofs.Assign
import ClauseLearning.Solver.Collect
import Mathlib.Data.List.Perm.Subperm

/-!
# Clauses without root-false literals

A clause may lose literals that are false at the root.  What is left means the same, and can be watched if
the clause could: that is so if a literal is true at the root, or if there are two literals of which one is
not false and the other is not false at the root.  If the other one is false above the root, then the one has to be
true on a level no higher, unless the clause may be late.  The two literals with the best ranks are such two.

* `Trims` — what is left of a clause.
* `Assignment.Watchable`, `Fits` — when a clause can be watched, and stored.
* `Assignment.Guards` — two literals which are good to watch, with `guards_of_best`.
-/

namespace ClauseLearning

variable {a : Assignment} {c c' c'' : List Literal} {l x y : Literal}

namespace Assignment

theorem fixed_ff : a.fixed l = .ff ↔ a.value l = .ff ∧ a.level l = 0 := by
  unfold fixed
  cases a.value l <;> by_cases h : a.level l = 0 <;> simp [Value.isAssigned, h]

theorem fixed_tt : a.fixed l = .tt ↔ a.value l = .tt ∧ a.level l = 0 := by
  unfold fixed
  cases a.value l <;> by_cases h : a.level l = 0 <;> simp [Value.isAssigned, h]

theorem fixed_of_level (h : a.level l ≠ 0) : a.fixed l = .unassigned := by
  simp [fixed, h]

theorem meets_zero : a.Meets 0 c ↔ ∃ l ∈ c, a.fixed l = .tt := by
  simp only [Meets, fixed_tt, Nat.le_zero]

end Assignment

/-! ## Trimmed clauses -/

/-- What is left of a clause when some of its root-false literals are removed, in any order. -/
structure Trims (a : Assignment) (c c' : List Literal) : Prop where
  /-- No literal was added. -/
  sub : c'.Subperm c
  /-- What was removed is false at the root. -/
  removed : ∀ l ∈ c, l ∉ c' → a.fixed l = .ff

namespace Trims

theorem refl (a : Assignment) (c : List Literal) : Trims a c c := ⟨.refl c, fun _ h hn => absurd h hn⟩

theorem of_perm (h : c'.Perm c) : Trims a c c' := ⟨h.subperm, fun _ hl hn => absurd (h.mem_iff.2 hl) hn⟩

/-- The literals that are not false at the root. -/
theorem filter (a : Assignment) (c : List Literal) :
    Trims a c (c.filter fun l => a.fixed l ≠ .ff) :=
  ⟨List.filter_sublist.subperm, fun l hl hn => by simpa [hl] using hn⟩

theorem mem (h : Trims a c c') (hl : l ∈ c') : l ∈ c := h.sub.subset hl

theorem perm (h : Trims a c c') (hp : c''.Perm c') : Trims a c c'' :=
  ⟨hp.subperm.trans h.sub, fun l hl hn => h.removed l hl fun hm => hn (hp.mem_iff.2 hm)⟩

theorem trans (h : Trims a c c') (h' : Trims a c' c'') : Trims a c c'' :=
  ⟨h'.sub.trans h.sub, fun l hl hn => by
    by_cases hm : l ∈ c'
    · exact h'.removed l hm hn
    · exact h.removed l hl hm⟩

/-- Where root-false literals are false, the clause means what is left of it. -/
theorem satisfies {v : Valuation} (h : Trims a c c')
    (hv : ∀ l, a.fixed l = .ff → v.makesTrue l = false) : v.Satisfies c' ↔ v.Satisfies c := by
  constructor
  · rintro ⟨l, hl, ht⟩
    exact ⟨l, h.mem hl, ht⟩
  · rintro ⟨l, hl, ht⟩
    refine ⟨l, ?_, ht⟩
    by_contra hn
    rw [hv l (h.removed l hl hn)] at ht
    simp at ht

end Trims

/-! ## Clauses that can be watched -/

/-- A clause is satisfied at the root, or has two literals of which one is not false and the other is not
false at the root.  If the other one is false, then the one is true on a level no higher, unless the clause may be
late. -/
def Assignment.Watchable (a : Assignment) (late : Prop) (c : List Literal) : Prop :=
  a.Meets 0 c ∨ ∃ x ∈ c, ∃ y ∈ c, x ≠ y ∧ a.value x ≠ .ff ∧ a.fixed y ≠ .ff ∧
    (a.value y = .ff → late ∨ a.value x = .tt ∧ a.level x ≤ a.level y)

/-- Two literals of a clause are good to watch.  The first one is not false.  If the second one is, then the first
one is true on a level no higher; or else the clause may be late, and waits for the first one. -/
def Assignment.Guards (a : Assignment) (late : Prop) (x y : Literal) (c : List Literal) : Prop :=
  a.value x ≠ .ff ∧ (a.value y = .ff → a.value x = .tt ∧ a.level x ≤ a.level y ∨
    late ∧ a.level y ≠ 0 ∧ ∀ m ∈ c, m ≠ x → a.value m = .ff ∧ a.level m ≤ a.level y)

/-- A clause of usable variables, each of them once, that can be watched. -/
structure Fits (usable : Nat → Prop) (a : Assignment) (late : Prop) (c : List Literal) : Prop where
  /-- No variable is twice in the clause. -/
  nodup : (c.map Literal.var).Nodup
  /-- Every variable is usable. -/
  usable : ∀ l ∈ c, usable l.var
  /-- The clause can be watched. -/
  watchable : a.Watchable late c

section Watchable

variable {late : Prop} {usable : Nat → Prop}

/-- A fit clause that is not satisfied at the root has two literals. -/
theorem Fits.two_le (h : Fits usable a late c) (hn : ∀ l ∈ c, a.fixed l ≠ .tt) : 2 ≤ c.length := by
  rcases h.watchable with hm | ⟨x, hx, y, hy, hne, -⟩
  · obtain ⟨l, hl, ht⟩ := Assignment.meets_zero.1 hm
    exact absurd ht (hn l hl)
  · have hsub : [x, y] ⊆ c := by simp [hx, hy]
    exact (List.Nodup.subperm (by simp [hne]) hsub).length_le

theorem Trims.watchable (h : Trims a c c') (hw : a.Watchable late c) : a.Watchable late c' := by
  have hmem : ∀ l ∈ c, a.fixed l ≠ .ff → l ∈ c' := fun l hl hf => by
    by_contra hn
    exact hf (h.removed l hl hn)
  rcases hw with hm | ⟨x, hx, y, hy, hne, hvx, hfy, hff⟩
  · obtain ⟨l, hl, ht⟩ := Assignment.meets_zero.1 hm
    exact .inl (Assignment.meets_zero.2 ⟨l, hmem l hl (by simp [ht]), ht⟩)
  · exact .inr ⟨x, hmem x hx fun hf => hvx (Assignment.fixed_ff.1 hf).1, y, hmem y hy hfy, hne, hvx, hfy, hff⟩

theorem Trims.nodup (h : Trims a c c') (hn : (c.map Literal.var).Nodup) :
    (c'.map Literal.var).Nodup := by
  obtain ⟨d, hd, hs⟩ := h.sub
  exact (hd.map Literal.var).nodup_iff.1 ((hs.map Literal.var).nodup hn)

theorem Trims.fits (h : Trims a c c') (hf : Fits usable a late c) : Fits usable a late c' :=
  ⟨h.nodup hf.nodup, fun l hl => hf.usable l (h.mem hl), h.watchable hf.watchable⟩

end Watchable

section Guard

variable {t : Trail} {usable : Nat → Prop} {n p : Nat} {late : Prop} {b d : Literal}
  (ht : t.Matches usable a) (hs : a.Sized n)
include ht hs

/-- A literal that has fallen is false. -/
theorem Fallen.value (h : Fallen t p l) : a.value l = .ff :=
  (ht.ff_iff hs).2 (Trail.mem_of_mem_upTo h)

/-- Once everything was propagated, a literal that is false has fallen. -/
theorem fallen_size : Fallen t t.size l ↔ a.value l = .ff := by
  rw [Fallen, Trail.mem_upTo_size, ht.ff_iff hs]

/-- Of two watched literals one is not false, once everything was propagated. -/
theorem Guard.value_ne (h : Guard t a t.size late x b y d c) (hx : a.value x = .ff) :
    a.value y ≠ .ff := by
  rw [← fallen_size ht hs] at hx
  intro hy
  rw [← fallen_size ht hs] at hy
  refine h.not_both (fun m hm hf => ?_) hx hy
  rw [Fallen.value ht hs hf] at hm
  simp at hm

/-- The watch of a false literal shows that the clause can be watched. -/
theorem Guard.watchable_left (h : Guard t a t.size late x b y d c) (hx : x ∈ c) (hy : y ∈ c) (hb : b ∈ c)
    (hne : x ≠ y) (hv : a.value x = .ff) : a.Watchable late c := by
  have hvy := h.value_ne ht hs hv
  rcases h.left ((fallen_size ht hs).2 hv) with ⟨z, hz, htz, hle⟩ | ⟨hl, h0, -⟩
  · have hzc : z ∈ c := by
      simp only [List.mem_cons, List.not_mem_nil, or_false] at hz
      rcases hz with rfl | rfl
      · exact hb
      · exact hy
    by_cases h0 : a.level x = 0
    · exact .inl ⟨z, hzc, htz, h0 ▸ hle⟩
    · refine .inr ⟨z, hzc, x, hx, ?_, by rw [htz]; simp, fun hf => h0 (Assignment.fixed_ff.1 hf).2,
        fun _ => .inr ⟨htz, hle⟩⟩
      rintro rfl
      rw [hv] at htz
      simp at htz
  · exact .inr ⟨y, hy, x, hx, hne.symm, hvy, fun hf => h0 (Assignment.fixed_ff.1 hf).2, fun _ => .inl hl⟩

/-- What was guarded can be watched, once everything was propagated. -/
theorem Guard.watchable (h : Guard t a t.size late x b y d c) (hx : x ∈ c) (hy : y ∈ c) (hb : b ∈ c)
    (hd : d ∈ c) (hne : x ≠ y) : a.Watchable late c := by
  by_cases hvx : a.value x = .ff
  · exact h.watchable_left ht hs hx hy hb hne hvx
  · by_cases hvy : a.value y = .ff
    · exact h.symm.watchable_left ht hs hy hx hd hne.symm hvy
    · exact .inr ⟨x, hx, y, hy, hne, hvx, fun hf => hvy (Assignment.fixed_ff.1 hf).1,
        fun hf => absurd hf hvy⟩

/-- A clause is guarded by two literals which are good to watch. -/
theorem Assignment.Guards.guard (h : a.Guards late x y c) : Guard t a p late x y y x c := by
  refine ⟨.inl rfl, .of_not_fallen fun hf => h.1 (Fallen.value ht hs hf), fun hf => ?_⟩
  refine (h.2 (Fallen.value ht hs hf)).imp (fun ⟨htt, hle⟩ => ⟨x, by simp, htt, hle⟩) ?_
  rintro ⟨hl, h0, hall⟩
  exact ⟨hl, h0, fun hf => h.1 (Fallen.value ht hs hf), hall⟩

/-- A binary clause that can be watched is guarded. -/
theorem Assignment.Watchable.guard_pair (h : a.Watchable late [x, y]) :
    Guard t a p late x y y x [x, y] := by
  have hof : ∀ {u w}, a.value u ≠ .ff → a.fixed w ≠ .ff →
      (a.value w = .ff → late ∨ a.value u = .tt ∧ a.level u ≤ a.level w) →
      (∀ m ∈ [x, y], m ≠ u → m = w) → a.Guards late u w [x, y] := by
    refine fun {u w} hu hf hw hm => ⟨hu, fun hv => ?_⟩
    refine (hw hv).elim (fun hl => .inr ⟨hl, fun h0 => hf (Assignment.fixed_ff.2 ⟨hv, h0⟩), ?_⟩) .inl
    intro m hm' hne
    rw [hm m hm' hne]
    exact ⟨hv, Nat.le_refl _⟩
  rcases h with ⟨z, hz, htt, hle⟩ | ⟨u, hu, w, hw, hne, hvu, hfw, hff⟩
  · -- the literal that is true at the root backs the watch of the other one, and its own never falls
    have hback : ∀ {u w}, z = u ∨ z = w → Backed t a p late u w w [x, y] := fun {u w} hzz hf => by
      refine .inl ⟨z, ?_, htt, Nat.le_trans hle (Nat.zero_le _)⟩
      rcases hzz with rfl | rfl
      · rw [Fallen.value ht hs hf] at htt
        simp at htt
      · simp
    simp only [List.mem_cons, List.not_mem_nil, or_false] at hz
    exact ⟨.inl rfl, hback hz, hback hz.symm⟩
  · simp only [List.mem_cons, List.not_mem_nil, or_false] at hu hw
    rcases hu with rfl | rfl
    · rcases hw with rfl | rfl
      · exact absurd rfl hne
      · exact (hof hvu hfw hff (by simp)).guard ht hs
    · rcases hw with rfl | rfl
      · exact ((hof hvu hfw hff (by simp)).guard ht hs).symm
      · exact absurd rfl hne

end Guard

/-! ## Ranks -/

namespace Assignment

/-- The rank of a literal that is not false is above all ranks of false literals. -/
theorem le_watchRank (h : a.value l ≠ .ff) : 2 * (greatestWord + 1) ≤ a.watchRank l := by
  unfold watchRank
  cases hv : a.value l with
  | ff => exact absurd hv h
  | tt => simp
  | unassigned => simp

theorem watchRank_of_ff (h : a.value l = .ff) : a.watchRank l = greatestWord + 1 + a.level l := by
  simp only [watchRank, h]

/-- What is ranked at least as high as a literal that is not false is not false. -/
theorem value_ne_of_watchRank_le (hlev : a.value x = .ff → a.level x ≤ greatestWord)
    (hl : a.value l ≠ .ff) (h : a.watchRank l ≤ a.watchRank x) : a.value x ≠ .ff := fun hx => by
  have h1 := le_watchRank hl
  have h2 := hlev hx
  rw [watchRank_of_ff hx] at h
  omega

/-- The two literals with the best ranks are good to watch. -/
theorem guards_of_best {late : Prop} (hw : a.Watchable late c)
    (hlev : ∀ l, a.value l ≠ .unassigned → a.level l ≤ greatestWord)
    (hx : ∀ l ∈ c, a.watchRank l ≤ a.watchRank x)
    (hy : ∀ l ∈ c, l ≠ x → a.watchRank l ≤ a.watchRank y) : a.Guards late x y c := by
  have hbound : ∀ {l}, a.value l = .ff → a.level l ≤ greatestWord := fun {l} hl =>
    hlev l (by rw [hl]; decide)
  obtain ⟨u, hu, hvu⟩ : ∃ u ∈ c, a.value u ≠ .ff := by
    rcases hw with ⟨z, hz, htt, -⟩ | ⟨u, hu, -, -, -, hvu, -⟩
    · exact ⟨z, hz, by rw [htt]; decide⟩
    · exact ⟨u, hu, hvu⟩
  refine ⟨value_ne_of_watchRank_le hbound hvu (hx u hu), fun hvy => ?_⟩
  -- all literals but the first are false, on levels no higher than that of the second
  have hall : ∀ m ∈ c, m ≠ x → a.value m = .ff ∧ a.level m ≤ a.level y := fun m hm hne => by
    have hle := hy m hm hne
    have hff : a.value m = .ff := by
      by_contra hn
      exact value_ne_of_watchRank_le hbound hn hle hvy
    rw [watchRank_of_ff hff, watchRank_of_ff hvy] at hle
    exact ⟨hff, by omega⟩
  have hfirst : ∀ m ∈ c, a.value m ≠ .ff → m = x := fun m hm hn => by
    by_contra hne
    exact hn (hall m hm hne).1
  rcases hw with ⟨z, hz, htt, hle⟩ | ⟨u, hu, w, hw, hne, hvu, hfw, hff⟩
  · obtain rfl := hfirst z hz (by rw [htt]; decide)
    exact .inl ⟨htt, Nat.le_trans hle (Nat.zero_le _)⟩
  · obtain rfl := hfirst u hu hvu
    obtain ⟨hvw, hlw⟩ := hall w hw hne.symm
    have h0 : a.level w ≠ 0 := fun h0 => hfw (fixed_ff.2 ⟨hvw, h0⟩)
    rcases hff hvw with hl | ⟨htt, hle⟩
    · exact .inr ⟨hl, by omega, hall⟩
    · exact .inl ⟨htt, by omega⟩

end Assignment

/-- Levels fit into words. -/
theorem Solver.Frame.level_le_greatest {ε : Type} {s : Solver ε} (h : s.Frame)
    (hl : s.assignment.value l ≠ .unassigned) : s.assignment.level l ≤ greatestWord := by
  have h1 : s.assignment.level l ≤ s.trail.level := by
    cases hv : s.assignment.value l with
    | unassigned => exact absurd hv hl
    | tt => exact h.trail.level_le_of_mem ((h.trail.tt_iff _).1 hv)
    | ff =>
      have := h.trail.level_le_of_mem ((h.trail.ff_iff h.sized).1 hv)
      rwa [Assignment.level_negate] at this
  have h2 := h.trail.level_le_size
  have h3 := h.size_le
  have h4 := h.few
  simp only [Numbering.greatestExternal, greatestWord] at *
  omega

end ClauseLearning
