import ClauseLearning.Proofs.Minimization
import Mathlib.Data.Finset.Card

/-!
# Analysis of conflicts

The clause that is learnt from a conflict follows from what is known, is false, and has one literal on the
current level.  Of the others, one on the highest level stands second.

* `Solver.Asserts` — what is so of a learnt clause.
* `Solver.argMaxFrom` — the search for a literal on the highest level.
* `Solver.Minimized.placed`, `Solver.Minimized.analyzed` — what is done with the clause once it is minimized.
* `Solver.ends_analyze` — the whole of the analysis.
-/

namespace ClauseLearning

namespace Solver

variable {ε : Type} {lags : Prop} {S s s' : Solver ε} {p jump glue : Nat} {a l m : Literal} {rest ls : List Literal}

/-! ## Highest levels -/

/-- The first of `n` positions from `i` on with a value greater than the one at position `best` and all
before it. -/
def argMaxFrom (f : Nat → Nat) (best i : Nat) : Nat → Nat
  | 0 => best
  | n + 1 => argMaxFrom f (if f best < f i then i else best) (i + 1) n

theorem argMaxFrom_spec (f : Nat → Nat) (best i n : Nat) :
    (argMaxFrom f best i n = best ∨
        i ≤ argMaxFrom f best i n ∧ argMaxFrom f best i n < i + n) ∧
      f best ≤ f (argMaxFrom f best i n) ∧
      ∀ j, i ≤ j → j < i + n → f j ≤ f (argMaxFrom f best i n) := by
  induction n generalizing best i with
  | zero => exact ⟨.inl rfl, Nat.le_refl _, fun j h1 h2 => by omega⟩
  | succ n ih =>
    obtain ⟨h1, h2, h3⟩ := ih (if f best < f i then i else best) (i + 1)
    rw [argMaxFrom]
    refine ⟨?_, ?_, fun j hj hj' => ?_⟩
    · rcases h1 with h1 | h1
      · rw [h1]
        split
        · exact .inr ⟨Nat.le_refl _, by omega⟩
        · exact .inl rfl
      · exact .inr ⟨by omega, by omega⟩
    · refine Nat.le_trans ?_ h2
      split <;> omega
    · by_cases hij : j = i
      · refine Nat.le_trans ?_ h2
        rw [hij]
        split <;> omega
      · exact h3 j (by omega) (by omega)

theorem highestFrom_eq (s : Solver ε) (ls : Array Literal) (best i n : Nat) :
    s.highestFrom ls best i n =
      argMaxFrom (fun j => s.assignment.level (ls.getD j .invalid)) best i n := by
  induction n generalizing best i with
  | zero => rfl
  | succ n ih =>
    rw [highestFrom, argMaxFrom, ih]

/-- The greatest of some levels, none of which is above `k`. -/
theorem foldl_max_level (s : Solver ε) {k b : Nat} (hb : b ≤ k) (ls : List Literal)
    (hls : ∀ m ∈ ls, s.assignment.level m ≤ k) :
    b ≤ ls.foldl (fun b l => max b (s.assignment.level l)) b ∧
      ls.foldl (fun b l => max b (s.assignment.level l)) b ≤ k ∧
        ∀ m ∈ ls, s.assignment.level m ≤ ls.foldl (fun b l => max b (s.assignment.level l)) b := by
  induction ls generalizing b with
  | nil => exact ⟨Nat.le_refl _, hb, fun m hm => by simp at hm⟩
  | cons l ls ih =>
    have hl := hls l (List.mem_cons_self ..)
    obtain ⟨h1, h2, h3⟩ := ih (b := max b (s.assignment.level l)) (by omega)
      fun m hm => hls m (List.mem_cons_of_mem _ hm)
    rw [List.foldl_cons]
    refine ⟨by omega, h2, fun m hm => ?_⟩
    rcases List.mem_cons.1 hm with rfl | hm
    · omega
    · exact h3 m hm

theorem highestLevel_eq {ls : Array Literal} {k : Nat} (hle : ∀ m ∈ ls, s.assignment.level m ≤ k)
    (hm : m ∈ ls) (hk : s.assignment.level m = k) : s.highestLevel ls = k := by
  obtain ⟨-, h2, h3⟩ := s.foldl_max_level (Nat.zero_le k) ls.toList
    fun m hm => hle m (Array.mem_toList_iff.1 hm)
  rw [highestLevel, ← Array.foldl_toList]
  exact Nat.le_antisymm h2 (hk ▸ h3 m (Array.mem_toList_iff.2 hm))

/-! ## Glue -/

/-- With a table of the levels of what was gone through, each level of the rest is counted once. -/
theorem foldl_levels {top : Nat} {A : Finset Nat} {n : Nat} {t : Array Bool}
    (hle : ∀ l ∈ ls, s.assignment.level l ≤ top) (hsize : t.size = top + 1)
    (ht : ∀ i, t.getD i false = true ↔ i ∈ A) :
    (ls.foldl (fun (n, t) l =>
      let level := s.assignment.level l
      if t.getD level false then (n, t) else (n + 1, t.setIfInBounds level true)) (n, t)).1 =
        n + ((ls.map s.assignment.level).toFinset \ A).card := by
  induction ls generalizing n t A with
  | nil => simp
  | cons l ls ih =>
    have hls : ∀ m ∈ ls, s.assignment.level m ≤ top := fun m hm => hle m (List.mem_cons_of_mem _ hm)
    rw [List.foldl_cons, List.map_cons, List.toFinset_cons]
    by_cases hl : s.assignment.level l ∈ A
    · simp only [(ht _).2 hl, if_true]
      rw [ih hls hsize ht, Finset.insert_sdiff_of_mem _ hl]
    · have hf : t.getD (s.assignment.level l) false = false := by
        rw [← Bool.not_eq_true, ht]
        exact hl
      have hlt : s.assignment.level l < t.size := by
        rw [hsize]
        exact Nat.lt_succ_of_le (hle l (List.mem_cons_self ..))
      have hinsert : ∀ X : Finset Nat, insert (s.assignment.level l) X \ A =
          insert (s.assignment.level l) (X \ insert (s.assignment.level l) A) := by grind
      simp only [hf, Bool.false_eq_true, if_false]
      rw [ih (A := insert (s.assignment.level l) A) hls (by simpa using hsize) fun i => ?_, hinsert,
        Finset.card_insert_of_notMem (by simp)]
      · omega
      · simp only [Array.getD_eq_getD_getElem?, Array.getElem?_setIfInBounds, Finset.mem_insert] at ht ⊢
        by_cases hi : s.assignment.level l = i
        · subst hi
          simp [hlt]
        · simp [hi, Ne.symm hi, ht]

/-- The glue of some literals is the number of their levels, each counted once. -/
theorem glueOf_eq {top : Nat} (hle : ∀ l ∈ ls, s.assignment.level l ≤ top) :
    s.glueOf top ls = (ls.map s.assignment.level).toFinset.card := by
  have hnone : ∀ i, (Array.replicate (top + 1) false).getD i false = true ↔ i ∈ (∅ : Finset Nat) := fun i => by
    simp [Array.getD_eq_getD_getElem?, Array.getElem?_replicate]
    split <;> rfl
  simpa [glueOf] using foldl_levels (n := 0) hle (by simp) hnone

/-! ## The learnt clause -/

/-- A clause that is false, with its first literal alone on the current level, and of the others one on the
highest level second. -/
structure Asserts (s : Solver ε) (a : Literal) (rest : List Literal) (jump : Nat) : Prop where
  /-- The first literal is false, on the current level. -/
  first : -a ∈ s.trail.literals ∧ s.assignment.level a = s.trail.level
  /-- The others are false, on levels below. -/
  others : ∀ m ∈ rest, -m ∈ s.trail.literals ∧ s.assignment.level m ≠ 0 ∧ s.assignment.level m ≤ jump
  /-- The highest level of the others is below the current one. -/
  below : jump < s.trail.level
  /-- The second literal is on that level. -/
  second : ∀ b tail, rest = b :: tail → s.assignment.level b = jump
  /-- A unit holds at the root. -/
  unit : rest = [] → jump = 0
  /-- The literals are on different variables. -/
  nodup : ((a :: rest).map Literal.var).Nodup

/-- Every literal is false. -/
theorem Asserts.neg_mem (h : s.Asserts a rest jump) (hm : m ∈ a :: rest) : -m ∈ s.trail.literals := by
  rcases List.mem_cons.1 hm with rfl | hm
  · exact h.first.1
  · exact (h.others m hm).1

/-- Which clauses assert their first literal is a matter of the trail and the levels. -/
theorem Asserts.congr (h : S.Asserts a rest jump) (ht : s.trail = S.trail)
    (hlevel : s.assignment.level = S.assignment.level) : s.Asserts a rest jump where
  first := by
    rw [ht, hlevel]
    exact h.first
  others m hm := by
    rw [ht, hlevel]
    exact h.others m hm
  below := by
    rw [ht]
    exact h.below
  second b tail he := by
    rw [hlevel]
    exact h.second b tail he
  unit := h.unit
  nodup := h.nodup

/-- The second literal is exchanged with a later one, and the first one stays. -/
theorem exists_swap_second {ls : Array Literal} {best : Nat} (hl : ls.toList = a :: rest) (h1 : 1 ≤ best)
    (hone : 1 < ls.size) (hb : best < ls.size) :
    ∃ rest', (ls.swap 1 best).toList = a :: rest' ∧ rest'.Perm rest ∧
      (ls.swap 1 best).getD 1 .invalid = ls.getD best .invalid := by
  have hperm : (ls.swap 1 best hone hb).toList.Perm ls.toList := (Array.swap_perm hone hb).toList
  have hfirst : (ls.swap 1 best hone hb).toList[0]? = some a := by
    rw [Array.getElem?_toList, Array.getElem?_swap, if_neg (by omega), if_neg (by omega), ← Array.getElem?_toList, hl]
    rfl
  have hsecond : (ls.swap 1 best hone hb).getD 1 .invalid = ls.getD best .invalid := by
    rw [Array.getD_eq_getD_getElem?, Array.getElem?_swap, Array.getD_eq_getD_getElem?]
    by_cases h : best = 1
    · subst h
      simp [hone]
    · simp [h, hb]
  cases hcons : (ls.swap 1 best hone hb).toList with
  | nil =>
    rw [hcons] at hfirst
    cases hfirst
  | cons x rest' =>
    rw [hcons] at hfirst
    obtain rfl : x = a := by simpa using hfirst
    rw [hcons, hl] at hperm
    exact ⟨rest', rfl, hperm.cons_inv, hsecond⟩

/-- Moving a literal on the highest level to the second place. -/
theorem placeSecond_spec (hl : s.learned.toList = a :: rest) :
    ∃ rest', s.placeSecond.2 = { s with learned := s.placeSecond.2.learned } ∧
      s.placeSecond.2.learned.toList = a :: rest' ∧ rest'.Perm rest ∧
      (rest = [] → s.placeSecond.1 = 0) ∧ (∀ m ∈ rest, s.assignment.level m ≤ s.placeSecond.1) ∧
      ∀ b others, rest' = b :: others → s.assignment.level b = s.placeSecond.1 := by
  have hsize : s.learned.size = rest.length + 1 := by
    rw [← Array.length_toList, hl, List.length_cons]
  unfold placeSecond
  simp only
  split
  · next h1 =>
    have : rest = [] := List.eq_nil_of_length_eq_zero (by omega)
    subst this
    exact ⟨[], rfl, hl, .refl _, fun _ => rfl, fun m hm => by simp at hm, fun b o ho => by simp at ho⟩
  · next h1 =>
    rw [highestFrom_eq]
    have hget : ∀ j, s.learned.getD (j + 1) .invalid = rest.getD j .invalid := fun j => by
      rw [Array.getD_eq_getD_getElem?, ← Array.getElem?_toList, hl]
      simp [List.getD_eq_getElem?_getD]
    obtain ⟨h2, h3, h4⟩ := argMaxFrom_spec (fun j => s.assignment.level (s.learned.getD j .invalid)) 1 2
      (s.learned.size - 2)
    generalize argMaxFrom (fun j => s.assignment.level (s.learned.getD j .invalid)) 1 2
      (s.learned.size - 2) = best at h2 h3 h4
    have hb : best < s.learned.size := by omega
    have hone : 1 < s.learned.size := by omega
    rw [Array.swapIfInBounds_def, dif_pos hone, dif_pos hb]
    obtain ⟨rest', hcons, hperm, hsecond⟩ := exists_swap_second hl (by omega) hone hb
    refine ⟨rest', rfl, hcons, hperm, fun hnil => ?_, fun m hm => ?_, fun b others ho => ?_⟩
    · rw [hnil, List.length_nil] at hsize
      omega
    · rw [hsecond]
      obtain ⟨k, hk, rfl⟩ := List.mem_iff_getElem.1 hm
      have hlev : s.assignment.level rest[k] =
          s.assignment.level (s.learned.getD (k + 1) .invalid) := by
        rw [hget]
        simp [List.getD_eq_getElem?_getD, hk]
      rw [hlev]
      cases k with
      | zero => exact h3
      | succ k => exact h4 (k + 2) (by omega) (by omega)
    · have : (s.learned.swap 1 best hone hb).getD 1 .invalid = b := by
        rw [Array.getD_eq_getD_getElem?, ← Array.getElem?_toList, hcons, ho]
        rfl
      rw [this]

/-! ## After the analysis -/

/-- Bumping analyzed variables clears their marks. -/
theorem Minimized.bumpAnalyzed (h : Minimized S s l) (hS : S.Frame) (hc : S.Clean) :
    s.bumpAnalyzed.Frame ∧ (∀ q, S.Wired lags q → s.bumpAnalyzed.Wired lags q) ∧ s.bumpAnalyzed.Clean ∧
      Refines S s.bumpAnalyzed ∧ s.bumpAnalyzed.trail = S.trail ∧ s.bumpAnalyzed.watches = S.watches ∧
      S.assignment.Remarked s.bumpAnalyzed.assignment ∧ S.store.Reused s.bumpAnalyzed.store ∧
      s.bumpAnalyzed.learned = s.learned := by
  have hf := h.toTouched.frame hS
  have hfree : ∀ v, s.Free v ↔ s.numbering.Usable v ∧ s.assignment.valueOf v = .unassigned :=
    fun _ => Iff.rfl
  obtain ⟨ho, hcov, hmem⟩ := hf.orders.bump hfree hf.covers s.analyzed.toList s.counters.conflicts
  obtain ⟨hclear, hrec⟩ := Assignment.Remarked.foldl_modify s.assignment
    (f := fun r => { r with analyzed := false }) rfl (fun _ => rfl) (fun _ => rfl) (fun _ => rfl)
    (s.orders.bump s.assignment s.analyzed.toList s.counters.conflicts).1
  have heq : s.bumpAnalyzed = { s with
      orders := (s.orders.bump s.assignment s.analyzed.toList s.counters.conflicts).2
      assignment := (s.orders.bump s.assignment s.analyzed.toList s.counters.conflicts).1.foldl
        (fun a v => a.modify v fun r => { r with analyzed := false }) s.assignment
      analyzed := #[] } := rfl
  have hrec' : ∀ x, (s.bumpAnalyzed.assignment.record x).analyzed = false ∧
      (s.bumpAnalyzed.assignment.record x).removable = false ∧
        (s.bumpAnalyzed.assignment.record x).poisoned = false := by
    intro x
    rw [heq]
    simp only
    rw [hrec]
    split
    · exact ⟨rfl, h.plain x⟩
    · next hx =>
      refine ⟨?_, h.plain x⟩
      rw [hmem, Array.mem_toList_iff, ← h.marked] at hx
      simpa using hx
  have ht : Touched s { s with
      assignment := (s.orders.bump s.assignment s.analyzed.toList s.counters.conflicts).1.foldl
        (fun a v => a.modify v fun r => { r with analyzed := false }) s.assignment
      analyzed := #[] } :=
    ⟨⟨s.store, _, s.learned, _, s.minimized, rfl⟩, .refl h.store.chain, hclear⟩
  have hT := h.toTouched.trans ht
  have hfr := hT.frame hS
  rw [heq] at hrec' ⊢
  refine ⟨{ hfr with orders := ho, covers := hcov.mono fun v hv => ⟨hv.1, ?_⟩ },
    fun q hq => { hT.wired hq with }, ⟨?_, hrec', fun o ho' => ?_⟩, ?_, h.trail, h.watches, hT.marks, hT.store, rfl⟩
  · have := hv.2
    simp only [Assignment.valueOf, hclear.value_eq] at this
    exact this
  · obtain ⟨⟨_, _, _, _, _, he⟩, -, -⟩ := h.toTouched
    rw [he]
    exact hc.marks
  · have ho' : o ∈ S.store.offsets := h.store.offsets ▸ ho'
    exact (h.store.reason ho').trans (hc.unpinned o ho')
  · have := hT.refines
    exact { this with
      holds := fun v hv => { this.holds v hv with }
      base := fun v hv => this.base v { hv with } }

theorem averageGlue_eq (s : Solver ε) (glue : Nat) :
    ∃ fastGlue slowGlue reluctant,
      s.averageGlue glue = { s with fastGlue, slowGlue, reluctant } := by
  unfold averageGlue
  simp only
  split
  · exact ⟨_, _, _, rfl⟩
  · exact ⟨_, _, s.reluctant, rfl⟩

/-- What holds after an analysis. -/
structure Analyzed (lags : Prop) (s s' : Solver ε) (jump glue : Nat) : Prop where
  /-- The invariant. -/
  inv : ∀ p, s.Inv lags p → s'.Inv lags p
  /-- What is known. -/
  refines : Refines s s'
  /-- The trail stays. -/
  trail : s'.trail = s.trail
  /-- The watches stay. -/
  watches : s'.watches = s.watches
  /-- The assignment stays, but for marks. -/
  marks : s.assignment.Remarked s'.assignment
  /-- The clauses stay, but for notes of how recently they were used. -/
  store : s.store.Reused s'.store
  /-- Nothing is refuted. -/
  inconsistent : s'.inconsistent = s.inconsistent
  /-- The learnt clause, which was known. -/
  learned : ∃ a rest, s'.learned.toList = a :: rest ∧ s'.Asserts a rest jump ∧
    ∀ v, s.Holds v → v.Satisfies (a :: rest)
  /-- Its glue. -/
  glue : glue = (s'.learned.toList.map s'.assignment.level).toFinset.card

section Last

variable (h : Minimized S s l) (hl : l ∈ S.trail.literals ∧ S.assignment.level l = S.trail.level)
  (h0 : S.trail.level ≠ 0)
include h hl

/-- The glue is that of the learnt clause. -/
theorem Minimized.glueOf_eq : s.glueOf S.trail.level s.learned.toList =
    (s.learned.toList.map s.assignment.level).toFinset.card := by
  obtain ⟨rest, hlist, -, hrest⟩ := h.learned
  refine Solver.glueOf_eq fun m hm => ?_
  rw [hlist] at hm
  rw [h.marks.level_eq]
  rcases List.mem_cons.1 hm with rfl | hm
  · rw [Assignment.level_negate, hl.2]
  · exact Nat.le_of_lt (hrest m hm).2.1

include h0

/-- A literal on the highest level goes to the second place of the learnt clause, which is as it has to be then. -/
theorem Minimized.placed : Minimized S s.placeSecond.2 l ∧ ∃ rest, s.placeSecond.2.learned.toList = -l :: rest ∧
    (-l :: rest).Perm s.learned.toList ∧ S.Asserts (-l) rest s.placeSecond.1 := by
  have hlev : s.assignment.level = S.assignment.level := h.marks.level_eq
  obtain ⟨rest, hlist, hnd, hrest⟩ := h.learned
  obtain ⟨rest', he, hlist', hperm, hunit, hmax, hsecond⟩ := placeSecond_spec hlist
  have hrest' : ∀ m ∈ rest', -m ∈ S.trail.literals ∧ S.assignment.level m < S.trail.level ∧
      S.assignment.level m ≠ 0 := fun m hm => hrest m (hperm.mem_iff.1 hm)
  have hnd' : (rest'.map Literal.var).Nodup := (hperm.map Literal.var).nodup_iff.2 hnd
  refine ⟨⟨h.toTouched.trans ?_, ?_, ?_, ⟨rest', hlist', hnd', hrest'⟩, fun v hv => ?_⟩, rest', hlist',
    hlist ▸ hperm.cons (-l), ⟨?_, fun m hm => ?_, ?_, ?_, fun hnil => ?_, ?_⟩⟩
  · rw [he]
    exact ⟨⟨s.store, s.assignment, _, s.analyzed, s.minimized, rfl⟩, .refl h.store.chain, .refl _⟩
  · rw [he]
    exact h.marked
  · rw [he]
    exact h.plain
  · obtain ⟨m, hm, ht⟩ := h.implied v hv
    rw [hlist] at hm
    exact ⟨m, hlist' ▸ (hperm.cons (-l)).mem_iff.2 hm, ht⟩
  · rw [Literal.negate_negate, Assignment.level_negate]
    exact hl
  · refine ⟨(hrest' m hm).1, (hrest' m hm).2.2, ?_⟩
    rw [← hlev]
    exact hmax m (hperm.mem_iff.1 hm)
  · cases rest' with
    | nil =>
      rw [hunit (List.nil_perm.1 hperm)]
      exact Nat.pos_of_ne_zero h0
    | cons b tail =>
      rw [← hsecond b tail rfl, hlev]
      exact (hrest' b (List.mem_cons_self ..)).2.1
  · intro b tail ht
    rw [← hlev]
    exact hsecond b tail ht
  · rw [hnil] at hperm
    exact hunit (List.nil_perm.1 hperm)
  · refine List.nodup_cons.2 ⟨fun hmem => ?_, hnd'⟩
    obtain ⟨m, hm, hvar⟩ := List.mem_map.1 hmem
    rw [Literal.var_negate] at hvar
    have hlow := (hrest' m hm).2.1
    rw [Assignment.level, hvar] at hlow
    exact absurd hl.2 (Nat.ne_of_lt hlow)

/-- The last steps of an analysis. -/
theorem Minimized.analyzed (hS : S.Frame) (hc : S.Clean) (hg : glue = s.glueOf S.trail.level s.learned.toList) :
    Analyzed lags S (s.placeSecond.2.bumpAnalyzed.averageGlue glue) s.placeSecond.1 glue := by
  obtain ⟨h₁, rest, hlist, hperm, hasserts⟩ := h.placed hl h0
  obtain ⟨hf, hwire, hclean, href, htrail, hwatches, hmarks, hstore, hlearned⟩ := h₁.bumpAnalyzed hS hc
  obtain ⟨fg, sg, rl, haverage⟩ := averageGlue_eq s.placeSecond.2.bumpAnalyzed glue
  have hlist' : s.placeSecond.2.bumpAnalyzed.learned.toList = -l :: rest := (congrArg Array.toList hlearned).trans hlist
  obtain ⟨hderived, hinc⟩ : s.placeSecond.2.bumpAnalyzed.derived = S.derived ∧
      s.placeSecond.2.bumpAnalyzed.inconsistent = S.inconsistent := by
    obtain ⟨⟨_, _, _, _, _, he⟩, -, -⟩ := h₁.toTouched
    rw [he]
    exact ⟨rfl, rfl⟩
  rw [haverage]
  exact {
    inv := fun q hq => ⟨{ hf with }, { hwire q hq.toWired with }, { hclean with }, hderived.trans hq.stored⟩
    refines :=
      { href with
        holds := fun v hv => { href.holds v hv with }
        base := fun v hv => href.base v { hv with } }
    trail := htrail
    watches := hwatches
    marks := hmarks
    store := hstore
    inconsistent := hinc
    learned := ⟨-l, rest, hlist', hasserts.congr htrail hmarks.level_eq, fun v hv => hlist ▸ h₁.implied v hv⟩
    glue := by
      rw [hg, h.glueOf_eq hl]
      simp only
      rw [hlist', hmarks.level_eq, h.marks.level_eq]
      exact congrArg Finset.card (List.toFinset_eq_of_perm _ _ (hperm.symm.map _)) }

end Last

section Conflict

variable {key : Key} (h : Conflicted lags s key)
include h

/-- The literals of a conflict are there, and the highest of their levels is the current one. -/
theorem Conflicted.exists_literals : ∃ ls, s.keyLiterals key = .ok ls ∧ ls.toList = s.clauseOf key ∧
    s.highestLevel ls = s.trail.level := by
  obtain ⟨p, hinv, -, -⟩ := h.inv
  have hls : ∃ ls, s.keyLiterals key = .ok ls ∧ ls.toList = s.clauseOf key := by
    cases key with
    | binary a b => exact ⟨_, rfl, rfl⟩
    | large r =>
      have hr := h.conflict.current r rfl
      exact ⟨_, Store.literals?_of_current hinv.store.chain hr,
        Store.literalsAt_toList (hinv.store.hasAt hr.2).fits⟩
  obtain ⟨ls, hkey, hls⟩ := hls
  obtain ⟨m, hm, hk⟩ := h.conflict.level
  refine ⟨ls, hkey, hls, highestLevel_eq (fun m hm => ?_) (Array.mem_toList_iff.1 (hls ▸ hm)) hk⟩
  rw [← Assignment.level_negate]
  exact hinv.trail.level_le_of_mem (h.conflict.falsified m (hls ▸ Array.mem_toList_iff.2 hm))

/-- The walk begins with the literals of the conflict in the resolvent. -/
theorem Conflicted.ends_noteAll (h0 : s.trail.level ≠ 0) {ls : Array Literal} (hls : ls.toList = s.clauseOf key) :
    Ends (noteAll s.trail.level ls) { s with learned := #[.invalid], analyzed := #[] }
      (fun opened s₁ => Resolving s s₁ s.trail.size opened) fun _ _ => False := by
  obtain ⟨p, hinv, -, -⟩ := h.inv
  have hS := hinv.toFrame
  have hfalse : ∀ m ∈ ls.toList, -m ∈ s.trail.literals := fun m hm => h.conflict.falsified m (hls ▸ hm)
  have hup : ∀ m ∈ ls.toList, -m ∈ s.trail.upTo s.trail.size := fun m hm => by
    rw [Trail.mem_upTo_size]
    exact hfalse m hm
  have h₁ : Noted s { s with learned := #[.invalid], analyzed := #[] } := by
    refine ⟨⟨⟨s.store, s.assignment, _, _, s.minimized, rfl⟩, .refl hinv.store.chain, .refl _⟩,
      fun x => ?_, fun x hx => by simp at hx, ⟨[], rfl, by simp, fun l => by simp⟩,
      fun x => (hinv.records x).2⟩
    simp [(hinv.records x).1]
  obtain ⟨h₂, hcount, -, hin⟩ := h₁.noteAll hS (k := 0) hup
  have h1 : openAt { s with learned := #[.invalid], analyzed := #[] } s.trail.size = 0 := by
    simp [openAt, (hinv.records _).1]
  rw [Solver.ends_noteAll]
  refine { h₂ with le := Nat.le_refl _, implied := fun v hv => ?_, count := by omega, open_ne := ?_ }
  · obtain ⟨m, hm, ht⟩ := h.conflict.satisfies hv
    rw [← hls] at hm
    exact Implied.of_satisfies hv hup hin hm ht
  · obtain ⟨m, hm, hk⟩ := h.conflict.level
    rw [← hls] at hm
    obtain ⟨i, hi, he⟩ := Trail.exists_at' (hfalse m hm)
    refine h₂.openAt_ne_zero hi hi ?_ ?_
    · rw [he, Literal.var_negate]
      exact hin m hm (by rw [hk]; exact h0)
    · rw [he, Assignment.level_negate, hk]

/-- An analysis meets no fault.  The conflict holds at the root, or a clause is learnt. -/
theorem ends_analyze :
    Ends (analyze key) s
      (fun out s' => match out with
        | .fundamental => s' = s ∧ s.trail.level = 0
        | .asserting jump glue => Analyzed lags s s' jump glue)
      (fun _ _ => False) := by
  obtain ⟨p, hinv, -, -⟩ := h.inv
  have hS := hinv.toFrame
  have hw := hinv.toWired
  have hc := hinv.toClean
  obtain ⟨ls, hkey, hls, hlevel⟩ := h.exists_literals
  unfold analyze
  simp only [ends_bind, ends_get, ends_ofExcept, hkey, ends_ite, ends_pure, ends_modify]
  refine ⟨fun ls' hls' => ?_, fun e he => by simp at he⟩
  obtain rfl := Except.ok.inj hls'
  rw [hlevel]
  refine ⟨fun h0 => ⟨trivial, h0⟩, fun h0 => ?_⟩
  rw [backtrack_of_le s (Nat.le_refl _)]
  refine (h.ends_noteAll h0 hls).imp (fun opened s₂ h₂ => ?_) fun _ _ hf => hf
  rw [h₂.trail]
  refine (ends_resolve hS hw h0 h₂).imp (fun l s₃ h₃ => ?_) fun _ _ hf => hf
  simp only [ends_modifyGet]
  refine ⟨fun _ => ?_, fun _ => ?_⟩
  · refine (ends_minimize hS hw h₃.minimized fun rest hrest i hi hm hlt => ?_).imp (fun _ s₄ h₄ => ?_)
      fun _ _ hf => hf
    · obtain ⟨rest', hrest', -, hiff⟩ := h₃.learned
      have hlist : (s₃.learned.setIfInBounds 0 (-l)).toList = -l :: rest' := by
        rw [Array.toList_setIfInBounds, hrest']
        rfl
      obtain rfl := (List.cons.inj (hrest.symm.trans hlist)).2
      rw [hiff, Literal.var_negate, Literal.negate_negate, Assignment.level_negate]
      exact ⟨hm, Trail.at'_mem hi, hlt⟩
    · exact h₄.1.analyzed h₃.level h0 hS hc rfl
  · exact h₃.minimized.analyzed h₃.level h0 hS hc rfl

end Conflict

/-! ## The counts of the walk -/

/-- The calls of `resolve` in the analysis of a conflict: on a level, with so many literals of the trail left, and with
a count of those that are still to be resolved on. -/
inductive Resolves (key : Key) (s : Solver ε) : Nat → Nat → Int → Solver ε → Prop
  /-- The first call. -/
  | start {ls opened s₁} : s.keyLiterals key = .ok ls → s.highestLevel ls ≠ 0 →
      noteAll (s.highestLevel ls) ls { s.backtrack (s.highestLevel ls) with learned := #[.invalid], analyzed := #[] } =
        .ok opened s₁ →
      Resolves key s (s.highestLevel ls) s₁.trail.size opened s₁
  /-- A literal is passed by. -/
  | skip {level n opened t} : Resolves key s level (n + 1) opened t → ¬ IsPivot level t n →
      Resolves key s level n opened t
  /-- A literal is resolved on. -/
  | pivot {level n opened t ls t₁ more t₂} : Resolves key s level (n + 1) opened t → IsPivot level t n → opened ≠ 1 →
      reasonLiterals (t.trail.at' n) t = .ok ls t₁ → noteAll level ls t₁ = .ok more t₂ →
      Resolves key s level n (opened - 1 + more) t₂

/-- What holds at each of these calls. -/
theorem Resolves.resolving {key : Key} {t : Solver ε} {level n : Nat} {opened : Int}
    (h : Resolves key s level n opened t) (hc : Conflicted lags s key) :
    s.trail.level ≠ 0 ∧ level = s.trail.level ∧ Resolving s t n opened := by
  obtain ⟨p, hinv, -, -⟩ := hc.inv
  induction h with
  | start hkey h0 hnote =>
    obtain ⟨ls, hkey', hls, hlevel⟩ := hc.exists_literals
    obtain rfl := Except.ok.inj (hkey.symm.trans hkey')
    rw [hlevel, backtrack_of_le s (Nat.le_refl _)] at hnote
    have hr := (hc.ends_noteAll (hlevel ▸ h0) hls).of_ok hnote
    exact ⟨hlevel ▸ h0, hlevel, hr.trail ▸ hr⟩
  | skip h hp ih =>
    obtain ⟨h0, rfl, hr⟩ := ih
    exact ⟨h0, rfl, hr.skip hinv.toFrame hp⟩
  | pivot h hp h1 hreason hnote ih =>
    obtain ⟨h0, rfl, hr⟩ := ih
    exact ⟨h0, rfl, ((hr.ends_pivot hinv.toFrame hinv.toWired h0 hp h1).of_ok hreason).of_ok hnote⟩

end Solver

end ClauseLearning
