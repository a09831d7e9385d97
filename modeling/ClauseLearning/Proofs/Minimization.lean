import ClauseLearning.Proofs.Resolution

/-!
# Minimization of the learnt clause

A literal may go if it is false wherever the others are.  What is found out about a variable is kept as a
mark, and a mark that says so is backed by a clause in which every other variable is at the root, in the
learnt clause, or has such a mark itself.  Those come earlier on the trail, so what the marks say holds by
induction along the trail.

* `Solver.Follows` — what the marks say of a variable.
* `Solver.Minimizing` — each mark is backed.
* `Solver.ends_redundant` — following reasons keeps this.
* `Solver.Minimizing.satisfies` — what is left of the clause still follows from what is known.
* `Solver.ends_minimize` — the whole of it.
-/

namespace ClauseLearning

namespace Solver

variable {ε : Type} {lags : Prop} {S s s' : Solver ε} {p i x : Nat} {l m : Literal} {levels : Array Bool}

/-- A variable is at the root, in the learnt clause, or was found to follow from it. -/
def Follows (s : Solver ε) (x : Nat) : Prop :=
  (s.assignment.record x).level = 0 ∨ (s.assignment.record x).removable = true ∨
    ((s.assignment.record x).analyzed = true ∧ (s.assignment.record x).level < s.trail.level)

/-- While the learnt clause is minimized, each variable that was found to follow from it has a reason
whose other variables do. -/
structure Minimizing (S s : Solver ε) : Prop extends Touched S s where
  /-- Every mark is listed. -/
  listed : ∀ x, (s.assignment.record x).removable = true ∨ (s.assignment.record x).poisoned = true →
    x ∈ s.minimized
  /-- A mark is backed by a clause that is known. -/
  backed : ∀ i < S.trail.size, (s.assignment.record (S.trail.at' i).var).removable = true →
    ∃ others, (∀ m ∈ others, -m ∈ S.trail.upTo i ∧ s.Follows m.var) ∧
      ∀ v, S.Holds v → v.Satisfies (S.trail.at' i :: others)

/-- More marks of minimization, and nothing else. -/
structure MoreMarked (s s' : Solver ε) : Prop where
  /-- Levels and marks of the resolvent stay. -/
  record : ∀ x, (s'.assignment.record x).level = (s.assignment.record x).level ∧
    (s'.assignment.record x).analyzed = (s.assignment.record x).analyzed
  /-- A variable that was found to follow still is. -/
  removable : ∀ x, (s.assignment.record x).removable = true →
    (s'.assignment.record x).removable = true
  /-- The list of marked variables stays. -/
  analyzed : s'.analyzed = s.analyzed
  /-- The trail stays. -/
  trail : s'.trail = s.trail

namespace MoreMarked

theorem refl (s : Solver ε) : MoreMarked s s := ⟨fun _ => ⟨rfl, rfl⟩, fun _ h => h, rfl, rfl⟩

theorem trans {s'' : Solver ε} (h : MoreMarked s s') (h' : MoreMarked s' s'') : MoreMarked s s'' :=
  ⟨fun x => ⟨(h'.record x).1.trans (h.record x).1, (h'.record x).2.trans (h.record x).2⟩,
    fun x hx => h'.removable x (h.removable x hx), h'.analyzed.trans h.analyzed,
    h'.trail.trans h.trail⟩

theorem follows (h : MoreMarked s s') (hx : s.Follows x) : s'.Follows x := by
  unfold Follows at *
  rw [(h.record x).1, (h.record x).2, h.trail]
  exact hx.imp_right (Or.imp_left (h.removable x))

end MoreMarked

/-- The reason of a literal, if there is one to be followed, is a clause that is known, whose other
literals became false before. -/
theorem Minimizing.ends_minimizeReason (h : Minimizing S s) (hw : S.Wired lags p) (hi : i < S.trail.size) :
    Ends (minimizeReason levels (s.assignment.record (S.trail.at' i).var)) s
      (fun found s' => s' = s ∧ ∀ others, found = some others →
        (∀ m ∈ others.toList, -m ∈ S.trail.upTo i) ∧
          ∀ v, S.Holds v → v.Satisfies (S.trail.at' i :: others.toList))
      (fun _ _ => False) := by
  have hg := hw.grounded i hi
  unfold minimizeReason
  rw [h.marks.reason, ends_ite]
  refine ⟨fun _ => ⟨rfl, fun _ ho => by simp at ho⟩, fun _ => ?_⟩
  cases hcase : (S.assignment.record (S.trail.at' i).var).reason with
  | decision => exact ⟨rfl, fun _ ho => by simp at ho⟩
  | unit => exact ⟨rfl, fun _ ho => by simp at ho⟩
  | binary o =>
    refine ⟨rfl, fun others ho => ?_⟩
    obtain rfl := Option.some.inj ho
    refine ⟨fun m hm => ?_, fun v hv => hv.reasons _ (Trail.at'_mem hi) o hcase⟩
    obtain rfl := List.mem_singleton.1 hm
    exact (hg.binary hcase).2.1
  | large r =>
    obtain ⟨-, hr, rest, hlits, hrest⟩ := hg.large hcase
    have hr' := h.store.current hr
    simp only [ends_bind, ends_get, ends_ofExcept, Store.literals?_of_current h.store.chain hr']
    refine ⟨fun ls hls => ?_, fun e he => by simp at he⟩
    obtain rfl := Except.ok.inj hls
    refine ⟨rfl, fun others ho => ?_⟩
    obtain rfl := Option.some.inj ho
    have hlist : (s.store.literalsAt r.offset).toList = S.trail.at' i :: rest := by
      rw [Store.literalsAt_toList (h.store.chain.mem hr'.2).2.fits, h.store.lits _ hr.2, hlits]
    rw [toList_drop, hlist]
    refine ⟨hrest, fun v hv => ?_⟩
    have := hv.large _ hr.2
    rwa [hlits] at this

section Marks

variable {n y : Nat} (hs : s.assignment.Sized n) (hx : x < n)
include hs hx

/-- The marks that note what was found out about a variable. -/
theorem record_noteRedundant (b : Bool) (y : Nat) : (s.noteRedundant x b).assignment.record y =
    if y = x then
      if b then { s.assignment.record x with removable := true } else { s.assignment.record x with poisoned := true }
    else s.assignment.record y := Assignment.record_modify hs hx _ y

/-- A variable is marked to go only if that was found out about it. -/
theorem removable_noteRedundant {b : Bool} (h : ((s.noteRedundant x b).assignment.record y).removable = true) :
    (s.assignment.record y).removable = true ∨ y = x ∧ b = true := by
  rw [record_noteRedundant hs hx] at h
  split at h
  · next he =>
    rw [he]
    cases b with
    | true => exact .inr ⟨rfl, rfl⟩
    | false => exact .inl h
  · exact .inl h

/-- A variable is marked to stay only if that was found out about it. -/
theorem poisoned_noteRedundant {b : Bool} (h : ((s.noteRedundant x b).assignment.record y).poisoned = true) :
    (s.assignment.record y).poisoned = true ∨ y = x ∧ b = false := by
  rw [record_noteRedundant hs hx] at h
  split at h
  · next he =>
    rw [he]
    cases b with
    | true => exact .inl h
    | false => exact .inr ⟨rfl, rfl⟩
  · exact .inl h

end Marks

/-- Noting what was found out about a variable. -/
theorem Minimizing.noteRedundant (h : Minimizing S s) (hS : S.Frame) (hi : i < S.trail.size) {b : Bool}
    (hb : b = true → ∃ others, (∀ m ∈ others, -m ∈ S.trail.upTo i ∧ s.Follows m.var) ∧
      ∀ v, S.Holds v → v.Satisfies (S.trail.at' i :: others)) :
    Minimizing S (s.noteRedundant (S.trail.at' i).var b) ∧
      MoreMarked s (s.noteRedundant (S.trail.at' i).var b) ∧
      (b = true → ((s.noteRedundant (S.trail.at' i).var b).assignment.record
        (S.trail.at' i).var).removable = true) := by
  have hlt := (hS.usable_of_mem (Trail.at'_mem hi)).1
  have hsized := h.marks.sized hS.sized
  have hrec := record_noteRedundant hsized hlt b
  have hmore : MoreMarked s (s.noteRedundant (S.trail.at' i).var b) := by
    refine ⟨fun y => ?_, fun y hy => ?_, rfl, rfl⟩
    · rw [hrec]
      split
      · next he =>
        rw [he]
        cases b <;> exact ⟨rfl, rfl⟩
      · exact ⟨rfl, rfl⟩
    · rw [hrec]
      split
      · next he =>
        rw [he] at hy
        cases b
        · exact hy
        · rfl
      · exact hy
  refine ⟨⟨h.toTouched.trans ⟨⟨s.store, _, s.learned, s.analyzed, _, rfl⟩, .refl h.store.chain,
    .modify hsized hlt (fun r => ?_) fun r => ?_⟩, fun y hy => ?_, fun j hj hr => ?_⟩, hmore,
    fun hb' => ?_⟩
  · cases b <;> rfl
  · cases b <;> rfl
  · rw [hrec] at hy
    refine Array.mem_push.2 ?_
    split at hy
    · next he => exact .inr he
    · exact .inl (h.listed y hy)
  · rw [hrec] at hr
    split at hr
    · next he =>
      -- the variable that was just marked
      have hji : S.trail.at' j = S.trail.at' i := by
        have := hS.trail.at'_inj hj hi he
        rw [this]
      have hback : ∃ others, (∀ m ∈ others, -m ∈ S.trail.upTo i ∧ s.Follows m.var) ∧
          ∀ v, S.Holds v → v.Satisfies (S.trail.at' i :: others) := by
        cases b with
        | true => exact hb rfl
        | false => exact h.backed i hi hr
      obtain rfl := hS.trail.at'_inj hj hi he
      obtain ⟨others, ho, hsat⟩ := hback
      exact ⟨others, fun m hm => ⟨(ho m hm).1, hmore.follows (ho m hm).2⟩, hsat⟩
    · obtain ⟨others, ho, hsat⟩ := h.backed j hj hr
      exact ⟨others, fun m hm => ⟨(ho m hm).1, hmore.follows (ho m hm).2⟩, hsat⟩
  · rw [hrec, if_pos rfl, hb']
    rfl

/-- What holds after a variable was judged: if the answer is that it follows from the learnt clause, then
so the marks say, and for a variable of the clause itself it is a mark of its own that says so. -/
structure Judged (S s : Solver ε) (x : Nat) (top b : Bool) (s' : Solver ε) : Prop where
  /-- Marks are backed. -/
  minimizing : Minimizing S s'
  /-- Marks were only added. -/
  more : MoreMarked s s'
  /-- What the answer means. -/
  follows : b = true → s'.Follows x
  /-- What it means for a variable of the clause. -/
  marked : b = true → top = true →
    (s'.assignment.record x).level = 0 ∨ (s'.assignment.record x).removable = true

/-- A variable that needs no reason to be followed. -/
theorem Minimizing.judged (h : Minimizing S s) (top : Bool)
    (hx : (s.assignment.record x).level < s.trail.level) :
    (((s.assignment.record x).level == 0 || (s.assignment.record x).removable) = true →
      Judged S s x top true s) ∧
    ((!top && (s.assignment.record x).analyzed) = true → Judged S s x top true s) ∧
    Judged S s x top false s := by
  refine ⟨fun hc => ⟨h, .refl s, fun _ => ?_, fun _ _ => ?_⟩, fun hc => ⟨h, .refl s, fun _ => ?_,
    fun _ ht => ?_⟩, h, .refl s, fun hb => by simp at hb, fun hb => by simp at hb⟩
  · simp only [Bool.or_eq_true, beq_iff_eq] at hc
    exact hc.imp_right .inl
  · simpa using hc
  · simp only [Bool.and_eq_true] at hc
    exact .inr (.inr ⟨hc.2, hx⟩)
  · simp [ht] at hc

/-- Following reasons meets no fault, and judges rightly. -/
theorem ends_redundant (levels : Array Bool) (hS : S.Frame) (hw : S.Wired lags p) (h : Minimizing S s)
    (hi : i < S.trail.size) (hlt : S.assignment.level (S.trail.at' i) < S.trail.level) (depth : Nat) (top : Bool) :
    Ends (redundant levels depth top (S.trail.at' i).var) s
      (fun b s' => Judged S s (S.trail.at' i).var top b s') (fun _ _ => False) := by
  induction depth generalizing s i top with
  | zero =>
    have hlev : (s.assignment.record (S.trail.at' i).var).level < s.trail.level := by
      rw [h.marks.level, h.trail]
      exact hlt
    obtain ⟨h1, h2, h3⟩ := h.judged top hlev
    rw [redundant]
    simp only [ends_bind, ends_get, ends_ite, ends_pure]
    exact ⟨h1, fun _ => ⟨fun _ => h3, fun _ => ⟨h2, fun _ => h3⟩⟩⟩
  | succ depth ih =>
    have hlev : (s.assignment.record (S.trail.at' i).var).level < s.trail.level := by
      rw [h.marks.level, h.trail]
      exact hlt
    obtain ⟨h1, h2, h3⟩ := h.judged top hlev
    rw [redundant]
    simp only [ends_bind, ends_get, ends_ite, ends_pure]
    refine ⟨h1, fun _ => ⟨fun _ => h3, fun _ => ⟨h2, fun _ => ?_⟩⟩⟩
    refine (h.ends_minimizeReason hw hi).imp (fun found s₁ h₁ => ?_) fun _ _ hf => hf
    obtain ⟨rfl, hfound⟩ := h₁
    cases found with
    | none =>
      simp only [ends_bind, ends_modify, ends_pure]
      obtain ⟨hm, hmore, -⟩ := h.noteRedundant hS hi (b := false) fun hb => by simp at hb
      exact ⟨hm, hmore, fun hb => by simp at hb, fun hb => by simp at hb⟩
    | some others =>
      obtain ⟨hothers, hsat⟩ := hfound others rfl
      simp only [ends_bind, ends_modify, ends_pure]
      refine (ends_allM (P := Minimizing S) (R := MoreMarked) (G := fun l s' => s'.Follows l.var)
        .refl (fun _ _ _ h₁ h₂ => h₁.trans h₂)
        (fun l _ _ hr hf => MoreMarked.follows (x := l.var) hr hf)
        (fun m hm s₂ h₂ => ?_) h).imp (fun b s₂ hs₂ => ?_) fun _ _ hf => hf
      · -- the other literals of the reason come earlier on the trail
        obtain ⟨j, hji, hjs, he⟩ := Trail.mem_upTo.1 (hothers m hm)
        have hle := hS.trail.level_mono (Nat.le_of_lt hji) hi
        have := ih h₂ hjs (Nat.lt_of_le_of_lt hle hlt) false
        rw [he, Literal.var_negate] at this
        exact this.imp (fun b s₃ h₃ => ⟨h₃.minimizing, h₃.more, h₃.follows⟩) fun _ _ hf => hf
      · obtain ⟨h₂, hmore₂, hg⟩ := hs₂
        obtain ⟨hm, hmore, hmark⟩ := h₂.noteRedundant hS hi (b := b) fun hb =>
          ⟨others.toList, fun m hm => ⟨hothers m hm, hg hb m hm⟩, hsat⟩
        exact ⟨hm, hmore₂.trans hmore, fun hb => .inr (.inl (hmark hb)), fun hb _ => .inr (hmark hb)⟩

/-! ## What is left -/

/-- What follows by its marks is false where the literals of the learnt clause are. -/
theorem Minimizing.makesTrue (h : Minimizing S s) {v : Valuation} (hv : S.Holds v)
    (hkept : ∀ i < S.trail.size, (s.assignment.record (S.trail.at' i).var).analyzed = true →
      S.assignment.level (S.trail.at' i) < S.trail.level →
      (s.assignment.record (S.trail.at' i).var).removable = false →
        v.makesTrue (S.trail.at' i) = true) :
    ∀ i < S.trail.size, s.Follows (S.trail.at' i).var → v.makesTrue (S.trail.at' i) = true := by
  intro i
  induction i using Nat.strongRecOn with
  | ind i ih =>
    intro hi hf
    by_cases hr : (s.assignment.record (S.trail.at' i).var).removable = true
    · obtain ⟨others, ho, hsat⟩ := h.backed i hi hr
      obtain ⟨m, hm, ht⟩ := hsat v hv
      rcases List.mem_cons.1 hm with rfl | hm
      · exact ht
      · obtain ⟨hup, hfm⟩ := ho m hm
        obtain ⟨j, hj, hjs, he⟩ := Trail.mem_upTo.1 hup
        have := ih j hj hjs (by rwa [he, Literal.var_negate])
        rw [he, Valuation.makesTrue_negate, ht] at this
        simp at this
    · rcases hf with h0 | hf | hf
      · rw [h.marks.level] at h0
        exact hv.root _ (Trail.at'_mem hi) h0
      · exact absurd hf hr
      · have hlt := hf.2
        rw [h.marks.level, h.trail] at hlt
        exact hkept i hi hf.1 hlt (by simpa using hr)

/-- Where a clause follows, what is left of it follows as well, if what was dropped is at the root or marked. -/
theorem Minimizing.satisfies (h : Minimizing S s) {v : Valuation} (hv : S.Holds v) {rest kept : List Literal}
    (hrest : ∀ m ∈ rest, -m ∈ S.trail.literals ∧ S.assignment.level m ≠ 0)
    (hall : ∀ i < S.trail.size, (s.assignment.record (S.trail.at' i).var).analyzed = true →
      S.assignment.level (S.trail.at' i) < S.trail.level → -S.trail.at' i ∈ rest)
    (hgone : ∀ m ∈ rest, m ∉ kept →
      (s.assignment.record m.var).level = 0 ∨ (s.assignment.record m.var).removable = true)
    (hsat : v.Satisfies (l :: rest)) : v.Satisfies (l :: kept) := by
  by_contra hc
  have hfalse : ∀ m ∈ l :: kept, v.makesTrue m = false := fun m hm => by
    by_contra ht
    exact hc ⟨m, hm, by simpa using ht⟩
  have htrue := h.makesTrue hv fun i hi ha hlt hr => by
    have hin := hall i hi ha hlt
    have hk : -S.trail.at' i ∈ kept := by
      by_contra hn
      rcases hgone _ hin hn with h0 | h0
      · rw [Literal.var_negate, h.marks.level] at h0
        exact (hrest _ hin).2 ((Assignment.level_negate ..).trans h0)
      · rw [Literal.var_negate, hr] at h0
        simp at h0
    have := hfalse _ (List.mem_cons_of_mem _ hk)
    rw [Valuation.makesTrue_negate] at this
    simpa using this
  -- a literal that satisfies the clause was dropped, so its negation is true as well
  obtain ⟨m, hm, ht⟩ := hsat
  have hmk : m ∉ l :: kept := fun hmk => by
    rw [hfalse m hmk] at ht
    simp at ht
  rw [List.mem_cons, not_or] at hmk
  have hmr := (List.mem_cons.1 hm).resolve_left hmk.1
  obtain ⟨j, hj, he⟩ := Trail.exists_at' (hrest m hmr).1
  have hfol : s.Follows (S.trail.at' j).var := by
    rw [he, Literal.var_negate]
    exact (hgone m hmr hmk.2).imp_right .inl
  have hneg := htrue j hj hfol
  rw [he, Valuation.makesTrue_negate, ht] at hneg
  simp at hneg

/-- When the marks are taken back, those of the resolvent stay. -/
theorem Minimizing.clear (h : Minimizing S s) :
    Touched S s.clearMinimized ∧ ∀ x, (s.clearMinimized.assignment.record x).removable = false ∧
      (s.clearMinimized.assignment.record x).poisoned = false ∧
      (s.clearMinimized.assignment.record x).analyzed = (s.assignment.record x).analyzed := by
  obtain ⟨hclear, hrec⟩ := Assignment.Remarked.foldl_modify s.assignment
    (f := fun r => { r with removable := false, poisoned := false }) rfl (fun _ => rfl)
    (fun _ => rfl) (fun _ => rfl) s.minimized.toList
  rw [Array.foldl_toList] at hclear hrec
  refine ⟨h.toTouched.trans ⟨⟨s.store, _, s.learned, s.analyzed, #[], rfl⟩, .refl h.store.chain, hclear⟩,
    fun x => ?_⟩
  rw [show s.clearMinimized.assignment.record x = _ from hrec x]
  split
  · exact ⟨rfl, rfl, rfl⟩
  · next hx =>
    have hx : x ∉ s.minimized := fun hm => hx (Array.mem_toList_iff.2 hm)
    refine ⟨?_, ?_, rfl⟩
    · by_contra hc
      exact hx (h.listed x (.inl (by simpa using hc)))
    · by_contra hc
      exact hx (h.listed x (.inr (by simpa using hc)))

/-- The learnt clause as minimization leaves it: it still follows from what is known, and no mark is left. -/
structure Minimized (S s : Solver ε) (l : Literal) : Prop extends Touched S s where
  /-- The list has the variables that were analyzed. -/
  marked : ∀ x, (s.assignment.record x).analyzed = true ↔ x ∈ s.analyzed
  /-- There are no marks of minimization. -/
  plain : ∀ x, (s.assignment.record x).removable = false ∧ (s.assignment.record x).poisoned = false
  /-- Every literal but the first is below the current level, and not at the root. -/
  learned : ∃ rest, s.learned.toList = -l :: rest ∧ (rest.map Literal.var).Nodup ∧
    ∀ m ∈ rest, -m ∈ S.trail.literals ∧ S.assignment.level m < S.trail.level ∧
      S.assignment.level m ≠ 0
  /-- The clause is known. -/
  implied : ∀ v, S.Holds v → v.Satisfies s.learned.toList

/-- The learnt clause before it is minimized. -/
theorem Resolved.minimized (h : Resolved S s l) :
    Minimized S { s with learned := s.learned.setIfInBounds 0 (-l) } l := by
  obtain ⟨rest, hrest, hnd, hiff⟩ := h.learned
  have hlist : (s.learned.setIfInBounds 0 (-l)).toList = -l :: rest := by
    rw [Array.toList_setIfInBounds, hrest]
    rfl
  have ht : Touched S { s with learned := s.learned.setIfInBounds 0 (-l) } := by
    obtain ⟨⟨st, a, _, an, mn, he⟩, hs, hm⟩ := h.toTouched
    exact ⟨⟨st, a, _, an, mn, by rw [he]⟩, hs, hm⟩
  refine ⟨ht, h.marked, h.plain, ⟨rest, hlist, hnd, fun m hm => ?_⟩, fun v hv => ?_⟩
  · obtain ⟨h1, h2, h3⟩ := (hiff m).1 hm
    exact ⟨h2, h3, (h.seen _ h1).1⟩
  · rw [hlist]
    exact h.implied rest hrest v hv

/-- Before minimization there are no marks of it. -/
theorem Minimized.minimizing (h : Minimized S s l) : Minimizing S { s with learned := #[] } := by
  obtain ⟨⟨st, a, _, an, mn, he⟩, hs, hm⟩ := h.toTouched
  refine ⟨⟨⟨st, a, _, an, mn, by rw [he]⟩, hs, hm⟩, fun x hx => ?_, fun i _ hr => ?_⟩
  · simp only [(h.plain x).1, (h.plain x).2] at hx
    simp at hx
  · rw [show ({ s with learned := #[] } : Solver ε).assignment = s.assignment from rfl, (h.plain _).1] at hr
    simp at hr

/-- Minimization meets no fault, and what it leaves of the learnt clause still follows. -/
theorem ends_minimize (hS : S.Frame) (hw : S.Wired lags p) {level : Nat} (h : Minimized S s l)
    (hall : ∀ rest, s.learned.toList = -l :: rest → ∀ i < S.trail.size,
      (S.trail.at' i).var ∈ s.analyzed → S.assignment.level (S.trail.at' i) < S.trail.level →
        -S.trail.at' i ∈ rest) :
    Ends (minimize level) s (fun _ s' => Minimized S s' l ∧ s'.analyzed = s.analyzed)
      (fun _ _ => False) := by
  obtain ⟨rest, hlist, hnd, hrest⟩ := h.learned
  unfold minimize
  simp only [ends_bind, ends_get, ends_modify, hlist, List.drop_succ_cons, List.drop_zero]
  refine (ends_filterM (P := Minimizing S) (R := MoreMarked)
    (G := fun m s' => (s'.assignment.record m.var).level = 0 ∨
      (s'.assignment.record m.var).removable = true)
    .refl (fun _ _ _ h₁ h₂ => h₁.trans h₂) (fun m _ _ hr hg => ?_) (fun m hm s₂ h₂ => ?_) h.minimizing).imp
    (fun kept s₂ hs₂ => ?_) fun _ _ hf => hf
  · -- what was found out stays
    rw [(hr.record m.var).1]
    exact hg.imp_right (hr.removable m.var)
  · -- one literal
    obtain ⟨hmem, hlt, -⟩ := hrest m hm
    obtain ⟨j, hj, he⟩ := Trail.exists_at' hmem
    have hlev : S.assignment.level (S.trail.at' j) < S.trail.level := by
      rw [he, Assignment.level_negate]
      exact hlt
    have hred := ends_redundant (levelTable { s with learned := #[] } level rest) hS hw h₂ hj hlev
      (minimizeDepth + 1) true
    rw [he, Literal.var_negate] at hred
    simp only [ends_bind, ends_pure]
    exact hred.imp (fun b s₃ h₃ => ⟨h₃.minimizing, h₃.more, fun hb => h₃.marked (by simpa using hb) rfl⟩)
      fun _ _ hf => hf
  · -- all of them
    obtain ⟨h₂, hmore, hsub, hgone⟩ := hs₂
    obtain ⟨htouched, hclear⟩ := h₂.clear
    obtain ⟨⟨st, a, _, an, mn, he⟩, hs, hm⟩ := htouched
    have hlearned : (s.learned.take 1 ++ kept).toList = -l :: kept := by
      simp [hlist]
    refine ⟨⟨⟨⟨st, a, _, an, mn, by rw [he]⟩, hs, hm⟩, fun x => ?_, fun x => ⟨(hclear x).1, (hclear x).2.1⟩,
      ⟨kept, hlearned, hnd.sublist (hsub.map _), fun m hm => hrest m (hsub.subset hm)⟩, fun v hv => ?_⟩,
      hmore.analyzed⟩
    · have hmarked : (s₂.clearMinimized.assignment.record x).analyzed = true ↔ x ∈ s₂.analyzed := by
        rw [(hclear x).2.2, (hmore.record x).2, hmore.analyzed]
        exact h.marked x
      exact hmarked
    · have hsat : v.Satisfies (-l :: rest) := hlist ▸ h.implied v hv
      have hkept := h₂.satisfies hv (fun m hm => ⟨(hrest m hm).1, (hrest m hm).2.2⟩)
        (fun i hi ha hlt => hall rest hlist i hi ((h.marked _).1 ((hmore.record _).2.symm.trans ha)) hlt) hgone hsat
      rw [← hlearned] at hkept
      exact hkept

end Solver

end ClauseLearning
