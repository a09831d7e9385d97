import ClauseLearning.Proofs.Notes
import ClauseLearning.Proofs.Propagation
import ClauseLearning.Solver.Analysis

/-!
# Resolution along the trail

The resolvent is kept as marks on variables: those on the conflict level whose literals are still to be
come to, and those below it, whose literals are in the learnt clause already.  The walk goes down from the
end of the trail, and `opened` says how many of the former there are.  So it is never zero where one is
taken from it, and a reason is only looked for where another marked literal of the level is further down,
which is never so for a decision.

* `Solver.Noted` — what the marks, the list of marked variables and the learnt clause say of each other.
* `Solver.openAt` — the count of marked literals of the conflict level on a first part of the trail.
* `Solver.Implied` — the resolvent follows from what is known.
* `Solver.ends_resolve` — the walk ends at a literal which is the only one of its level.
-/

namespace ClauseLearning

/-- One more element of a list satisfies a predicate. -/
theorem countP_succ {α β : Type} [BEq β] [LawfulBEq β] {f : α → β} {p q : α → Bool} {x : α} {ls : List α}
    (hn : (ls.map f).Nodup) (hx : x ∈ ls) (hp : p x = false)
    (hq : ∀ l ∈ ls, q l = (p l || f l == f x)) : ls.countP q = ls.countP p + 1 := by
  induction ls with
  | nil => simp at hx
  | cons l ls ih =>
    rw [List.map_cons, List.nodup_cons] at hn
    have hq' := fun l hl => hq l (List.mem_cons_of_mem _ hl)
    by_cases hlx : x = l
    · subst hlx
      have hrest : ls.countP q = ls.countP p := by
        refine List.countP_congr fun l hl => ?_
        have : (f l == f x) = false := by
          rw [beq_eq_false_iff_ne]
          intro he
          exact hn.1 (he ▸ List.mem_map_of_mem hl)
        rw [hq' l hl, this, Bool.or_false]
      have hqx : q x = true := by
        rw [hq x (List.mem_cons_self ..)]
        simp
      rw [List.countP_cons_of_pos hqx, List.countP_cons_of_neg (by simp [hp]), hrest]
    · have hmem := (List.mem_cons.1 hx).resolve_left hlx
      have hne : (f l == f x) = false := by
        rw [beq_eq_false_iff_ne]
        intro he
        exact hn.1 (he ▸ List.mem_map_of_mem hmem)
      have hql : q l = p l := by
        rw [hq l (List.mem_cons_self ..), hne, Bool.or_false]
      have := ih hn.2 hmem hq'
      simp only [List.countP_cons, hql, this]
      omega

theorem toList_drop {α : Type} (xs : Array α) (i : Nat) : (xs.drop i).toList = xs.toList.drop i := by
  rw [Array.drop_eq_extract, Array.toList_extract, List.extract_eq_take_drop, List.take_of_length_le]
  exact Nat.le_of_eq (by rw [List.length_drop, Array.length_toList])

namespace Solver

variable {ε : Type} {lags : Prop} {S s s' : Solver ε} {n k p : Nat} {l m : Literal} {ms : List Literal} {x : Nat}

/-! ## Marks -/

/-- What the marks of analyzed variables, their list and the learnt clause say of each other. -/
structure Noted (S s : Solver ε) : Prop extends Touched S s where
  /-- The list has the variables with a mark. -/
  marked : ∀ x, (s.assignment.record x).analyzed = true ↔ x ∈ s.analyzed
  /-- They are assigned, and not at the root. -/
  seen : ∀ x ∈ s.analyzed, (S.assignment.record x).level ≠ 0 ∧
    x ∈ S.trail.literals.toList.map Literal.var
  /-- After the place of its first literal, the learnt clause has the false literals of those below the
  current level. -/
  learned : ∃ rest, s.learned.toList = .invalid :: rest ∧ (rest.map Literal.var).Nodup ∧
    ∀ l, l ∈ rest ↔ l.var ∈ s.analyzed ∧ -l ∈ S.trail.literals ∧
      S.assignment.level l < S.trail.level
  /-- There are no marks of minimization. -/
  plain : ∀ x, (s.assignment.record x).removable = false ∧ (s.assignment.record x).poisoned = false

/-- The count of marked literals of the current level among the first `n` on the trail. -/
def openAt (s : Solver ε) (n : Nat) : Nat :=
  (s.trail.upTo n).countP fun l =>
    (s.assignment.record l.var).analyzed && (s.assignment.record l.var).level == s.trail.level

/-- What is marked stays marked. -/
def MoreNoted (s s' : Solver ε) : Prop := ∀ x ∈ s.analyzed, x ∈ s'.analyzed

/-- The solver with one more marked variable. -/
def marked (s : Solver ε) (x : Nat) : Solver ε :=
  { s with
    assignment := s.assignment.modify x fun r => { r with analyzed := true }
    analyzed := s.analyzed.push x }

theorem note_eq (level k : Nat) (s : Solver ε) (l : Literal) :
    note level (k, s) l =
      if (s.assignment.record l.var).analyzed = true ∨ s.assignment.level l = 0 then (k, s)
      else if s.assignment.level l = level then (k + 1, s.marked l.var)
      else (k, { s.marked l.var with learned := s.learned.push l }) := by
  unfold note
  simp only [Bool.or_eq_true, beq_iff_eq]
  rfl

section Mark

variable (h : Noted S s) (hS : S.Frame) (hx : x < S.numbering.size)
include h hS hx

theorem Noted.record_marked (y : Nat) :
    (s.marked x).assignment.record y =
      if y = x then { s.assignment.record x with analyzed := true } else s.assignment.record y :=
  Assignment.record_modify (h.marks.sized hS.sized) hx _ y

theorem Noted.touched_marked : Touched S (s.marked x) := by
  refine h.toTouched.trans ⟨⟨s.store, _, s.learned, _, s.minimized, rfl⟩, .refl h.store.chain, ?_⟩
  exact .modify (h.marks.sized hS.sized) hx (fun _ => rfl) fun _ => rfl

theorem Noted.marked_iff (y : Nat) :
    ((s.marked x).assignment.record y).analyzed = true ↔ y ∈ (s.marked x).analyzed := by
  rw [h.record_marked hS hx]
  simp only [Solver.marked, Array.mem_push]
  by_cases hy : y = x
  · simp [hy]
  · simp [hy, h.marked y]

theorem Noted.plain_marked (y : Nat) :
    ((s.marked x).assignment.record y).removable = false ∧
      ((s.marked x).assignment.record y).poisoned = false := by
  rw [h.record_marked hS hx]
  split
  · exact h.plain x
  · exact h.plain y

end Mark

/-- A mark on a literal of the first part of the trail counts if it is of the current level. -/
theorem Noted.openAt_marked (h : Noted S s) (hS : S.Frame) (hm : -m ∈ S.trail.upTo n)
    (hnew : (s.assignment.record m.var).analyzed = false) :
    (s.marked m.var).openAt n =
      if S.assignment.level m = S.trail.level then s.openAt n + 1 else s.openAt n := by
  have hmem := Trail.mem_of_mem_upTo hm
  have hlt : m.var < S.numbering.size := (hS.usable_of_neg_mem hmem).1
  have hrec := h.record_marked hS hlt
  have hlev : ∀ y, (s.assignment.record y).level = (S.assignment.record y).level := h.marks.level
  have hn : ((s.trail.upTo n).map Literal.var).Nodup := by
    rw [h.trail, Trail.upTo, List.map_take]
    exact hS.trail.nodup.sublist (List.take_sublist ..)
  have hm' : -m ∈ s.trail.upTo n := by
    rw [h.trail]
    exact hm
  unfold openAt
  split
  · next hL =>
    refine countP_succ (f := Literal.var) hn hm' ?_ fun l _ => ?_
    · rw [Literal.var_negate, hnew]
      rfl
    · simp only [hrec, Literal.var_negate]
      by_cases hl : l.var = m.var
      · simp only [hl, if_true, hnew, Bool.false_and, Bool.true_and, Bool.false_or, beq_self_eq_true]
        rw [hlev, show (s.marked m.var).trail = S.trail from h.trail]
        exact beq_iff_eq.2 hL
      · simp only [hl, if_false, beq_eq_false_iff_ne.2 hl, Bool.or_false]
        rfl
  · next hL =>
    refine List.countP_congr fun l _ => ?_
    simp only [hrec]
    by_cases hl : l.var = m.var
    · have hne : ((s.assignment.record m.var).level == S.trail.level) = false := by
        rw [beq_eq_false_iff_ne, hlev]
        exact hL
      simp only [hl, if_true, hnew, show (s.marked m.var).trail = S.trail from h.trail, h.trail, hne,
        Bool.and_false]
    · simp only [hl, if_false]
      exact Iff.rfl

section Note

variable (h : Noted S s) (hS : S.Frame) (hmem : -m ∈ S.trail.literals) (h0 : S.assignment.level m ≠ 0)
include h hS hmem

omit hS in
include h0 in
theorem Noted.seen_marked : ∀ x ∈ (s.marked m.var).analyzed, (S.assignment.record x).level ≠ 0 ∧
    x ∈ S.trail.literals.toList.map Literal.var := by
  intro x hx
  rcases Array.mem_push.1 hx with hx | rfl
  · exact h.seen x hx
  · exact ⟨h0, Literal.var_negate m ▸ List.mem_map_of_mem (Array.mem_toList_iff.2 hmem)⟩

include h0

/-- A literal of the current level is marked. -/
theorem Noted.note_current (hlev : S.assignment.level m = S.trail.level) : Noted S (s.marked m.var) := by
  have hlt := (hS.usable_of_neg_mem hmem).1
  obtain ⟨rest, hrest, hnd, hiff⟩ := h.learned
  refine ⟨h.touched_marked hS hlt, h.marked_iff hS hlt, h.seen_marked hmem h0, ⟨rest, hrest, hnd, fun l => ?_⟩,
    h.plain_marked hS hlt⟩
  rw [hiff]
  constructor
  · rintro ⟨h1, h2⟩
    exact ⟨Array.mem_push.2 (.inl h1), h2⟩
  · rintro ⟨h1, h2, h3⟩
    rcases Array.mem_push.1 h1 with h1 | h1
    · exact ⟨h1, h2, h3⟩
    · rw [Assignment.level, h1] at h3
      exact absurd hlev (Nat.ne_of_lt h3)

/-- A literal below the current level is marked, and goes into the learnt clause. -/
theorem Noted.note_below (hlev : S.assignment.level m < S.trail.level)
    (hnew : (s.assignment.record m.var).analyzed = false) :
    Noted S { s.marked m.var with learned := s.learned.push m } := by
  have hlt := (hS.usable_of_neg_mem hmem).1
  obtain ⟨rest, hrest, hnd, hiff⟩ := h.learned
  have hold : m.var ∉ s.analyzed := fun hx => by
    rw [← h.marked, hnew] at hx
    simp at hx
  refine ⟨?_, h.marked_iff hS hlt, h.seen_marked hmem h0, ⟨rest ++ [m], ?_, ?_, fun l => ?_⟩,
    h.plain_marked hS hlt⟩
  · obtain ⟨⟨st, a, ln, an, mn, he⟩, hs', hm'⟩ := h.touched_marked hS hlt
    exact ⟨⟨st, a, s.learned.push m, an, mn, by rw [he]⟩, hs', hm'⟩
  · simp [hrest]
  · rw [List.map_append, List.nodup_append]
    refine ⟨hnd, by simp, fun a ha b hb => ?_⟩
    simp only [List.map_cons, List.map_nil, List.mem_singleton] at hb
    obtain ⟨l, hl, rfl⟩ := List.mem_map.1 ha
    rintro rfl
    exact hold (hb ▸ ((hiff l).1 hl).1)
  · rw [List.mem_append, hiff, List.mem_singleton]
    constructor
    · rintro (⟨h1, h2⟩ | rfl)
      · exact ⟨Array.mem_push.2 (.inl h1), h2⟩
      · exact ⟨Array.mem_push_self, hmem, hlev⟩
    · rintro ⟨h1, h2, h3⟩
      rcases Array.mem_push.1 h1 with h1 | h1
      · exact .inl ⟨h1, h2, h3⟩
      · rcases Literal.var_eq_iff.1 h1 with rfl | rfl
        · exact .inr rfl
        · -- the negation of a false literal is true
          rw [Literal.negate_negate] at h2
          exact absurd hmem (hS.trail.not_mem_of_neg_mem hS.sized (by rwa [Literal.negate_negate]))

end Note

/-- Adding a literal to the resolvent. -/
theorem Noted.note (h : Noted S s) (hS : S.Frame) (hm : -m ∈ S.trail.upTo n) :
    Noted S (note S.trail.level (k, s) m).2 ∧
      (note S.trail.level (k, s) m).1 + s.openAt n =
        k + (note S.trail.level (k, s) m).2.openAt n ∧
      MoreNoted s (note S.trail.level (k, s) m).2 ∧
      (S.assignment.level m ≠ 0 → m.var ∈ (note S.trail.level (k, s) m).2.analyzed) := by
  have hmem := Trail.mem_of_mem_upTo hm
  have hlev : s.assignment.level m = S.assignment.level m := by rw [h.marks.level_eq]
  have hle : S.assignment.level m ≤ S.trail.level := by
    rw [← Assignment.level_negate]
    exact hS.trail.level_le_of_mem hmem
  rw [note_eq, hlev]
  split
  · next hc =>
    refine ⟨h, rfl, fun _ hx => hx, fun h0 => ?_⟩
    exact (h.marked _).1 (hc.resolve_right h0)
  · next hc =>
    obtain ⟨hnew, h0⟩ := not_or.1 hc
    have hnew : (s.assignment.record m.var).analyzed = false := by simpa using hnew
    have hmore : MoreNoted s (s.marked m.var) := fun x hx => Array.mem_push.2 (.inl hx)
    have hself : m.var ∈ (s.marked m.var).analyzed := Array.mem_push_self
    have hopen := h.openAt_marked hS hm hnew
    split
    · next hL =>
      rw [if_pos hL] at hopen
      exact ⟨h.note_current hS hmem h0 hL, by simp only [hopen]; omega, hmore, fun _ => hself⟩
    · next hL =>
      rw [if_neg hL] at hopen
      exact ⟨h.note_below hS hmem h0 (Nat.lt_of_le_of_ne hle hL) hnew, by simp only [openAt] at hopen ⊢; omega,
        hmore, fun _ => hself⟩

/-- Adding several literals to the resolvent. -/
theorem Noted.noteAll (h : Noted S s) (hS : S.Frame) (hm : ∀ m ∈ ms, -m ∈ S.trail.upTo n) :
    Noted S (ms.foldl (Solver.note S.trail.level) (k, s)).2 ∧
      (ms.foldl (Solver.note S.trail.level) (k, s)).1 + s.openAt n =
        k + (ms.foldl (Solver.note S.trail.level) (k, s)).2.openAt n ∧
      MoreNoted s (ms.foldl (Solver.note S.trail.level) (k, s)).2 ∧
      ∀ m ∈ ms, S.assignment.level m ≠ 0 →
        m.var ∈ (ms.foldl (Solver.note S.trail.level) (k, s)).2.analyzed := by
  induction ms generalizing k s with
  | nil => exact ⟨h, rfl, fun _ hx => hx, fun m hm => by simp at hm⟩
  | cons m ms ih =>
    obtain ⟨h1, h2, h3, h4⟩ := h.note hS (k := k) (hm m (List.mem_cons_self ..))
    rw [List.foldl_cons]
    generalize Solver.note S.trail.level (k, s) m = y at h1 h2 h3 h4 ⊢
    obtain ⟨k', s'⟩ := y
    have h1 : Noted S s' := h1
    obtain ⟨i1, i2, i3, i4⟩ := ih (k := k') h1 fun m' hm' => hm m' (List.mem_cons_of_mem _ hm')
    simp only at h2 h3 h4
    refine ⟨i1, by omega, fun x hx => i3 x (h3 x hx), fun m' hm' h0 => ?_⟩
    rcases List.mem_cons.1 hm' with rfl | hm'
    · exact i3 _ (h4 h0)
    · exact i4 m' hm' h0

theorem ends_noteAll {level : Nat} {ls : Array Literal} {Q : Nat → Solver ε → Prop}
    {E : Fault → Solver ε → Prop} :
    Ends (Solver.noteAll level ls) s Q E ↔
      Q (ls.toList.foldl (Solver.note level) (0, s)).1 (ls.toList.foldl (Solver.note level) (0, s)).2 := by
  rw [Array.foldl_toList]
  exact Iff.rfl

/-- Other notes of how recently clauses were used do not matter. -/
theorem Noted.reused {st' : Store} (h : Noted S s) (hst : s.store.Reused st') :
    Noted S { s with store := st' } := by
  obtain ⟨⟨_, a, ln, an, mn, he⟩, hs, hm⟩ := h.toTouched
  exact { h with
    eq := ⟨st', a, ln, an, mn, by rw [he]⟩
    store := hs.trans hst
    marks := hm }

/-! ## Reasons -/

/-- A clause that counts as used is changed in nothing else. -/
theorem ends_noteUsed {r : Reference} (hc : s.store.Chain 0) (hr : s.store.Current r) :
    Ends (noteUsed r) s (fun _ s' => ∃ store, s' = { s with store } ∧ s.store.Reused store)
      (fun _ _ => False) := by
  unfold noteUsed
  simp only [ends_bind, ends_onStore, Store.ends_locate hc hr, ends_get]
  split
  · simp only [ends_onStore]
    refine (Store.ends_updateFlags hc hr).imp (fun _ st' h => ⟨st', rfl, ?_⟩) fun _ _ h => h
    exact .of_reflagged h rfl
  · exact ⟨s.store, rfl, .refl hc⟩

/-- The reason of a literal which is neither a decision nor at the root.  Its literals became false before,
and it is one of the clauses that are known. -/
theorem Noted.ends_reasonLiterals (h : Noted S s) (hw : S.Wired lags p)
    (hn : n < S.trail.size) (hd : S.assignment.reason (S.trail.at' n) ≠ .decision)
    (hu : S.assignment.reason (S.trail.at' n) ≠ .unit) :
    Ends (reasonLiterals (S.trail.at' n)) s
      (fun ls s' => (∃ store, s' = { s with store } ∧ s.store.Reused store) ∧
        (∀ m ∈ ls.toList, -m ∈ S.trail.upTo n) ∧
        ∀ v, S.Holds v → v.Satisfies (S.trail.at' n :: ls.toList))
      (fun _ _ => False) := by
  have hg := hw.grounded n hn
  have hreason : s.assignment.reason (S.trail.at' n) = S.assignment.reason (S.trail.at' n) := by
    rw [h.marks.reason_eq]
  unfold reasonLiterals
  simp only [ends_bind, ends_get, hreason]
  cases hcase : S.assignment.reason (S.trail.at' n) with
  | decision => exact absurd hcase hd
  | unit => exact absurd hcase hu
  | binary o =>
    refine ⟨⟨s.store, rfl, .refl h.store.chain⟩, fun m hm => ?_, fun v hv => ?_⟩
    · simp only [List.mem_singleton] at hm
      rw [hm]
      exact (hg.binary hcase).2.1
    · exact hv.reasons _ (Trail.at'_mem hn) o hcase
  | large r =>
    obtain ⟨-, hr, rest, hlits, hrest⟩ := hg.large hcase
    simp only [ends_bind]
    refine (ends_noteUsed h.store.chain (h.store.current hr)).imp (fun _ s' hs' => ?_) fun _ _ h => h
    obtain ⟨st', rfl, hst⟩ := hs'
    simp only [ends_get, ends_pure]
    have ho : r.offset ∈ st'.offsets := by
      rw [hst.offsets, h.store.offsets]
      exact hr.2
    have hlist : (st'.literalsAt r.offset).toList = S.trail.at' n :: rest := by
      rw [Store.literalsAt_toList (hst.chain.mem ho).2.fits, hst.lits _ (h.store.offsets.symm ▸ hr.2),
        h.store.lits _ hr.2, hlits]
    have hdrop : ((st'.literalsAt r.offset).drop 1).toList = rest := by
      rw [toList_drop, hlist]
      rfl
    refine ⟨⟨st', rfl, hst⟩, fun m hm => hrest m (hdrop ▸ hm), fun v hv => ?_⟩
    rw [hdrop, ← hlits]
    exact hv.large _ hr.2

/-! ## The walk -/

/-- The literals that are in the resolvent, or are still to be resolved on, when the walk has come down to
the first `n` literals of the trail: a valuation for which all that is known is true makes one of their
negations true. -/
def Implied (S s : Solver ε) (n : Nat) : Prop :=
  ∀ v, S.Holds v → ∃ i < S.trail.size, (S.trail.at' i).var ∈ s.analyzed ∧
    (i < n ∨ S.assignment.level (S.trail.at' i) < S.trail.level) ∧
      v.makesTrue (-S.trail.at' i) = true

/-- A literal of a clause that is satisfied is in the resolvent once all of them were added. -/
theorem Implied.of_satisfies {v : Valuation} (hv : S.Holds v)
    (hms : ∀ m ∈ ms, -m ∈ S.trail.upTo n)
    (hin : ∀ m ∈ ms, S.assignment.level m ≠ 0 → m.var ∈ s.analyzed) (hm : m ∈ ms)
    (ht : v.makesTrue m = true) :
    ∃ i < S.trail.size, (S.trail.at' i).var ∈ s.analyzed ∧
      (i < n ∨ S.assignment.level (S.trail.at' i) < S.trail.level) ∧
        v.makesTrue (-S.trail.at' i) = true := by
  obtain ⟨i, hi, hs, he⟩ := Trail.mem_upTo.1 (hms m hm)
  have h0 : S.assignment.level m ≠ 0 := fun h0 => by
    have := hv.root (-m) (he ▸ Trail.at'_mem hs) (by rwa [Assignment.level_negate])
    rw [Valuation.makesTrue_negate, ht] at this
    simp at this
  refine ⟨i, hs, ?_, .inl hi, ?_⟩
  · rw [he, Literal.var_negate]
    exact hin m hm h0
  · rwa [he, Literal.negate_negate]

/-- The outcome of the walk: the literal at some position is the only one of the current level which is in
the resolvent. -/
structure Resolved (S s : Solver ε) (l : Literal) : Prop extends Noted S s where
  /-- The literal is on the current level. -/
  level : l ∈ S.trail.literals ∧ S.assignment.level l = S.trail.level
  /-- The resolvent is known. -/
  implied : ∀ rest, s.learned.toList = .invalid :: rest → ∀ v, S.Holds v → v.Satisfies (-l :: rest)

/-- Whether the walk stops at the literal at a position, since it is in the resolvent and on the level. -/
def IsPivot (level : Nat) (s : Solver ε) (n : Nat) : Prop :=
  (s.assignment.record (s.trail.at' n).var).analyzed = true ∧ s.assignment.level (s.trail.at' n) = level

instance (level : Nat) (s : Solver ε) (n : Nat) : Decidable (IsPivot level s n) :=
  inferInstanceAs (Decidable (_ ∧ _))

theorem openAt_succ (hn : n < s.trail.size) :
    s.openAt (n + 1) = s.openAt n + if IsPivot s.trail.level s n then 1 else 0 := by
  have hup : s.trail.upTo (n + 1) = s.trail.upTo n ++ [s.trail.at' n] := by
    simp only [Trail.upTo, Trail.size, Trail.at'] at *
    rw [List.take_succ_eq_append_getElem (by rwa [Array.length_toList])]
    simp [hn]
  simp only [openAt, hup, List.countP_append, List.countP_singleton, Bool.and_eq_true, beq_iff_eq]
  rfl

theorem Noted.openAt_ne_zero (h : Noted S s) {i : Nat} (hi : i < n) (his : i < S.trail.size)
    (hm : (S.trail.at' i).var ∈ s.analyzed)
    (hL : S.assignment.level (S.trail.at' i) = S.trail.level) : s.openAt n ≠ 0 := by
  refine Nat.ne_of_gt (List.countP_pos_iff.2 ⟨S.trail.at' i, ?_, ?_⟩)
  · rw [h.trail]
    exact Trail.mem_upTo.2 ⟨i, hi, his, rfl⟩
  · rw [(h.marked _).2 hm, h.marks.level, h.trail]
    exact beq_iff_eq.2 hL

/-- Where two literals of the current level are marked, the upper one is no decision and not at the root. -/
theorem Noted.reason_of_open (h : Noted S s) (hS : S.Frame) (hw : S.Wired lags p)
    (hlev : S.trail.level ≠ 0) (hn : n < S.trail.size)
    (hL : S.assignment.level (S.trail.at' n) = S.trail.level) (hopen : s.openAt n ≠ 0) :
    S.assignment.reason (S.trail.at' n) ≠ .decision ∧
      S.assignment.reason (S.trail.at' n) ≠ .unit := by
  obtain ⟨l, hl, hp⟩ := List.countP_pos_iff.1 (Nat.pos_of_ne_zero hopen)
  rw [h.trail] at hl
  obtain ⟨i, hi, his, rfl⟩ := Trail.mem_upTo.1 hl
  simp only [Bool.and_eq_true, beq_iff_eq, h.marks.level, h.trail] at hp
  constructor
  · intro hr
    have h1 := ((hw.grounded n hn).decision hr).2
    have h2 := (hS.trail.level_iff i his S.trail.level (Nat.le_succ _)).2 (Nat.le_of_eq hp.2.symm)
    rw [hL] at h1
    omega
  · intro hr
    exact hlev (hL ▸ (hw.grounded n hn).unit hr)

/-- What holds where the walk has come down to the first `n` literals of the trail. -/
structure Resolving (S s : Solver ε) (n : Nat) (opened : Int) : Prop extends Noted S s where
  /-- They are on the trail. -/
  le : n ≤ S.trail.size
  /-- The resolvent is known. -/
  implied : Implied S s n
  /-- The count is right. -/
  count : opened = s.openAt n
  /-- Some literal of the current level is left. -/
  open_ne : s.openAt n ≠ 0

namespace Resolving

variable {opened : Int}

/-- Neither the position nor the count is zero. -/
theorem pos (h : Resolving S s n opened) : 1 ≤ n ∧ 1 ≤ opened := by
  have hc := h.count
  have hne := h.open_ne
  refine ⟨Nat.one_le_iff_ne_zero.2 fun hn => ?_, by omega⟩
  rw [hn] at hne
  simp [openAt, Trail.upTo] at hne

theorem at'_eq (h : Resolving S s n opened) (i : Nat) : s.trail.at' i = S.trail.at' i := by rw [h.trail]

/-- A literal that is not in the resolvent, or below the current level, is passed by. -/
theorem skip (h : Resolving S s (n + 1) opened) (hS : S.Frame) (hc : ¬ IsPivot S.trail.level s n) :
    Resolving S s n opened := by
  have hlt : n < S.trail.size := h.le
  have hsucc := openAt_succ (s := s) (n := n) (by rw [h.trail]; exact hlt)
  have hcount := h.count
  have hne := h.open_ne
  rw [show s.trail.level = S.trail.level by rw [h.trail], if_neg hc] at hsucc
  refine { h with le := Nat.le_of_lt hlt, implied := fun v hv => ?_, count := by omega, open_ne := by omega }
  obtain ⟨i, his, hmem, hpos, ht⟩ := h.implied v hv
  refine ⟨i, his, hmem, ?_, ht⟩
  rcases hpos with hpos | hpos
  · by_cases hin : i = n
    · subst hin
      refine .inr (Nat.lt_of_le_of_ne (hS.trail.level_le his) fun he => hc ?_)
      rw [IsPivot, h.at'_eq, h.marked, h.marks.level_eq]
      exact ⟨hmem, he⟩
    · exact .inl (by omega)
  · exact .inr hpos

/-- If it is the only one of the current level, whatever else is in the resolvent is below. -/
theorem last (h : Resolving S s (n + 1) opened) (hS : S.Frame) (hc : IsPivot S.trail.level s n) (h1 : opened = 1) :
    Resolved S s (s.trail.at' n) := by
  have hlt : n < S.trail.size := h.le
  have hsucc := openAt_succ (s := s) (n := n) (by rw [h.trail]; exact hlt)
  have hcount := h.count
  rw [show s.trail.level = S.trail.level by rw [h.trail], if_pos hc] at hsucc
  have h0 : s.openAt n = 0 := by omega
  have hL : S.assignment.level (S.trail.at' n) = S.trail.level := by
    rw [← h.at'_eq, ← h.marks.level_eq]
    exact hc.2
  rw [h.at'_eq]
  refine ⟨h.toNoted, ⟨Trail.at'_mem hlt, hL⟩, fun rest hrest v hv => ?_⟩
  obtain ⟨rest', hrest', -, hiff⟩ := h.learned
  obtain rfl : rest = rest' := (List.cons.inj (hrest.symm.trans hrest')).2
  obtain ⟨i, his, hmem, hpos, ht⟩ := h.implied v hv
  by_cases hin : i = n
  · subst hin
    exact ⟨_, List.mem_cons_self .., ht⟩
  · refine ⟨_, List.mem_cons_of_mem _ ((hiff _).2 ⟨?_, ?_, ?_⟩), ht⟩
    · rwa [Literal.var_negate]
    · rw [Literal.negate_negate]
      exact Trail.at'_mem his
    · rw [Assignment.level_negate]
      refine Nat.lt_of_le_of_ne (hS.trail.level_le his) fun he => ?_
      have hlow : i < n := by
        rcases hpos with hpos | hpos
        · omega
        · omega
      exact h.openAt_ne_zero hlow his hmem he h0

/-- If another one is further down, it is resolved on. -/
theorem ends_pivot (h : Resolving S s (n + 1) opened) (hS : S.Frame) (hw : S.Wired lags p) (hlev : S.trail.level ≠ 0)
    (hc : IsPivot S.trail.level s n) (h1 : opened ≠ 1) :
    Ends (reasonLiterals (s.trail.at' n)) s
      (fun ls s₁ => Ends (noteAll S.trail.level ls) s₁
        (fun more s₂ => Resolving S s₂ n (opened - 1 + more)) fun _ _ => False)
      fun _ _ => False := by
  have hlt : n < S.trail.size := h.le
  have hsucc := openAt_succ (s := s) (n := n) (by rw [h.trail]; exact hlt)
  have hcount := h.count
  rw [show s.trail.level = S.trail.level by rw [h.trail], if_pos hc] at hsucc
  have h0 : s.openAt n ≠ 0 := by omega
  have hL : S.assignment.level (S.trail.at' n) = S.trail.level := by
    rw [← h.at'_eq, ← h.marks.level_eq]
    exact hc.2
  obtain ⟨hd, hu⟩ := h.reason_of_open hS hw hlev hlt hL h0
  rw [h.at'_eq]
  refine (h.ends_reasonLiterals hw hlt hd hu).imp (fun ls s₁ hs₁ => ?_) fun _ _ hf => hf
  obtain ⟨⟨st', rfl, hst⟩, hms, hsat⟩ := hs₁
  rw [ends_noteAll]
  obtain ⟨h₂, hnoted, hmore, hin⟩ := (h.reused hst).noteAll hS (k := 0) hms
  have hsame : openAt { s with store := st' } n = s.openAt n := rfl
  refine { h₂ with le := Nat.le_of_lt hlt, implied := fun v hv => ?_, count := by omega, open_ne := by omega }
  obtain ⟨i, his, hmem, hpos, ht⟩ := h.implied v hv
  by_cases hin' : i = n
  · subst hin'
    obtain ⟨m, hm, htm⟩ := hsat v hv
    rcases List.mem_cons.1 hm with rfl | hm
    · rw [Valuation.makesTrue_negate, htm] at ht
      simp at ht
    · exact Implied.of_satisfies hv hms hin hm htm
  · exact ⟨i, his, hmore _ hmem, hpos.imp_left fun hlt' => by omega, ht⟩

end Resolving

/-- The walk along the trail meets no fault, and takes from a count that is one or more each time. -/
theorem ends_resolve (hS : S.Frame) (hw : S.Wired lags p) (hlev : S.trail.level ≠ 0) {opened : Int}
    (h : Resolving S s n opened) :
    Ends (resolve S.trail.level n opened) s (fun l s' => Resolved S s' l) (fun _ _ => False) := by
  induction n generalizing s opened with
  | zero => exact absurd h.pos.1 (by simp)
  | succ n ih =>
    rw [resolve]
    simp only [ends_bind, ends_get, Bool.and_eq_true, beq_iff_eq]
    rw [ends_ite]
    refine ⟨fun hc => ?_, fun hc => ih (h.skip hS hc)⟩
    rw [ends_ite]
    refine ⟨fun h1 => h.last hS hc h1, fun h1 => ?_⟩
    simp only [ends_bind]
    exact (h.ends_pivot hS hw hlev hc h1).imp (fun ls s₁ h₁ => h₁.imp (fun more s₂ h₂ => ih h₂) fun _ _ hf => hf)
      fun _ _ hf => hf

end Solver

end ClauseLearning
