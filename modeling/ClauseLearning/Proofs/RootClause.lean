import ClauseLearning.Proofs.Storing
import ClauseLearning.Proofs.Trimming
import ClauseLearning.Solver.Input

/-!
# What is left of a clause at the root

A clause from outside is sorted by the codes of its literals.  So copies of a literal follow directly on one
another, and once they are removed so do the two literals of a variable.  What is left without root-false
literals has no variable twice and no assigned literal, and so may be watched on any two of its literals.

* `mem_dropRepeats`, `pairwise_dropRepeats` — copies are removed.
* `pairwise_var`, `exists_opposites` — what it means that there are no opposite literals, and that there are.
* `Assignment.rootClause_useless`, `Assignment.rootClause_literals` — the two outcomes.
* `Solver.Fresh` — what is left may be stored, with `Solver.Fresh.addBinary` and `Solver.Fresh.append`.
-/

namespace ClauseLearning

variable {ls : List Literal} {l m : Literal}

/-! ## Sorting, copies and opposites -/

theorem Literal.mem_sorted : l ∈ Literal.sorted ls ↔ l ∈ ls := mem_sortBy

theorem Literal.pairwise_sorted (ls : List Literal) :
    (Literal.sorted ls).Pairwise fun l m => l.code ≤ m.code := by
  have htrans : ∀ a b c : Literal, decide (a.code ≤ b.code) = true → decide (b.code ≤ c.code) = true →
      decide (a.code ≤ c.code) = true := fun a b c hab hbc => by
    simp only [decide_eq_true_eq] at *
    omega
  have htotal : ∀ a b : Literal, decide (a.code ≤ b.code) = true ∨ decide (b.code ≤ a.code) = true :=
    fun a b => by
      simp only [decide_eq_true_eq]
      omega
  exact (pairwise_sortBy htrans htotal ls).imp fun hlm => of_decide_eq_true hlm

theorem mem_dropRepeats : l ∈ dropRepeats ls ↔ l ∈ ls := by
  induction ls using dropRepeats.induct with
  | case1 => rfl
  | case2 a => rfl
  | case3 a ls ih =>
    rw [dropRepeats, if_pos rfl, ih]
    simp
  | case4 a b ls hne ih =>
    rw [dropRepeats, if_neg hne, List.mem_cons, ih]
    simp

/-- In a sorted list all copies of a literal are removed. -/
theorem pairwise_dropRepeats (h : ls.Pairwise fun l m => l.code ≤ m.code) :
    (dropRepeats ls).Pairwise fun l m => l.code < m.code := by
  induction ls using dropRepeats.induct with
  | case1 => exact .nil
  | case2 a => simp [dropRepeats]
  | case3 a ls ih =>
    rw [dropRepeats, if_pos rfl]
    exact ih h.tail
  | case4 a b ls hne ih =>
    rw [dropRepeats, if_neg hne, List.pairwise_cons]
    refine ⟨fun x hx => ?_, ih h.tail⟩
    have hab : a.code < b.code :=
      Nat.lt_of_le_of_ne ((List.pairwise_cons.1 h).1 b (by simp)) fun he => hne (Literal.ext he)
    rcases List.mem_cons.1 (mem_dropRepeats.1 hx) with rfl | hx
    · exact hab
    · exact Nat.lt_of_lt_of_le hab ((List.pairwise_cons.1 h.tail).1 x hx)

theorem Literal.var_le (h : l.code ≤ m.code) : l.var ≤ m.var := Nat.div_le_div_right h

/-- Where no two literals that follow on one another are opposite, all are on different variables. -/
theorem pairwise_var (h : ls.Pairwise fun l m => l.code < m.code) (ho : hasOpposites ls = false) :
    ls.Pairwise fun l m => l.var < m.var := by
  induction ls with
  | nil => exact .nil
  | cons a ls ih =>
    cases ls with
    | nil => simp
    | cons b ls =>
      simp only [hasOpposites, Bool.or_eq_false_iff, beq_eq_false_iff_ne] at ho
      have hb := ih h.tail ho.2
      refine List.pairwise_cons.2 ⟨fun x hx => ?_, hb⟩
      have hab : a.var < b.var := Nat.lt_of_le_of_ne
        (Literal.var_le (Nat.le_of_lt ((List.pairwise_cons.1 h).1 b (by simp)))) ho.1
      rcases List.mem_cons.1 hx with rfl | hx
      · exact hab
      · exact Nat.lt_trans hab ((List.pairwise_cons.1 hb).1 x hx)

theorem exists_opposites (h : ls.Pairwise fun l m => l.code < m.code) (ho : hasOpposites ls = true) :
    ∃ l ∈ ls, -l ∈ ls := by
  induction ls with
  | nil => simp [hasOpposites] at ho
  | cons a ls ih =>
    cases ls with
    | nil => simp [hasOpposites] at ho
    | cons b ls =>
      simp only [hasOpposites, Bool.or_eq_true, beq_iff_eq] at ho
      rcases ho with hv | ho
      · have hne : a ≠ b := fun he => by
          have := (List.pairwise_cons.1 h).1 b (by simp)
          rw [he] at this
          exact Nat.lt_irrefl _ this
        obtain rfl := (Literal.var_eq_iff.1 hv).resolve_left hne
        exact ⟨-b, by simp, by simp⟩
      · obtain ⟨l, hl, hn⟩ := ih h.tail ho
        exact ⟨l, List.mem_cons_of_mem _ hl, List.mem_cons_of_mem _ hn⟩

/-! ## The two outcomes -/

namespace Assignment

variable {a : Assignment} {c c' : List Literal}

theorem mem_dropRepeats_sorted : l ∈ dropRepeats (Literal.sorted c) ↔ l ∈ c :=
  mem_dropRepeats.trans Literal.mem_sorted

/-- A clause of no use is satisfied wherever what is known is. -/
theorem rootClause_useless (h : a.rootClause c = .useless) {v : Valuation}
    (hv : ∀ l, a.value l = .tt → v.makesTrue l = true) : v.Satisfies c := by
  have hlt := pairwise_dropRepeats (Literal.pairwise_sorted c)
  unfold rootClause at h
  simp only at h
  split at h
  · next ho =>
    obtain ⟨l, hl, hn⟩ := exists_opposites hlt ho
    rw [mem_dropRepeats_sorted] at hl hn
    cases ht : v.makesTrue l with
    | true => exact ⟨l, hl, ht⟩
    | false => exact ⟨-l, hn, by simp [ht]⟩
  · split at h
    · next hany =>
      obtain ⟨l, hl, ht⟩ := List.any_eq_true.1 hany
      exact ⟨l, mem_dropRepeats_sorted.1 hl, hv l (by simpa using ht)⟩
    · cases h

/-- What is left of a clause has no variable twice and no assigned literal, and what was removed is false. -/
theorem rootClause_literals (h : a.rootClause c = .literals c') :
    (c'.map Literal.var).Nodup ∧ (∀ l ∈ c', l ∈ c ∧ a.value l = .unassigned) ∧
      ∀ l ∈ c, l ∉ c' → a.value l = .ff := by
  have hlt := pairwise_dropRepeats (Literal.pairwise_sorted c)
  unfold rootClause at h
  simp only at h
  split at h
  · cases h
  · next ho =>
    split at h
    · cases h
    · next hany =>
      obtain rfl := RootClause.literals.inj h
      have hvar := pairwise_var hlt (Bool.not_eq_true _ ▸ ho)
      refine ⟨?_, fun l hl => ?_, fun l hl hn => ?_⟩
      · rw [List.Nodup, List.pairwise_map]
        exact (hvar.filter _).imp Nat.ne_of_lt
      · obtain ⟨hm, hff⟩ := List.mem_filter.1 hl
        refine ⟨mem_dropRepeats_sorted.1 hm, ?_⟩
        have htt : a.value l ≠ .tt := fun ht => hany (List.any_eq_true.2 ⟨l, hm, by simpa using ht⟩)
        have hff : a.value l ≠ .ff := by simpa using hff
        cases hval : a.value l <;> simp_all
      · by_contra hne
        exact hn (List.mem_filter.2 ⟨mem_dropRepeats_sorted.2 hl, by simpa using hne⟩)

theorem length_le_of_rootClause (h : a.rootClause c = .literals c') : c'.length ≤ c.length := by
  obtain ⟨hnodup, hsub, -⟩ := rootClause_literals h
  exact ((List.Nodup.of_map _ hnodup).subperm fun l hl => (hsub l hl).1).length_le

/-- At the root, what is left of a clause is satisfied just where the clause is. -/
theorem rootClause_satisfies (h : a.rootClause c = .literals c') {v : Valuation}
    (hv : ∀ l, a.value l = .ff → v.makesTrue l = false) : v.Satisfies c' ↔ v.Satisfies c := by
  obtain ⟨-, hsub, hrem⟩ := rootClause_literals h
  constructor
  · rintro ⟨l, hl, ht⟩
    exact ⟨l, (hsub l hl).1, ht⟩
  · rintro ⟨l, hl, ht⟩
    refine ⟨l, ?_, ht⟩
    by_contra hn
    rw [hv l (hrem l hl hn)] at ht
    exact Bool.false_ne_true ht

end Assignment

namespace Solver

variable {ε : Type} {lags : Prop} {s : Solver ε} {p : Nat} {v : Valuation}

/-! ## Storing what is left -/

/-- A root literal is true, and its negation false. -/
theorem Frame.makesTrue_root (h : s.Frame) (h0 : s.trail.level = 0)
    (hv : ∀ l ∈ s.trail.literals, s.assignment.level l = 0 → v.makesTrue l = true) :
    (∀ l, s.assignment.value l = .tt → v.makesTrue l = true) ∧
      ∀ l, s.assignment.value l = .ff → v.makesTrue l = false := by
  have htt : ∀ l, s.assignment.value l = .tt → v.makesTrue l = true := fun l hl => by
    have hm := (h.trail.tt_iff l).1 hl
    exact hv l hm (Nat.le_zero.1 (h0 ▸ h.trail.level_le_of_mem hm))
  refine ⟨htt, fun l hl => ?_⟩
  have := htt (-l) (h.sized.tt_iff.2 hl)
  simpa using this

/-- A clause on different variables that are usable and not assigned. -/
structure Fresh (s : Solver ε) (c : List Literal) : Prop where
  /-- No variable is twice in it. -/
  nodup : (c.map Literal.var).Nodup
  /-- All variables are usable. -/
  usable : ∀ l ∈ c, s.numbering.Usable l.var
  /-- None is assigned. -/
  unassigned : ∀ l ∈ c, s.val l = .unassigned

theorem Fresh.of_rootClause {c c' : List Literal} (hu : ∀ l ∈ c, s.numbering.Usable l.var)
    (h : s.assignment.rootClause c = .literals c') : s.Fresh c' :=
  let ⟨hn, hsub, _⟩ := Assignment.rootClause_literals h
  ⟨hn, fun l hl => hu l (hsub l hl).1, fun l hl => (hsub l hl).2⟩

theorem Fresh.guard {x y : Literal} {tail : List Literal} (h : s.Fresh (x :: y :: tail)) (hf : s.Frame)
    (late : Prop) {c : List Literal} : Guard s.trail s.assignment p late x y y x c := by
  have hne : ∀ l ∈ x :: y :: tail, ¬ Fallen s.trail p l := fun l hl hfall => by
    have := hfall.value hf.trail hf.sized
    rw [show s.assignment.value l = .unassigned from h.unassigned l hl] at this
    cases this
  exact .of_not_fallen (hne x (by simp)) (hne y (by simp)) (.inl rfl)

/-- A binary clause is stored. -/
theorem Fresh.addBinary {a b : Literal} (h : s.Fresh [a, b]) (hi : s.Inv lags p) (r : Bool) :
    Inv lags { s with watches := s.watches.addBinary a b r false } p ∧
      Stores [a, b] s { s with watches := s.watches.addBinary a b r false } ∧
      (r = false → ∀ v, Base { s with watches := s.watches.addBinary a b r false } v →
        v.Satisfies [a, b]) := by
  have hf := hi.toFrame
  have hua := h.usable a (by simp)
  have hub := h.usable b (by simp)
  have hne : a.var ≠ b.var := by
    have := h.nodup
    simp only [List.map_cons, List.map_nil, List.nodup_cons, List.mem_singleton] at this
    exact this.1
  refine ⟨{ hi with
      lists := by
        simp only [Watches.addBinary, Watches.size_add]
        exact hi.lists
      toWired := hi.toWired.addBinary hf hua hub hne (fun hy => by simp at hy) (h.guard hf _) },
    ⟨rfl, rfl, rfl, rfl, rfl, rfl, rfl, id, fun v hc hv => hv.addBinary hf hua hub hne hc,
      fun v hv => hv.of_addBinary hf hua hub hne⟩, ?_⟩
  rintro rfl v hv
  refine hv.binary a b false ?_
  rw [Watches.view_addBinary _ _ (hf.code_lt hua) (hf.code_lt hub) fun he => hne (he ▸ rfl)]
  simp

/-- A longer clause is stored. -/
theorem Fresh.append {x y : Literal} {tail : List Literal} {f : Flags} {st' : Store}
    (h : s.Fresh (x :: y :: tail)) (hi : s.Inv lags p) (h3 : 3 ≤ (x :: y :: tail).length)
    (hr : f.reason = false) (ha : Store.Appended (x :: y :: tail) f s.store st') :
    Inv lags { s with store := st', watches := s.watches.addLarge s.store.nextReference x y } p ∧
      Stores (x :: y :: tail) s
        { s with store := st', watches := s.watches.addLarge s.store.nextReference x y } ∧
      (f.redundant = false → f.garbage = false → ∀ v,
        Base { s with store := st', watches := s.watches.addLarge s.store.nextReference x y } v →
        v.Satisfies (x :: y :: tail)) := by
  have hf := hi.toFrame
  refine ⟨hi.append hf ha h.nodup h.usable h3 hr (h.guard hf _),
    stores_append hf ha h.nodup h.usable hi.store.chain, fun hred hg v hv => ?_⟩
  have := hv.large s.store.words.size (ha.mem_offsets.2 (.inr rfl))
  simp only [ha.flags, ha.lits] at this
  exact this hred hg

end Solver

end ClauseLearning
