import ClauseLearning.Proofs.Collection
import ClauseLearning.Proofs.Completion
import ClauseLearning.Proofs.Contract
import ClauseLearning.Proofs.Propagation
import ClauseLearning.Proofs.Removal
import ClauseLearning.Solver.Pure

/-!
# Elimination of pure literals keeps the invariant

The negation of a pure literal occurs in no clause, so the clauses with a pure literal may be removed: where the
others are satisfied, the stack satisfies these as well and harms none.  What is left does not mention the pure
variables any more, and so they may be eliminated.

* `Solver.Pure` — pure literals, with `Solver.pure_pureLiterals`.
* `Watches.touching` — the binary clauses with a literal of a list, and what is left without them.
* `Solver.Purging` — the store while clauses with a pure literal are removed, with `Solver.ends_removeMarked`.
* `Solver.Grows`, `Solver.Evolves` — a step that may put clauses on the extension stack, and keeps every contract.
* `Solver.ends_eliminatePure`, `Solver.ends_preprocess` — one round, and all of them.
-/

namespace ClauseLearning

/-! ## Which literals are pure -/

theorem mem_occurring {ls : List Literal} {p : Bool} {v : Nat} :
    v ∈ occurring ls p ↔ Literal.make v p ∈ ls := by
  unfold occurring
  rw [Std.TreeSet.mem_ofList, List.contains_iff_mem, List.mem_map]
  constructor
  · rintro ⟨l, hl, rfl⟩
    obtain ⟨hm, hp⟩ := List.mem_filter.1 hl
    rw [← (beq_iff_eq.1 hp), Literal.make_var_positive]
    exact hm
  · intro hm
    exact ⟨_, List.mem_filter.2 ⟨hm, by simp⟩, Literal.var_make v p⟩

theorem mem_pureVariables {ls : List Literal} {v : Nat} :
    (v ∈ (pureVariables ls).1 ↔ .make v false ∈ ls ∧ .make v true ∉ ls) ∧
      (v ∈ (pureVariables ls).2 ↔ .make v true ∈ ls ∧ .make v false ∉ ls) := by
  have hnot : ∀ p, (occurring ls p).contains v = false ↔ Literal.make v p ∉ ls := fun p => by
    rw [← Bool.not_eq_true, ← Std.TreeSet.mem_iff_contains, mem_occurring]
  simp [pureVariables, List.mem_filter, Std.TreeSet.mem_toList, mem_occurring, hnot]

theorem nodup_pureVariables (ls : List Literal) :
    ((pureVariables ls).1 ++ (pureVariables ls).2).Nodup := by
  have hset : ∀ t : Std.TreeSet Nat, t.toList.Nodup := fun t =>
    t.distinct_toList.imp fun h he => h (by simp [he])
  refine List.nodup_append.2 ⟨(hset _).filter _, (hset _).filter _, fun v hv w hw he => ?_⟩
  subst he
  exact (mem_pureVariables.2.1 hw).2 (mem_pureVariables.1.1 hv).1

/-! ## Which binary clauses have a literal of a list -/

namespace Watches

/-- The binary clauses with a literal of a list. -/
def touching (w : Watches) (ls : List Literal) : List BinaryClause := w.binaries.filter fun c => c.a ∈ ls ∨ c.b ∈ ls

variable {usable : Nat → Prop} {w : Watches} {ls : List Literal} {l o : Literal} {c : BinaryClause}

theorem mem_touching : c ∈ w.touching ls ↔ c ∈ w.binaries ∧ (c.a ∈ ls ∨ c.b ∈ ls) := by simp [touching]

/-- Of a clause with a literal of the list as many copies are removed as there are. -/
theorem length_pairs_le (hlt : l.before o = true) (hm : l ∈ ls ∨ o ∈ ls) :
    (pairs w.view l o).length ≤ (w.touching ls).countP (joins l o) := by
  rw [← notes_binaries hlt, List.length_map, ← List.countP_eq_length_filter, touching, List.countP_filter]
  refine List.countP_mono_left fun c _ hc => ?_
  have hj : (c.a = l ∧ c.b = o) ∨ (c.a = o ∧ c.b = l) := of_decide_eq_true hc
  rw [hc, Bool.true_and, decide_eq_true_eq]
  rcases hj with ⟨rfl, rfl⟩ | ⟨rfl, rfl⟩
  · exact hm
  · exact hm.symm

namespace Paired

variable (h : Paired usable w.view)
include h

theorem ne_of_mem_touching (hc : c ∈ w.touching ls) : c.a ≠ c.b :=
  h.ne (mem_binaries.1 (mem_touching.1 hc).1).2

theorem sublist_removeTouching (l : Literal) : ((w.removeAll (w.touching ls)).view l).Sublist (w.view l) :=
  sublist_removeAll fun _ hc => h.ne_of_mem_touching hc

/-- Both lists have the same binary clauses still. -/
theorem pairs_removeTouching_symm (l o : Literal) : pairs (w.removeAll (w.touching ls)).view l o =
    pairs (w.removeAll (w.touching ls)).view o l := by
  have hne := fun c (hc : c ∈ w.touching ls) => h.ne_of_mem_touching hc
  rw [pairs_removeAll hne, pairs_removeAll hne, h.symm l o, funext (joins_comm l o)]

theorem pairs_removeTouching (hlo : l ≠ o) (hm : l ∈ ls ∨ o ∈ ls) :
    pairs (w.removeAll (w.touching ls)).view l o = [] := by
  have hne := fun c (hc : c ∈ w.touching ls) => h.ne_of_mem_touching hc
  rcases Literal.before_of_ne hlo with hlt | hlt
  · rw [pairs_removeAll hne]
    exact List.drop_of_length_le (length_pairs_le hlt hm)
  · rw [h.pairs_removeTouching_symm, pairs_removeAll hne]
    exact List.drop_of_length_le (length_pairs_le hlt hm.symm)

/-- The others stay. -/
theorem pairs_untouched (hl : l ∉ ls) (ho : o ∉ ls) :
    pairs (w.removeAll (w.touching ls)).view l o = pairs w.view l o := by
  have hne := fun c (hc : c ∈ w.touching ls) => h.ne_of_mem_touching hc
  have hzero : (w.touching ls).countP (joins l o) = 0 := by
    rw [List.countP_eq_zero]
    intro c hc hj
    have hj : (c.a = l ∧ c.b = o) ∨ (c.a = o ∧ c.b = l) := of_decide_eq_true hj
    have hmark := (mem_touching.1 hc).2
    rcases hj with ⟨rfl, rfl⟩ | ⟨rfl, rfl⟩
    · exact hmark.elim hl ho
    · exact hmark.elim ho hl
  rw [pairs_removeAll hne, hzero, List.drop_zero]

end Paired

end Watches

namespace Solver

variable {ε : Type} {lags : Prop} {s s' S : Solver ε} {p : Nat} {l m : Literal} {ls : List Literal} {v : Valuation}

/-- What the elimination of pure literals needs, and keeps: nothing is decided, the tables fit together, and clauses
that are not garbage are on different variables which are usable.  Propagation need not have come to its end. -/
structure Rooted (s : Solver ε) : Prop where
  /-- The tables fit together. -/
  frame : s.Frame
  /-- The walk over the store is good. -/
  chain : s.store.Chain 0
  /-- No variable is twice in a clause. -/
  nodup : ∀ o ∈ s.store.offsets, (s.store.flagsAt o).garbage = false → ((s.store.lits o).map Literal.var).Nodup
  /-- Every variable is usable. -/
  usable : ∀ o ∈ s.store.offsets, (s.store.flagsAt o).garbage = false → ∀ l ∈ s.store.lits o, s.numbering.Usable l.var
  /-- The binary clauses have both their watches. -/
  paired : Watches.Paired s.numbering.Usable s.watches.view
  /-- No mark is left behind. -/
  clean : s.Clean
  /-- Nothing is decided. -/
  level : s.trail.level = 0
  /-- No clause of the store is a reason. -/
  unforced : ∀ l ∈ s.trail.literals, ∀ r, s.assignment.reason l ≠ .large r

/-- The invariant is enough at the root. -/
theorem Inv.rooted (h : s.Inv lags p) (h0 : s.trail.level = 0) : s.Rooted where
  frame := h.toFrame
  chain := h.store.chain
  nodup o ho _ := h.store.nodup o ho
  usable o ho _ := h.store.usable o ho
  paired := h.paired
  clean := h.toClean
  level := h0
  unforced _ hl _ hr := Reason.noConfusion ((h.trail.reason_unit h.grounded h0 hl).symm.trans hr)

/-- Literals of which the negation occurs in no clause that is not garbage. -/
structure Pure (s : Solver ε) (ls : List Literal) : Prop where
  /-- No variable is twice among them. -/
  nodup : (ls.map Literal.var).Nodup
  /-- Their variables are usable. -/
  usable : ∀ l ∈ ls, s.numbering.Usable l.var
  /-- None is assigned. -/
  unassigned : ∀ l ∈ ls, s.val l = .unassigned
  /-- No clause of the store has a negation. -/
  large : ∀ o ∈ s.store.offsets, (s.store.flagsAt o).garbage = false → ∀ l ∈ s.store.lits o, -l ∉ ls
  /-- No binary clause has one. -/
  binary : ∀ l o r h, .binary o r h ∈ s.watches.view l → -l ∉ ls

theorem mem_liveLiterals (h : s.Rooted) : l ∈ s.liveLiterals ↔
    (∃ o ∈ s.store.offsets, (s.store.flagsAt o).garbage = false ∧ l ∈ s.store.lits o) ∨
      ∃ o r h, .binary o r h ∈ s.watches.view l := by
  unfold liveLiterals
  rw [List.mem_append, List.mem_flatMap, List.mem_flatMap]
  refine or_congr ⟨?_, ?_⟩ ⟨?_, ?_⟩
  · rintro ⟨r, hr, hl⟩
    have hcur := Store.mem_references.1 hr
    rw [Store.record?_of_current h.chain hcur] at hl
    simp only at hl
    split at hl
    · simp at hl
    · next hg =>
      refine ⟨r.offset, hcur.2, Bool.not_eq_true _ ▸ hg, ?_⟩
      rwa [← Store.literalsAt_toList (h.chain.mem hcur.2).2.fits]
  · rintro ⟨o, ho, hg, hl⟩
    refine ⟨⟨o, s.store.epoch⟩, Store.mem_references.2 ⟨rfl, ho⟩, ?_⟩
    rw [Store.record?_of_current h.chain ⟨rfl, ho⟩]
    have hflags : (s.store.recordAt o).flags.garbage = false := hg
    simp only [hflags, Bool.false_eq_true, if_false]
    rwa [← Store.literalsAt_toList (h.chain.mem ho).2.fits] at hl
  · rintro ⟨c, hc, hl⟩
    obtain ⟨-, hm⟩ := Watches.mem_binaries.1 hc
    rcases List.mem_cons.1 hl with rfl | hl
    · exact ⟨_, _, _, hm⟩
    · obtain rfl := List.mem_singleton.1 hl
      exact ⟨_, _, _, h.paired.mem_symm.1 hm⟩
  · rintro ⟨o, r, y, hm⟩
    have hne : l.code ≠ o.code := fun he => h.paired.ne hm (Literal.ext he)
    rcases Nat.lt_or_gt_of_ne hne with hlt | hlt
    · exact ⟨⟨l, o, r, y⟩, Watches.mem_binaries.2 ⟨by simpa [Literal.before] using hlt, hm⟩, by simp⟩
    · exact ⟨⟨o, l, r, y⟩, Watches.mem_binaries.2 ⟨by simpa [Literal.before] using hlt, h.paired.mem_symm.1 hm⟩,
        by simp⟩

theorem mem_pureLiterals : l ∈ s.pureLiterals ↔
    (l ∈ s.liveLiterals ∧ -l ∉ s.liveLiterals) ∧ s.val l = .unassigned ∧
      s.numbering.isEliminated l.var = false := by
  have hval : (s.val l).isAssigned = false ↔ s.val l = .unassigned := by
    cases s.val l <;> simp [Value.isAssigned]
  unfold pureLiterals
  simp only [List.mem_filter, List.mem_append, List.mem_map, mem_pureVariables, Bool.and_eq_true,
    Bool.not_eq_true', hval]
  refine and_congr_left fun _ => ?_
  have hneg : ∀ v, -Literal.make v false = .make v true ∧ -Literal.make v true = .make v false := fun v =>
    ⟨by rw [← Literal.make_var_positive (-Literal.make v false)]; simp,
      by rw [← Literal.make_var_positive (-Literal.make v true)]; simp⟩
  constructor
  · rintro (⟨v, hv, rfl⟩ | ⟨v, hv, rfl⟩)
    · rwa [(hneg v).1]
    · rwa [(hneg v).2]
  · intro hl
    rw [← Literal.make_var_positive l] at hl ⊢
    generalize l.positive = b at hl ⊢
    cases b with
    | false =>
      rw [(hneg _).1] at hl
      exact .inl ⟨_, hl, rfl⟩
    | true =>
      rw [(hneg _).2] at hl
      exact .inr ⟨_, hl, rfl⟩

theorem pure_pureLiterals (h : s.Rooted) : s.Pure s.pureLiterals where
  nodup := by
    refine List.Nodup.sublist ((List.filter_sublist ..).map Literal.var) ?_
    have := nodup_pureVariables s.liveLiterals
    simpa [pureVariables, List.map_map, Function.comp_def] using this
  usable l hl := by
    obtain ⟨⟨hlive, -⟩, -, he⟩ := mem_pureLiterals.1 hl
    rcases (mem_liveLiterals h).1 hlive with ⟨o, ho, hg, hm⟩ | ⟨o, r, y, hm⟩
    · exact h.usable o ho hg l hm
    · exact (h.paired.usable _ _ _ _ hm).1
  unassigned l hl := (mem_pureLiterals.1 hl).2.1
  large o ho hg l hl hn := by
    refine (mem_pureLiterals.1 hn).1.2 ?_
    rw [Literal.negate_negate]
    exact (mem_liveLiterals h).2 (.inl ⟨o, ho, hg, hl⟩)
  binary l o r y hm hn := by
    refine (mem_pureLiterals.1 hn).1.2 ?_
    rw [Literal.negate_negate]
    exact (mem_liveLiterals h).2 (.inr ⟨o, r, y, hm⟩)

/-! ## Removing clauses -/

/-- A clause on the stack that was removed for one of some pure literals. -/
structure Witnessed.For (ls : List Literal) (w : Witnessed) : Prop where
  /-- The witness is one of them. -/
  pure : w.witness ∈ ls
  /-- It is in the clause. -/
  mem : w.witness ∈ w.clause
  /-- No negation is. -/
  negation : ∀ l ∈ w.clause, -l ∉ ls

/-- The store and the stack while clauses with a pure literal are removed. -/
structure Purging (S : Solver ε) (ls : List Literal) (done : List Nat) (t : Store) (ws : List Witnessed) :
    Prop where
  /-- The clauses are the same. -/
  store : Store.Alike S.store t
  /-- What is redundant or pinned stays so. -/
  flags : ∀ o ∈ S.store.offsets, (t.flagsAt o).redundant = (S.store.flagsAt o).redundant ∧
    (t.flagsAt o).reason = (S.store.flagsAt o).reason
  /-- A clause without a pure literal is not touched. -/
  kept : ∀ o ∈ S.store.offsets, (∀ l ∈ S.store.lits o, l ∉ ls) →
    (t.flagsAt o).garbage = (S.store.flagsAt o).garbage
  /-- A clause that is not garbage was none before, and those that were gone through have no pure literal. -/
  live : ∀ o ∈ S.store.offsets, (t.flagsAt o).garbage = false →
    (S.store.flagsAt o).garbage = false ∧ (o ∈ done → ∀ l ∈ S.store.lits o, l ∉ ls)
  /-- What was put on the stack. -/
  stack : ∀ w ∈ ws, Witnessed.For ls w ∧ ∀ l ∈ w.clause, S.numbering.Usable l.var
  /-- Clauses that are never to be dropped are on the stack if they were removed. -/
  removed : ∀ o ∈ S.store.offsets, (S.store.flagsAt o).redundant = false →
    (S.store.flagsAt o).garbage = false → (t.flagsAt o).garbage = true → ∃ w ∈ ws, w.clause = S.store.lits o

namespace Purging

variable {done : List Nat} {t t' : Store} {ws : List Witnessed} {o : Nat} {w : Literal}

/-- Before the first clause. -/
theorem start (hc : S.store.Chain 0) : Purging S ls [] S.store [] where
  store := .refl hc
  flags _ _ := ⟨rfl, rfl⟩
  kept _ _ _ := rfl
  live _ _ hg := ⟨hg, by simp⟩
  stack := by simp
  removed _ _ _ hg hg' := by
    rw [hg] at hg'
    simp at hg'

/-- A clause stays, as it has no pure literal or is garbage. -/
theorem pass (h : Purging S ls done t ws)
    (ho : (t.flagsAt o).garbage = false → ∀ l ∈ S.store.lits o, l ∉ ls) : Purging S ls (o :: done) t ws :=
  { h with
    live := fun o' ho' hg => by
      obtain ⟨h1, h2⟩ := h.live o' ho' hg
      refine ⟨h1, fun hd => ?_⟩
      rcases List.mem_cons.1 hd with rfl | hd
      · exact ho hg
      · exact h2 hd }

/-- A clause with a pure literal is removed. -/
theorem trash (h : Purging S ls done t ws) (hp : S.Pure ls) (hS : S.Rooted)
    (ho : o ∈ S.store.offsets) (hg : (t.flagsAt o).garbage = false) (hw : w ∈ S.store.lits o)
    (hl : w ∈ ls) (ht : Store.Trashed o t t') :
    Purging S ls (o :: done) t'
      (if (S.store.flagsAt o).redundant then ws else ⟨w, S.store.lits o⟩ :: ws) := by
  have hot : ∀ {o'}, o' ∈ S.store.offsets → o' ∈ t.offsets := fun ho' => h.store.offsets.symm ▸ ho'
  have hgS := (h.live o ho hg).1
  have hsub : ∀ w' ∈ ws, w' ∈ if (S.store.flagsAt o).redundant then ws else ⟨w, S.store.lits o⟩ :: ws :=
    fun w' hw' => by
      split
      · exact hw'
      · exact List.mem_cons_of_mem _ hw'
  have hgarbage : ∀ o' ∈ S.store.offsets,
      (t'.flagsAt o').garbage = ((t.flagsAt o').garbage || o' == o) := fun o' ho' => by
    obtain ⟨used, hf⟩ := ht.flags o' (hot ho')
    rw [hf]
  refine ⟨h.store.trans ht.toAlike, fun o' ho' => ?_, fun o' ho' hn => ?_, fun o' ho' hg' => ?_,
    fun w' hw' => ?_, fun o' ho' hr hg₁ hg₂ => ?_⟩
  · obtain ⟨used, hf⟩ := ht.flags o' (hot ho')
    rw [hf]
    exact h.flags o' ho'
  · have hne : (o' == o) = false := beq_eq_false_iff_ne.2 fun he => hn w (he ▸ hw) hl
    rw [hgarbage o' ho', hne, Bool.or_false]
    exact h.kept o' ho' hn
  · rw [hgarbage o' ho', Bool.or_eq_false_iff, beq_eq_false_iff_ne] at hg'
    obtain ⟨h1, h2⟩ := h.live o' ho' hg'.1
    exact ⟨h1, fun hd => h2 ((List.mem_cons.1 hd).resolve_left hg'.2)⟩
  · split at hw'
    · exact h.stack w' hw'
    · rcases List.mem_cons.1 hw' with rfl | hw'
      · exact ⟨⟨hl, hw, hp.large o ho hgS⟩, fun l hl => hS.usable o ho hgS l hl⟩
      · exact h.stack w' hw'
  · rw [hgarbage o' ho', Bool.or_eq_true, beq_iff_eq] at hg₂
    by_cases he : o' = o
    · subst he
      rw [hr]
      exact ⟨_, List.mem_cons_self .., rfl⟩
    · obtain ⟨w', hw', hc⟩ := h.removed o' ho' hr hg₁ (hg₂.resolve_right he)
      exact ⟨w', hsub w' hw', hc⟩

end Purging

/-- The solver while clauses are removed from the store: the literals are marked, and `ws` is what was put on the
stack. -/
def purging (S : Solver ε) (m : Array Bool) (t : Store) (ws : List Witnessed) : Solver ε :=
  { S with marks := m, store := t, extension := ⟨ws ++ S.extension.entries⟩ }

/-- What a removed clause puts on the stack. -/
theorem Purging.extendBy {m : Array Bool} {done : List Nat} {t : Store} {ws : List Witnessed} {o : Nat}
    (h : Purging S ls done t ws) (ho : o ∈ S.store.offsets) (w : Literal) :
    (S.purging m t ws).extendBy (t.flagsAt o).redundant w (S.store.lits o) =
      S.purging m t (if (S.store.flagsAt o).redundant then ws else ⟨w, S.store.lits o⟩ :: ws) := by
  unfold Solver.extendBy
  rw [(h.flags o ho).1]
  split <;> rfl

/-- Removing clauses with a marked literal from the store meets no fault, and goes through all of them. -/
theorem ends_removeMarked {m : Array Bool} (hm : ∀ l : Literal, m.getD l.code false = true ↔ l ∈ ls)
    (hp : S.Pure ls) (hS : S.Rooted) {rs : List Reference}
    (hr : ∀ r ∈ rs, S.store.Current r) {done : List Nat} {t : Store} {ws : List Witnessed}
    (h : Purging S ls done t ws) :
    Ends (removeMarked rs) (S.purging m t ws)
      (fun _ s' => ∃ t' ws' done', s' = S.purging m t' ws' ∧ Purging S ls done' t' ws' ∧
        rs.map Reference.offset ++ done ⊆ done') fun _ _ => False := by
  induction rs generalizing done t ws with
  | nil => exact ⟨t, ws, done, rfl, h, List.Subset.refl _⟩
  | cons r rs ih =>
    have hcur := hr r (List.mem_cons_self ..)
    have hcurt : t.Current r := h.store.current hcur
    have hlits : (t.recordAt r.offset).literals.toList = S.store.lits r.offset :=
      (Store.literalsAt_toList (h.store.chain.mem hcurt.2).2.fits).trans (h.store.lits _ hcur.2)
    -- once the first one was gone through, so are the others
    have hrest : ∀ {t' ws'}, Purging S ls (r.offset :: done) t' ws' →
        Ends (removeMarked rs) (S.purging m t' ws') (fun _ s' => ∃ t' ws' done', s' = S.purging m t' ws' ∧
          Purging S ls done' t' ws' ∧ (r :: rs).map Reference.offset ++ done ⊆ done') fun _ _ => False := by
      intro t' ws' h'
      refine (ih (fun r' hr' => hr r' (List.mem_cons_of_mem _ hr')) h').imp ?_ fun _ _ hf => hf
      rintro - - ⟨t'', ws'', done', rfl, h'', hsub⟩
      exact ⟨t'', ws'', done', rfl, h'', List.Subset.trans List.perm_middle.symm.subset hsub⟩
    have hmarked : ∀ l, (S.purging m t ws).isMarked l = true ↔ l ∈ ls := hm
    unfold removeMarked
    simp only [ends_bind, ends_get, ends_ofExcept]
    refine ⟨fun c hc => ?_, fun e he => ?_⟩
    · obtain rfl := Except.ok.inj ((Store.record?_of_current h.store.chain hcurt).symm.trans hc)
      have hflags : (t.recordAt r.offset).flags = t.flagsAt r.offset := rfl
      rw [hflags]
      cases hg : (t.flagsAt r.offset).garbage with
      | true =>
        refine hrest (h.pass fun hf => ?_)
        rw [hg] at hf
        cases hf
      | false =>
        simp only [Bool.not_false, if_true]
        cases hfind : (t.recordAt r.offset).literals.find? _ with
        | none =>
          refine hrest (h.pass fun _ l hl hmem => ?_)
          rw [Array.find?_eq_none] at hfind
          exact hfind l (Array.mem_toList_iff.1 (hlits ▸ hl)) ((hmarked l).2 hmem)
        | some w =>
          have hw : w ∈ S.store.lits r.offset := hlits ▸ Array.mem_toList_iff.2 (Array.mem_of_find?_eq_some hfind)
          have hwl : w ∈ ls := (hmarked w).1 (Array.find?_some hfind)
          simp only [ends_bind, ends_modify, ends_onStore, hlits, h.extendBy hcur.2]
          refine (Store.ends_markGarbage h.store.chain hcurt).imp (fun _ t' ht' => ?_) fun _ _ hf => hf
          exact hrest (h.trash hp hS hcur.2 hg hw hwl ht')
    · cases (Store.record?_of_current h.store.chain hcurt).symm.trans he

/-- Binary clauses with a marked literal are removed one after another. -/
theorem foldl_removeMarkedBinary (hm : ∀ l, s.isMarked l = true ↔ l ∈ ls) {cs : List BinaryClause}
    (hcs : ∀ c ∈ cs, (c.a ∈ ls ∨ c.b ∈ ls) ∧ ∀ l ∈ [c.a, c.b], -l ∉ ls ∧ s.numbering.Usable l.var) :
    ∃ ws, cs.foldl removeMarkedBinary s =
        { s with
          watches := s.watches.removeAll cs
          extension := ⟨ws ++ s.extension.entries⟩ } ∧
      (∀ w ∈ ws, Witnessed.For ls w ∧ ∀ l ∈ w.clause, s.numbering.Usable l.var) ∧
      ∀ c ∈ cs, c.redundant = false → ∃ w ∈ ws, w.clause = [c.a, c.b] := by
  induction cs generalizing s with
  | nil => exact ⟨[], rfl, by simp, by simp⟩
  | cons c cs ih =>
    obtain ⟨hmark, hlits⟩ := hcs c (List.mem_cons_self ..)
    have hwitness : (if s.isMarked c.a then c.a else c.b) ∈ ls ∧
        (if s.isMarked c.a then c.a else c.b) ∈ [c.a, c.b] := by
      split
      · next ha => exact ⟨(hm _).1 ha, by simp⟩
      · next ha => exact ⟨hmark.resolve_left fun h => ha ((hm _).2 h), by simp⟩
    generalize hw : (if s.isMarked c.a then c.a else c.b) = w at hwitness
    have hstep : s.removeMarkedBinary c =
        { s with
          watches := (s.watches.removeBinary c.a c.b).2
          extension := ⟨(if c.redundant then [] else [⟨w, [c.a, c.b]⟩]) ++ s.extension.entries⟩ } := by
      unfold removeMarkedBinary extendBy
      simp only [hw]
      split <;> rfl
    rw [List.foldl_cons, hstep]
    obtain ⟨ws, he, hws, hall⟩ := ih (s := { s with
      watches := (s.watches.removeBinary c.a c.b).2
      extension := ⟨(if c.redundant then [] else [⟨w, [c.a, c.b]⟩]) ++ s.extension.entries⟩ }) hm
      fun c' hc' => hcs c' (List.mem_cons_of_mem _ hc')
    refine ⟨ws ++ if c.redundant then [] else [⟨w, [c.a, c.b]⟩], ?_, fun w' hw' => ?_, fun c' hc' hr => ?_⟩
    · rw [he, List.append_assoc]
      rfl
    · rcases List.mem_append.1 hw' with hw' | hw'
      · exact hws w' hw'
      · split at hw'
        · simp at hw'
        · obtain rfl := List.mem_singleton.1 hw'
          exact ⟨⟨hwitness.1, hwitness.2, fun l hl => (hlits l hl).1⟩, fun l hl => (hlits l hl).2⟩
    · rcases List.mem_cons.1 hc' with rfl | hc'
      · exact ⟨⟨w, [c'.a, c'.b]⟩, List.mem_append_right _ (by simp [hr]), rfl⟩
      · obtain ⟨w', hw', hc⟩ := hall c' hc' hr
        exact ⟨w', List.mem_append_left _ hw', hc⟩

/-! ## Eliminating variables -/

/-- Only known variables are eliminated. -/
theorem Numbering.lt_size_of_isEliminated {m : Numbering} {v : Nat} (h : m.isEliminated v = true) : v < m.size := by
  by_contra hn
  unfold Numbering.isEliminated at h
  rw [Array.getD_eq_getD_getElem?, Array.getElem?_eq_none (Nat.le_of_not_lt hn)] at h
  simp at h

theorem Numbering.isEliminated_eliminate {m : Numbering} {v w : Nat} (hv : v < m.size) :
    (m.eliminate v).isEliminated w = (w == v || m.isEliminated w) := by
  unfold Numbering.isEliminated Numbering.eliminate
  rw [Array.getD_eq_getD_getElem?, Array.getD_eq_getD_getElem?, Array.getElem?_setIfInBounds]
  by_cases hw : v = w
  · subst hw
    have hv : v < m.eliminated.size := hv
    simp [hv]
  · simp [hw, Ne.symm hw]

theorem Numbering.usable_eliminate {m : Numbering} {v w : Nat} (hv : v < m.size) :
    (m.eliminate v).Usable w ↔ w ≠ v ∧ m.Usable w := by
  unfold Numbering.Usable
  rw [Numbering.isEliminated_eliminate hv]
  have hsize : (m.eliminate v).size = m.size := by simp [Numbering.eliminate, Numbering.size]
  simp only [hsize, Bool.or_eq_false_iff, beq_eq_false_iff_ne]
  constructor
  · rintro ⟨hlt, hne, he⟩
    exact ⟨hne, hlt, he⟩
  · rintro ⟨hne, hlt, he⟩
    exact ⟨hlt, hne, he⟩

/-- A variable that is not assigned is eliminated. -/
theorem Frame.eliminate (h : s.Frame) (hu : s.numbering.Usable l.var) (hv : s.val l = .unassigned) :
    (s.eliminate l).Frame ∧ (s.eliminate l).active + 1 = s.active := by
  have husable : ∀ w, (s.numbering.eliminate l.var).Usable w ↔ w ≠ l.var ∧ s.numbering.Usable w := fun w =>
    Numbering.usable_eliminate hu.1
  have hsize : (s.numbering.eliminate l.var).size = s.numbering.size := by
    simp [Numbering.eliminate, Numbering.size]
  obtain ⟨ho, hc⟩ := h.orders.deactivate h.covers (fun w hw => hw.1) l.var
  have hne : ∀ m ∈ s.trail.literals, m.var ≠ l.var := fun m hm he => by
    have htt := h.val_tt.2 hm
    rcases Literal.var_eq_iff.1 he with rfl | rfl
    · rw [hv] at htt
      cases htt
    · have hff : s.val l = .ff := h.sized.tt_iff.1 htt
      rw [hv] at hff
      cases hff
  -- the variable is one of those that were counted
  have hcount : ((List.range s.numbering.size).filter
      fun v => !(s.numbering.eliminate l.var).isEliminated v).length + 1 = s.active := by
    have hnodup : ((List.range s.numbering.size).filter fun v => !s.numbering.isEliminated v).Nodup :=
      List.nodup_range.filter _
    have hmem : l.var ∈ (List.range s.numbering.size).filter fun v => !s.numbering.isEliminated v :=
      List.mem_filter.2 ⟨List.mem_range.2 hu.1, by simp [hu.2]⟩
    have hfilter : ((List.range s.numbering.size).filter
        fun v => !(s.numbering.eliminate l.var).isEliminated v) =
        ((List.range s.numbering.size).filter fun v => !s.numbering.isEliminated v).erase l.var := by
      rw [hnodup.erase_eq_filter, List.filter_filter]
      refine List.filter_congr fun v _ => ?_
      rw [Numbering.isEliminated_eliminate hu.1]
      cases s.numbering.isEliminated v <;> simp [bne]
    rw [hfilter, List.length_erase_of_mem hmem, h.active]
    have := List.length_pos_of_mem hmem
    omega
  unfold Solver.eliminate
  refine ⟨{ h with
    sized := hsize.symm ▸ h.sized
    few := hsize.symm ▸ h.few
    lists := hsize.symm ▸ h.lists
    trail := h.trail.mono fun m hm => (husable _).2 ⟨hne m hm, h.trail.usable m hm⟩
    orders := hsize.symm ▸ ho.congr fun w => husable w
    covers := hc.mono fun w hw => ⟨((husable w).1 hw.1).1, ((husable w).1 hw.1).2, hw.2⟩
    active := ?_ }, ?_⟩
  · simp only [hsize, ← hcount, Nat.add_sub_cancel]
  · simp only [← hcount, Nat.add_sub_cancel]

/-- Variables that are not assigned are eliminated one after another. -/
theorem Frame.foldl_eliminate (h : s.Frame) (hn : (ls.map Literal.var).Nodup)
    (hu : ∀ l ∈ ls, s.numbering.Usable l.var) (hv : ∀ l ∈ ls, s.val l = .unassigned) :
    (ls.foldl Solver.eliminate s).Frame ∧ (ls.foldl Solver.eliminate s).active + ls.length = s.active ∧
      (∀ w, (ls.foldl Solver.eliminate s).numbering.Usable w ↔ w ∉ ls.map Literal.var ∧ s.numbering.Usable w) ∧
      (ls.foldl Solver.eliminate s).numbering.size = s.numbering.size ∧
      ∃ numbering orders active counters,
        ls.foldl Solver.eliminate s = { s with numbering, orders, active, counters } := by
  induction ls generalizing s with
  | nil => exact ⟨h, rfl, by simp, rfl, _, _, _, _, rfl⟩
  | cons l ls ih =>
    obtain ⟨hl, hn⟩ := List.nodup_cons.1 hn
    have hul := hu l (List.mem_cons_self ..)
    obtain ⟨hf, ha⟩ := h.eliminate hul (hv l (List.mem_cons_self ..))
    have husable : ∀ w, (s.eliminate l).numbering.Usable w ↔ w ≠ l.var ∧ s.numbering.Usable w := fun w =>
      Numbering.usable_eliminate hul.1
    obtain ⟨hf', ha', hu', hs', n, o, a, c, he⟩ := ih hf hn
      (fun m hm => (husable _).2 ⟨fun he => hl (List.mem_map.2 ⟨m, hm, he⟩), hu m (List.mem_cons_of_mem _ hm)⟩)
      fun m hm => hv m (List.mem_cons_of_mem _ hm)
    rw [List.foldl_cons]
    refine ⟨hf', ?_, fun w => ?_, ?_, n, o, a, c, ?_⟩
    · rw [List.length_cons, ← ha, ← ha']
      omega
    · rw [hu', husable, List.map_cons, List.mem_cons, not_or]
      exact ⟨fun ⟨h1, h2, h3⟩ => ⟨⟨h2, h1⟩, h3⟩, fun ⟨⟨h2, h1⟩, h3⟩ => ⟨h1, h2, h3⟩⟩
    · rw [hs']
      simp [Solver.eliminate, Numbering.eliminate, Numbering.size]
    · rw [he]
      rfl

/-! ## One round -/

/-- A step of a solver that may drop clauses, if they are put on the extension stack. -/
structure Grows (s s' : Solver ε) : Prop where
  /-- The settings stay. -/
  settings : s'.settings = s.settings
  /-- The hooks stay. -/
  hooks : s'.hooks = s.hooks
  /-- No variable becomes known. -/
  size : s'.numbering.size = s.numbering.size
  /-- An eliminated variable stays so. -/
  eliminated : ∀ v, s.numbering.isEliminated v = true → s'.numbering.isEliminated v = true
  /-- No clause is begun. -/
  pending : s'.pending = s.pending
  /-- A refutation stays. -/
  inconsistent : s.inconsistent = true → s'.inconsistent = true
  /-- What was dropped is on the stack, each clause with a witness on a variable that is eliminated. -/
  stack : ∃ ws, s'.extension.entries = ws ++ s.extension.entries ∧
    (∀ w ∈ ws, w.Known s.numbering.size ∧ s'.numbering.isEliminated w.witness.var = true) ∧
    ∀ v, s'.Base v → s.Base (ws.foldl Witnessed.mend v)

/-- Such a step which keeps every contract. -/
structure Evolves (s s' : Solver ε) : Prop extends Grows s s' where
  /-- Contracts are kept. -/
  told : ∀ {h v} (K : Contract h v), Told K s → Told K s'

theorem Advances.evolves (h : Advances s s') : Evolves s s' :=
  { h with
    size := congrArg Numbering.size h.numbering
    eliminated := fun _ hv => h.numbering ▸ hv
    stack := ⟨[], by rw [h.extension]; rfl, by simp, h.base⟩ }

theorem Grows.trans {s'' : Solver ε} (h : Grows s s') (h' : Grows s' s'') : Grows s s'' := by
  obtain ⟨ws, he, hk, hb⟩ := h.stack
  obtain ⟨ws', he', hk', hb'⟩ := h'.stack
  refine ⟨h'.settings.trans h.settings, h'.hooks.trans h.hooks, h'.size.trans h.size,
    fun v hv => h'.eliminated v (h.eliminated v hv), h'.pending.trans h.pending, h'.inconsistent ∘ h.inconsistent,
    ws' ++ ws, ?_, fun w hw => ?_, fun v hv => ?_⟩
  · rw [he', he, List.append_assoc]
  · rcases List.mem_append.1 hw with hw | hw
    · exact h.size ▸ hk' w hw
    · obtain ⟨hknown, helim⟩ := hk w hw
      exact ⟨hknown, h'.eliminated _ helim⟩
  · rw [List.foldl_append]
    exact hb _ (hb' v hv)

theorem Evolves.trans {s'' : Solver ε} (h : Evolves s s') (h' : Evolves s' s'') : Evolves s s'' :=
  ⟨h.toGrows.trans h'.toGrows, fun K hk => h'.told K (h.told K hk)⟩

/-- What is so after a round that eliminated `n` variables, or none. -/
structure Eliminated (lags : Prop) (n : Nat) (s s' : Solver ε) : Prop where
  /-- The invariant. -/
  inv : s'.Inv lags s'.trail.size
  /-- Nothing is left to be propagated. -/
  full : s'.trail.propagated = s'.trail.size
  /-- The level is zero. -/
  level : s'.trail.level = 0
  /-- What is known, and what is dropped. -/
  evolves : Evolves s s'
  /-- Nothing is refuted. -/
  inconsistent : s'.inconsistent = s.inconsistent
  /-- Fewer variables are left. -/
  active : s'.active + n = s.active

/-- The state before the collection at the end of a round. -/
structure Purged (S : Solver ε) (ls : List Literal) (ws : List Witnessed) (T : Solver ε) : Prop where
  /-- Nothing else has changed. -/
  eq : ∃ store watches extension numbering orders active counters,
    T = { S with store, watches, extension, numbering, orders, active, counters }
  /-- The tables fit together. -/
  frame : T.Frame
  /-- The store. -/
  purging : Purging S ls S.store.offsets T.store ws
  /-- The stack. -/
  extension : T.extension.entries = ws ++ S.extension.entries
  /-- There are as many lists. -/
  lists : T.watches.lists.size = S.watches.lists.size
  /-- No watch was added. -/
  sublist : ∀ l, (T.watches.view l).Sublist (S.watches.view l)
  /-- Both lists have the same binary clauses. -/
  symm : ∀ l o, Watches.pairs T.watches.view l o = Watches.pairs T.watches.view o l
  /-- No binary clause has a pure literal. -/
  gone : ∀ l o r h, .binary o r h ∈ T.watches.view l → l ∉ ls
  /-- Other binary clauses stay. -/
  kept : ∀ l o r h, .binary o r h ∈ S.watches.view l → l ∉ ls → o ∉ ls → .binary o r h ∈ T.watches.view l
  /-- Binary clauses that are never to be dropped are on the stack if they were removed. -/
  removed : ∀ l o h, .binary o false h ∈ S.watches.view l → l ∈ ls →
    ∃ w ∈ ws, w.clause = [l, o] ∨ w.clause = [o, l]
  /-- The pure variables are eliminated. -/
  usable : ∀ v, T.numbering.Usable v ↔ v ∉ ls.map Literal.var ∧ S.numbering.Usable v
  /-- No variable becomes known. -/
  size : T.numbering.size = S.numbering.size
  /-- Fewer variables are left. -/
  active : T.active + ls.length = S.active

namespace Purged

variable {T : Solver ε} {ws : List Witnessed} (hP : Purged S ls ws T)
include hP

theorem eliminated {v : Nat} (hv : S.numbering.isEliminated v = true) : T.numbering.isEliminated v = true := by
  by_contra hn
  have hlt : v < T.numbering.size := hP.size ▸ Numbering.lt_size_of_isEliminated hv
  have husable := (hP.usable v).1 ⟨hlt, Bool.not_eq_true _ ▸ hn⟩
  exact Bool.false_ne_true (husable.2.2.symm.trans hv)

/-- A pure variable is eliminated. -/
theorem eliminated_of_mem (hl : l ∈ ls) (hu : S.numbering.Usable l.var) : T.numbering.isEliminated l.var = true := by
  by_contra hn
  have husable := (hP.usable l.var).1 ⟨hP.size.symm ▸ hu.1, Bool.not_eq_true _ ▸ hn⟩
  exact husable.1 (List.mem_map_of_mem hl)

/-- A clause that was put on the stack is on known variables, and the one of its witness is eliminated. -/
theorem known {w : Witnessed} (hw : w ∈ ws) :
    w.Known S.numbering.size ∧ T.numbering.isEliminated w.witness.var = true := by
  obtain ⟨hfor, husable⟩ := hP.purging.stack w hw
  have hwitness := husable _ hfor.mem
  exact ⟨⟨hwitness.1, fun l hl => (husable l hl).1⟩, hP.eliminated_of_mem hfor.pure hwitness⟩

theorem assignment : T.assignment = S.assignment := by
  obtain ⟨_, _, _, _, _, _, _, rfl⟩ := hP.eq
  rfl

theorem trail : T.trail = S.trail := by
  obtain ⟨_, _, _, _, _, _, _, rfl⟩ := hP.eq
  rfl

/-- A binary clause that stays has no pure literal, nor the negation of one. -/
theorem usable_of_binary (h : S.Rooted) (hp : S.Pure ls) {l o : Literal} {r y : Bool}
    (hm : .binary o r y ∈ T.watches.view l) : T.numbering.Usable l.var := by
  have hmS := (hP.sublist l).subset hm
  refine (hP.usable _).2 ⟨fun hl => ?_, (h.paired.usable _ _ _ _ hmS).1⟩
  obtain ⟨m, hm', hv⟩ := List.mem_map.1 hl
  rcases Literal.var_eq_iff.1 hv with rfl | rfl
  · exact hP.gone _ _ _ _ hm hm'
  · exact hp.binary _ _ _ _ hmS hm'

theorem mem_symm {l o : Literal} {r y : Bool} :
    .binary o r y ∈ T.watches.view l ↔ .binary l r y ∈ T.watches.view o := by
  have := hP.symm l o
  rw [← Watches.mem_pairs (x := (r, y)), ← Watches.mem_pairs (x := (r, y)), this]

/-- What was known is still known. -/
theorem holds (hv : S.Holds v) : T.Holds v := by
  have hst := hP.purging.store
  have hsub := hP.sublist
  obtain ⟨t, w, e, m, q, k, c, rfl⟩ := hP.eq
  exact ⟨hv.consistent, hv.root, fun o ho => hst.lits o (hst.offsets ▸ ho) ▸ hv.large o (hst.offsets ▸ ho),
    fun l o r y hm => hv.binary l o r y ((hsub l).subset hm), hv.reasons, hv.derived⟩

section Rooted

variable (h : S.Rooted) (hp : S.Pure ls)
include h hp

/-- What is left is as it needs to be for another round. -/
theorem rooted : T.Rooted := by
  have hst := hP.purging.store
  have hflags := hP.purging.flags
  have hlits := hst.lits
  have hpaired : Watches.Paired T.numbering.Usable T.watches.view := ⟨fun l o r y hm =>
    ⟨hP.usable_of_binary h hp hm, hP.usable_of_binary h hp (hP.mem_symm.1 hm),
      (h.paired.usable _ _ _ _ ((hP.sublist l).subset hm)).2.2⟩, hP.symm, fun l o r hm =>
    h.paired.hyper _ _ _ ((hP.sublist l).subset hm)⟩
  have hlive : ∀ o ∈ T.store.offsets, (T.store.flagsAt o).garbage = false → o ∈ S.store.offsets ∧
      (S.store.flagsAt o).garbage = false ∧ ∀ l ∈ S.store.lits o, l ∉ ls := fun o ho hg => by
    have ho : o ∈ S.store.offsets := hst.offsets ▸ ho
    obtain ⟨hgS, hnone⟩ := hP.purging.live o ho hg
    exact ⟨ho, hgS, hnone ho⟩
  have husable : ∀ o ∈ T.store.offsets, (T.store.flagsAt o).garbage = false → ∀ l ∈ T.store.lits o,
      T.numbering.Usable l.var := fun o ho hg l hl => by
    obtain ⟨ho, hgS, hnone⟩ := hlive o ho hg
    rw [hlits o ho] at hl
    refine (hP.usable _).2 ⟨fun hv => ?_, h.usable o ho hgS l hl⟩
    obtain ⟨m, hm, hv⟩ := List.mem_map.1 hv
    rcases Literal.var_eq_iff.1 hv with rfl | rfl
    · exact hnone m hl hm
    · exact hp.large o ho hgS l hl hm
  have hnodup : ∀ o ∈ T.store.offsets, (T.store.flagsAt o).garbage = false →
      ((T.store.lits o).map Literal.var).Nodup := fun o ho hg => by
    obtain ⟨ho, hgS, -⟩ := hlive o ho hg
    rw [hlits o ho]
    exact h.nodup o ho hgS
  have hsize := hP.size
  have hframe := hP.frame
  obtain ⟨t, w, e, m, q, k, c, rfl⟩ := hP.eq
  exact ⟨hframe, hst.chain, hnodup, husable, hpaired, ⟨hsize.symm ▸ h.clean.marks, h.clean.records, fun o ho =>
    (hflags o (hst.offsets ▸ ho)).2.trans (h.clean.unpinned o (hst.offsets ▸ ho))⟩, h.level, h.unforced⟩

/-- What was dropped is satisfied by going through the stack, and all else stays satisfied. -/
theorem base (hv : T.Base v) : S.Base (ws.foldl Witnessed.mend v) := by
  have hst := hP.purging.store
  have hfor : ∀ w ∈ ws, w.witness ∈ ls ∧ w.witness ∈ w.clause ∧ ∀ l ∈ w.clause, -l ∉ ls := fun w hw =>
    let hf := (hP.purging.stack w hw).1
    ⟨hf.pure, hf.mem, hf.negation⟩
  obtain ⟨hkeep, hsat⟩ := Extension.foldl_mend (v := v) hfor
  refine ⟨fun l hl hlev => ?_, fun o ho hr hg => ?_, fun l o y hm => ?_⟩
  · refine hkeep l (fun hn => ?_) (hv.root l (hP.trail ▸ hl) (hP.assignment ▸ hlev))
    have hff := hp.unassigned _ hn
    rw [Solver.val, h.frame.sized.opposite, (h.frame.trail.tt_iff l).2 hl] at hff
    cases hff
  · cases hgT : (T.store.flagsAt o).garbage with
    | true =>
      obtain ⟨w, hw, hc⟩ := hP.purging.removed o ho hr hg hgT
      exact hc ▸ hsat w hw
    | false =>
      refine hkeep.satisfies (hp.large o ho hg) ?_
      rw [← hst.lits o ho]
      exact hv.large o (hst.offsets.symm ▸ ho) ((hP.purging.flags o ho).1.trans hr) hgT
  · have hneg : ∀ m ∈ [l, o], -m ∉ ls := fun m hm' => by
      rcases List.mem_cons.1 hm' with rfl | hm'
      · exact hp.binary _ _ _ _ hm
      · obtain rfl := List.mem_singleton.1 hm'
        exact hp.binary _ _ _ _ (h.paired.mem_symm.1 hm)
    have hswap : ∀ {u : Valuation} {a b : Literal}, u.Satisfies [a, b] → u.Satisfies [b, a] := fun hs => by
      obtain ⟨x, hx, ht⟩ := hs
      exact ⟨x, by simpa [or_comm] using hx, ht⟩
    by_cases hl : l ∈ ls
    · obtain ⟨w, hw, hc | hc⟩ := hP.removed l o y hm hl
      · exact hc ▸ hsat w hw
      · exact hswap (hc ▸ hsat w hw)
    · by_cases ho : o ∈ ls
      · obtain ⟨w, hw, hc | hc⟩ := hP.removed o l y (h.paired.mem_symm.1 hm) ho
        · exact hswap (hc ▸ hsat w hw)
        · exact hc ▸ hsat w hw
      · exact hkeep.satisfies hneg (hv.binary l o y (hP.kept l o false y hm hl ho))

/-- What was dropped is on the stack, and every contract is kept. -/
theorem evolves : Evolves S T := by
  have hsize := hP.size
  have hextension := hP.extension
  have heliminated : ∀ v, S.numbering.isEliminated v = true → T.numbering.isEliminated v = true := fun _ hv =>
    hP.eliminated hv
  have hknown := fun w (hw : w ∈ ws) => hP.known hw
  have hholds := fun v (hv : S.Holds v) => hP.holds hv
  have hbase := fun v (hv : T.Base v) => hP.base h hp hv
  obtain ⟨_, _, _, _, _, _, _, rfl⟩ := hP.eq
  exact ⟨⟨rfl, rfl, hsize, heliminated, rfl, id, ws, hextension, hknown, hbase⟩,
    fun K hk => ⟨hk.hooks, hk.sound, fun ht => hholds _ (hk.holds ht), hk.learned⟩⟩

end Rooted

section Inv

variable (h : S.Inv lags S.trail.size) (hp : S.Pure ls) (h0 : S.trail.level = 0)
include h hp h0

/-- What is left may be collected. -/
theorem collectable (hfull : S.trail.propagated = S.trail.size) : T.Collectable lags 0 := by
  have hR := hP.rooted (h.rooted h0) hp
  have ha := hP.assignment
  have ht := hP.trail
  have hst := hP.purging.store
  refine ⟨hR.frame, by rw [ht, hfull], hR.chain, .inl rfl, hR.paired, fun l m r y hm => ?_, fun i hi => ?_,
    fun l hl o ho => ?_, fun o ho hd => ?_, fun o _ hlt => absurd hlt (Nat.not_lt_zero o),
    fun r _ _ _ _ _ _ _ _ hlt => absurd hlt (Nat.not_lt_zero _)⟩
  · rw [ha, ht]
    exact h.guarded.binary _ _ _ _ ((hP.sublist l).subset hm)
  · rw [ht] at hi
    rw [ha, ht]
    exact (h.grounded i hi).imp fun r rest _ hr hlits =>
      ⟨hst.current hr, rest, (hst.lits _ hr.2).trans hlits, fun _ hm => hm⟩
  · -- at the root no binary clause is a reason
    rw [ht] at hl
    rw [ha] at ho
    exact Reason.noConfusion ((h.trail.reason_unit h.grounded h0 hl).symm.trans ho)
  · have hg : (T.store.flagsAt o).garbage = false := hd.resolve_right fun hn => hn hR.level
    have hoS : o ∈ S.store.offsets := hst.offsets ▸ ho
    refine ⟨hR.nodup o ho hg, hR.usable o ho hg, ?_⟩
    rw [ha, hst.lits o hoS, (hP.purging.flags o hoS).1]
    exact (h.fits hoS).watchable

/-- The collection at the end of a round. -/
theorem ends_collect (hfull : S.trail.propagated = S.trail.size) :
    Ends (collect 0 .dense) T (fun _ s' => Eliminated lags ls.length S s') fun _ _ => False := by
  have hcol := hP.collectable h hp h0 hfull
  have hclean := (hP.rooted (h.rooted h0) hp).clean
  have hderived : T.derived = #[] := by
    obtain ⟨_, _, _, _, _, _, _, rfl⟩ := hP.eq
    exact h.stored
  have hlevel : T.trail.level = 0 := by rw [hP.trail, h0]
  refine (Solver.ends_collect hcol (fun hn => absurd rfl hn) hclean hderived).imp
    (fun _ s' hs' => ?_) fun _ _ hf => hf
  have hsame : s'.trail = T.trail ∧ s'.inconsistent = T.inconsistent ∧ s'.active = T.active ∧
      s'.learned = T.learned := by
    obtain ⟨_, _, _, _, _, rfl⟩ := hs'.eq
    exact ⟨rfl, rfl, rfl, rfl⟩
  have hinconsistent : T.inconsistent = S.inconsistent := by
    obtain ⟨_, _, _, _, _, _, _, rfl⟩ := hP.eq
    rfl
  obtain ⟨htrail, hinc, hactive, hlearned⟩ := hsame
  have hprop : s'.trail.propagated = s'.trail.size := by rw [htrail, hP.trail, hfull]
  have hevolves := (hP.evolves (h.rooted h0) hp).trans (hs'.refines.advances hlearned).evolves
  exact ⟨hprop ▸ hs'.inv, hprop, by rw [htrail, hlevel], hevolves, hinc.trans hinconsistent, by rw [hactive, hP.active]⟩

end Inv

end Purged

theorem Purging.more {done : List Nat} {t : Store} {ws ws' : List Witnessed} (h : Purging S ls done t ws)
    (hws : ∀ w ∈ ws', Witnessed.For ls w ∧ ∀ l ∈ w.clause, S.numbering.Usable l.var) :
    Purging S ls done t (ws' ++ ws) :=
  { h with
    stack := fun w hw => (List.mem_append.1 hw).elim (hws w) (h.stack w)
    removed := fun o ho hr hg hg' =>
      let ⟨w, hw, hc⟩ := h.removed o ho hr hg hg'
      ⟨w, List.mem_append_right _ hw, hc⟩ }

theorem isMarked_mark (hmarks : s.marks = Array.replicate (2 * s.numbering.size) false)
    (hu : ∀ l ∈ ls, s.numbering.Usable l.var) (l : Literal) :
    (s.mark ls.toArray true).isMarked l = true ↔ l ∈ ls := by
  obtain ⟨-, hget⟩ := getElem?_setAll true ls s.marks
  unfold isMarked mark
  simp only [← Array.foldl_toList]
  rw [Array.getD_eq_getD_getElem?, hget, hmarks, Array.size_replicate, Array.getElem?_replicate]
  have hcode : l.code ∈ ls.map Literal.code ↔ l ∈ ls := by
    simp [List.mem_map, Literal.code_inj]
  simp only [hcode]
  constructor
  · intro ht
    by_contra hn
    simp only [hn, and_false, if_false] at ht
    split at ht <;> simp at ht
  · intro hl
    rw [if_pos ⟨Literal.code_lt_iff.2 (hu l hl).1, hl⟩]
    rfl

/-- A binary clause with a pure literal has no negation of one, and is on usable variables. -/
theorem Pure.touching {c : BinaryClause} (hp : s.Pure ls) (h : s.Rooted) (hc : c ∈ s.watches.touching ls) :
    (c.a ∈ ls ∨ c.b ∈ ls) ∧ ∀ l ∈ [c.a, c.b], -l ∉ ls ∧ s.numbering.Usable l.var := by
  obtain ⟨hc, hm⟩ := Watches.mem_touching.1 hc
  have hw := (Watches.mem_binaries.1 hc).2
  have hw' := h.paired.mem_symm.1 hw
  refine ⟨hm, fun l hl => ?_⟩
  rcases List.mem_cons.1 hl with rfl | hl
  · exact ⟨hp.binary _ _ _ _ hw, (h.paired.usable _ _ _ _ hw).1⟩
  · obtain rfl := List.mem_singleton.1 hl
    exact ⟨hp.binary _ _ _ _ hw', (h.paired.usable _ _ _ _ hw').1⟩

/-- What is on the stack once all clauses with a pure literal are removed, and what is left. -/
theorem Purging.purged {done : List Nat} {t : Store} {ws ws' : List Witnessed} {T : Solver ε}
    (hpurge : Purging s ls done t ws) (hdone : ∀ o ∈ s.store.offsets, o ∈ done) (h : s.Rooted)
    (hws' : ∀ w ∈ ws', Witnessed.For ls w ∧ ∀ l ∈ w.clause, s.numbering.Usable l.var)
    (hall : ∀ c ∈ s.watches.touching ls, c.redundant = false → ∃ w ∈ ws', w.clause = [c.a, c.b])
    (heq : ∃ numbering orders active counters, T = { s with
      store := t
      watches := s.watches.removeAll (s.watches.touching ls)
      extension := ⟨ws' ++ (ws ++ s.extension.entries)⟩
      numbering, orders, active, counters })
    (hf : T.Frame) (hu : ∀ v, T.numbering.Usable v ↔ v ∉ ls.map Literal.var ∧ s.numbering.Usable v)
    (hsize : T.numbering.size = s.numbering.size) (hactive : T.active + ls.length = s.active) :
    Purged s ls (ws' ++ ws) T := by
  obtain ⟨n, o, k, c, rfl⟩ := heq
  exact {
    eq := ⟨_, _, _, _, _, _, _, rfl⟩
    frame := hf
    purging :=
      { hpurge.more hws' with
        live := fun o ho hg => by
          obtain ⟨hlive, hfree⟩ := hpurge.live o ho hg
          exact ⟨hlive, fun _ => hfree (hdone o ho)⟩ }
    extension := (List.append_assoc ..).symm
    lists := by simp
    sublist := h.paired.sublist_removeTouching
    symm := h.paired.pairs_removeTouching_symm
    gone := by
      intro l o r y hm hl
      have hlo : l ≠ o := h.paired.ne ((h.paired.sublist_removeTouching l).subset hm)
      have hmem := (Watches.mem_pairs (x := (r, y))).2 hm
      rw [h.paired.pairs_removeTouching hlo (.inl hl)] at hmem
      simp at hmem
    kept := by
      intro l o r y hm hl ho
      refine (Watches.mem_pairs (x := (r, y))).1 ?_
      rw [h.paired.pairs_untouched hl ho]
      exact Watches.mem_pairs.2 hm
    removed := by
      intro l o y hm hl
      rcases Literal.before_of_ne (h.paired.ne hm) with hlt | hlt
      · have hmem : ⟨l, o, false, y⟩ ∈ s.watches.binaries := Watches.mem_binaries.2 ⟨hlt, hm⟩
        obtain ⟨w, hw, hc⟩ := hall _ (Watches.mem_touching.2 ⟨hmem, .inl hl⟩) rfl
        exact ⟨w, List.mem_append_left _ hw, .inl hc⟩
      · have hmem : ⟨o, l, false, y⟩ ∈ s.watches.binaries :=
          Watches.mem_binaries.2 ⟨hlt, h.paired.mem_symm.1 hm⟩
        obtain ⟨w, hw, hc⟩ := hall _ (Watches.mem_touching.2 ⟨hmem, .inr hl⟩) rfl
        exact ⟨w, List.mem_append_left _ hw, .inr hc⟩
    usable := hu
    size := hsize
    active := hactive }

/-- Everything of a round but the collection meets no fault. -/
theorem ends_purge (h : s.Rooted) (hp : s.Pure ls) :
    Ends (do
        modify fun s : Solver ε => s.mark ls.toArray true
        removeMarked (← get).store.references
        modify fun s =>
          let found := s.watches.binaries.filter fun c => s.isMarked c.a || s.isMarked c.b
          let s := found.foldl removeMarkedBinary s
          ls.foldl eliminate (s.mark ls.toArray false)) s
      (fun _ T => ∃ ws, Purged s ls ws T) fun _ _ => False := by
  have hmark := isMarked_mark h.clean.marks hp.usable
  simp only [ends_bind, ends_get, ends_modify]
  have hrefs : ∀ r ∈ (s.mark ls.toArray true).store.references, s.store.Current r := fun r hr =>
    Store.mem_references.1 hr
  refine (ends_removeMarked (S := s) hmark hp h hrefs (.start h.chain)).imp (fun _ s₁ hs₁ => ?_)
    fun _ _ hf => hf
  obtain ⟨t, ws, done, rfl, hpurge, hdone⟩ := hs₁
  rw [List.append_nil, Store.map_offset_references] at hdone
  generalize hM : (s.mark ls.toArray true).marks = M
  generalize hX : s.purging M t ws = X
  have hmarkX : ∀ l, X.isMarked l = true ↔ l ∈ ls := fun l => by
    rw [isMarked, ← hX, ← hM]
    exact hmark l
  -- the binary clauses
  have hfound : (s.watches.binaries.filter fun c => X.isMarked c.a || X.isMarked c.b) = s.watches.touching ls :=
    List.filter_congr fun c _ => by
      rw [Bool.eq_iff_iff, Bool.or_eq_true, hmarkX, hmarkX, decide_eq_true_eq]
  have htouching : ∀ c ∈ s.watches.touching ls, (c.a ∈ ls ∨ c.b ∈ ls) ∧
      ∀ l ∈ [c.a, c.b], -l ∉ ls ∧ X.numbering.Usable l.var := fun c hc => hX ▸ hp.touching h hc
  obtain ⟨ws', he, hws', hall⟩ := foldl_removeMarkedBinary hmarkX htouching
  subst hX
  unfold purging at hfound he ⊢
  -- the marks are as they were
  have hunmark : Solver.mark { s with
        marks := M
        store := t
        watches := s.watches.removeAll (s.watches.touching ls)
        extension := ⟨ws' ++ (ws ++ s.extension.entries)⟩ } ls.toArray false =
      { s with
        store := t
        watches := s.watches.removeAll (s.watches.touching ls)
        extension := ⟨ws' ++ (ws ++ s.extension.entries)⟩ } := by
    have hmm := mark_mark ls.toArray h.clean.marks
    unfold mark at hM hmm ⊢
    simp only at hM hmm ⊢
    rw [← hM, hmm]
  have hframe : Frame { s with
      store := t
      watches := s.watches.removeAll (s.watches.touching ls)
      extension := ⟨ws' ++ (ws ++ s.extension.entries)⟩ } :=
    { h.frame with lists := by rw [Watches.size_removeAll, h.frame.lists] }
  obtain ⟨hf, hactive, husable, hsize, n, o, k, c, heq⟩ := hframe.foldl_eliminate hp.nodup hp.usable hp.unassigned
  rw [hfound, he, hunmark]
  exact ⟨ws' ++ ws, hpurge.purged hdone h hws' hall ⟨n, o, k, c, heq⟩ hf husable hsize hactive⟩

/-! ## Every round -/

/-- One round meets no fault. -/
theorem ends_eliminatePure (h : s.Inv lags s.trail.size) (hfull : s.trail.propagated = s.trail.size)
    (h0 : s.trail.level = 0) :
    Ends eliminatePure s (fun n s' => Eliminated lags n s s') fun _ _ => False := by
  have hp := pure_pureLiterals (h.rooted h0)
  have hpurge := ends_purge (h.rooted h0) hp
  generalize hls : s.pureLiterals = ls at hp hpurge
  unfold eliminatePure
  rw [ends_bind, ends_get]
  simp only [hls]
  rw [ends_ite, ends_pure]
  refine ⟨fun _ => ⟨h, hfull, h0, (Advances.refl s).evolves, rfl, rfl⟩, fun _ => ?_⟩
  simp only [ends_bind, ends_get, ends_modify, ends_pure] at hpurge ⊢
  refine hpurge.imp (fun _ s₁ h₁ => ?_) fun _ _ hf => hf
  obtain ⟨ws, hP⟩ := h₁
  exact hP.ends_collect h hp h0 hfull

/-- A procedure that meets no fault needs no handler. -/
theorem ends_tryCatch {α : Type} {x : SolverM ε α} {handler : Fault → SolverM ε α} {Q : α → Solver ε → Prop}
    (h : Ends x s Q fun _ _ => False) : Ends (tryCatch x handler) s Q fun _ _ => False := by
  obtain ⟨a, s', hx, hq⟩ := h.exists_ok
  have hrun : tryCatch x handler s = .ok a s' := by
    simp only [tryCatch, tryCatchThe, MonadExceptOf.tryCatch, EStateM.tryCatch, hx]
  exact (ends_of_ok hrun).2 hq

/-- Rounds are gone through until no literal is pure.  Each but the last eliminates a variable. -/
theorem ends_eliminateRounds {n : Nat} (h : s.Inv lags s.trail.size) (hfull : s.trail.propagated = s.trail.size)
    (h0 : s.trail.level = 0) (hn : s.active < n) :
    Ends (eliminateRounds n) s
      (fun _ s' => s'.Inv lags s'.trail.propagated ∧ s'.trail.level = 0 ∧ Evolves s s' ∧
        s'.inconsistent = s.inconsistent)
      fun _ _ => False := by
  induction n generalizing s with
  | zero => exact absurd hn (Nat.not_lt_zero _)
  | succ n ih =>
    obtain ⟨e, he⟩ := isTerminated_eq s
    have hadv := (advances_isTerminated s).evolves
    have h₁ : s.isTerminated.2.Inv lags s.trail.size := by
      rw [he]
      exact { h with
        toFrame := { h.toFrame with }
        toWired := { h.toWired with }
        toClean := { h.toClean with } }
    have hsame : s.isTerminated.2.trail = s.trail ∧ s.isTerminated.2.active = s.active ∧
        s.isTerminated.2.inconsistent = s.inconsistent := by
      rw [he]
      exact ⟨rfl, rfl, rfl⟩
    unfold eliminateRounds
    simp only [ends_bind, ends_modifyGet, ends_ite, ends_pure]
    generalize s.isTerminated.2 = s₁ at hadv h₁ hsame
    obtain ⟨htrail, hactive, hinc⟩ := hsame
    refine ⟨fun _ => ⟨?_, by rw [htrail, h0], hadv, hinc⟩, fun _ => ?_⟩
    · rw [htrail, hfull]
      exact h₁
    rw [← htrail] at h₁ hfull h0
    refine (ends_tryCatch (ends_eliminatePure h₁ hfull h0)).imp (fun k s₂ h₂ => ?_) fun _ _ hf => hf
    have hk := h₂.active
    refine ⟨fun _ => ⟨h₂.full ▸ h₂.inv, h₂.level, hadv.trans h₂.evolves, h₂.inconsistent.trans hinc⟩,
      fun hne => ?_⟩
    refine (ih h₂.inv h₂.full h₂.level (by omega)).imp (fun _ s₃ h₃ => ?_) fun _ _ hf => hf
    exact ⟨h₃.1, h₃.2.1, (hadv.trans h₂.evolves).trans h₃.2.2.1, h₃.2.2.2.trans (h₂.inconsistent.trans hinc)⟩

/-- Every pure literal is eliminated at the root, unless it is found out that there is no model. -/
theorem ends_preprocess (h : s.Inv lags s.trail.propagated) (h0 : s.trail.level = 0) :
    Ends preprocess s (fun _ s' => s'.Settled lags ∧ s'.trail.level = 0 ∧ Evolves s s') fun _ _ => False := by
  unfold preprocess
  simp only [ends_bind, ends_get, ends_ite, ends_throw]
  refine ⟨fun hn => absurd h0 hn, fun _ => ?_⟩
  refine (ends_propagateRoot h h0).imp (fun b s₁ h₁ => ?_) fun _ _ hf => hf
  obtain ⟨href, hlev, hl, ⟨p, hp, hfull⟩, hinc⟩ := h₁
  have hadv := (href.advances hl).evolves
  cases b with
  | false =>
    refine ⟨fun hb => by simp at hb, fun _ => ⟨⟨p, hp, fun hi => ?_⟩, hlev, hadv⟩⟩
    rw [hinc] at hi
    simp at hi
  | true =>
    obtain ⟨rfl, hprop⟩ := hfull rfl
    refine ⟨fun _ => ?_, fun hb => absurd rfl hb⟩
    have hactive : s₁.active < s₁.assignment.size + 1 := by
      rw [show s₁.assignment.size = s₁.numbering.size from hp.sized.records]
      exact Nat.lt_succ_of_le hp.toFrame.active_le
    exact (ends_eliminateRounds hp hprop hlev hactive).imp
      (fun _ s₂ h₂ => ⟨⟨_, h₂.1, fun _ => rfl⟩, h₂.2.1, hadv.trans h₂.2.2.1⟩) fun _ _ hf => hf

end Solver

end ClauseLearning
