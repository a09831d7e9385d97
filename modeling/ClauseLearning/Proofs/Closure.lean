import ClauseLearning.Proofs.Wiring

/-!
# Sets of literals that heed the clauses

A set of literals heeds a clause if it has a literal of the clause wherever it has the negations of all others.
Propagation that begins in a consistent set which heeds all clauses never leaves it, and finds no clause that is false.
It does not matter which clauses of them it comes to first.

Once the literals up to a level of the trail were propagated, they heed every clause that may not be late.  So that
level is closed under propagation, whichever clauses were stored since it began.

* `Heeds`, `Consistent` — sets of literals, which are given as predicates.
* `Solver.Known` — the clauses that a solver stores, or is going to store.
* `Solver.UpToLevel`, `Solver.Inv.heeds` — the literals up to a level.
* `Solver.Within`, `Solver.Leads` — what leads out of no set that heeds the clauses, and only adds to the trail.
* `Solver.Propagates` — besides, what is known stays.
-/

namespace ClauseLearning

/-- A set of literals has a literal of a clause wherever it has the negations of all others. -/
def Heeds (T : Literal → Prop) (c : List Literal) : Prop := ∀ l ∈ c, (∀ m ∈ c, m ≠ l → T (-m)) → T l

/-- No literal is in a set together with its negation. -/
def Consistent (T : Literal → Prop) : Prop := ∀ l, T l → ¬ T (-l)

namespace Heeds

variable {T : Literal → Prop} {c c' : List Literal} {l : Literal}

theorem congr (h : Heeds T c) (hc : ∀ l, l ∈ c' ↔ l ∈ c) : Heeds T c' := fun l hl hall =>
  h l ((hc l).1 hl) fun m hm hne => hall m ((hc m).2 hm) hne

/-- A clause is heeded if one of its literals is there. -/
theorem of_mem (hT : Consistent T) (hl : l ∈ c) (h : T l) : Heeds T c := by
  intro m _ hall
  by_cases he : l = m
  · exact he ▸ h
  · exact absurd (hall l hl he) (hT l h)

/-- A clause that is heeded is not false, unless it is empty. -/
theorem exists_not (h : Heeds T c) (hT : Consistent T) (hl : l ∈ c) : ∃ m ∈ c, ¬ T (-m) := by
  by_contra hc
  have hall : ∀ m ∈ c, T (-m) := by
    intro m hm
    by_contra hn
    exact hc ⟨m, hm, hn⟩
  exact hT l (h l hl fun m hm _ => hall m hm) (hall l hl)

end Heeds

/-- The literals of a set that were propagated heed a clause which is guarded. -/
theorem Guard.heeds {t : Trail} {a : Assignment} {p : Nat} {late : Prop} {x b y d : Literal} {c : List Literal}
    {T : Literal → Prop} (h : Guard t a p late x b y d c) (hlate : ¬ late) (hT : Consistent T)
    (hfall : ∀ l, T (-l) → Fallen t p l)
    (hup : ∀ l m, T (-l) → a.value m = .tt → a.level m ≤ a.level l → T m)
    (hx : x ∈ c) (hb : b ∈ c) (hy : y ∈ c) (hd : d ∈ c) (hne : x ≠ y) : Heeds T c := by
  -- a watched literal that is false shows which literal of the clause is true
  have hback : ∀ {u e w l}, Backed t a p late u e w c → u ∈ c → e ∈ c → w ∈ c → u ≠ l →
      (∀ m ∈ c, m ≠ l → T (-m)) → T l := by
    intro u e w l hback hu he hw hul hall
    have hTu := hall u hu hul
    rcases hback (hfall u hTu) with ⟨z, hz, htt, hle⟩ | ⟨hl, -⟩
    · have hTz := hup u z hTu htt hle
      have hzc : z ∈ c := by
        simp only [List.mem_cons, List.not_mem_nil, or_false] at hz
        rcases hz with rfl | rfl
        · exact he
        · exact hw
      by_cases hzl : z = l
      · exact hzl ▸ hTz
      · exact absurd (hall z hzc hzl) (hT z hTz)
    · exact absurd hl hlate
  intro l _ hall
  by_cases hxl : x = l
  · exact hback h.right hy hd hx (fun he => hne (hxl.trans he.symm)) hall
  · exact hback h.left hx hb hy hxl hall

namespace Solver

variable {ε : Type} {lags : Prop} {s s' : Solver ε} {p k : Nat} {c : List Literal} {l : Literal} {T : Literal → Prop}

/-! ## The levels of the trail -/

/-- A clause is in the store, garbage included, or among the watches, or was derived. -/
def Known (s : Solver ε) (c : List Literal) : Prop :=
  (∃ o ∈ s.store.offsets, c = s.store.lits o) ∨ (∃ l o r y, .binary o r y ∈ s.watches.view l ∧ c = [l, o]) ∨
    ∃ d ∈ s.derived, c = [d.1, d.2]

/-- The clauses that are known depend on the store, the watches and what was derived. -/
theorem Known.congr (h : s.Known c) (hst : s'.store = s.store) (hw : s'.watches = s.watches)
    (hd : s'.derived = s.derived) : s'.Known c := by
  unfold Known at *
  rwa [hst, hw, hd]

/-- The literals on the trail up to a level. -/
def UpToLevel (s : Solver ε) (k : Nat) (l : Literal) : Prop := l ∈ s.trail.literals ∧ s.assignment.level l ≤ k

/-- All literals on the trail are there up to the current level. -/
theorem Frame.upToLevel_level (h : s.Frame) : s.UpToLevel s.trail.level = (· ∈ s.trail.literals) :=
  funext fun _ => propext ⟨fun hl => hl.1, fun hl => ⟨hl, h.trail.level_le_of_mem hl⟩⟩

theorem Frame.consistent_upToLevel (h : s.Frame) (k : Nat) : Consistent (s.UpToLevel k) := fun l hl hn =>
  h.trail.not_mem_of_neg_mem h.sized (l := -l) (by rw [Literal.negate_negate]; exact hl.1) hn.1

/-- The literals up to a level that was propagated heed every clause that is known, unless it may be late. -/
theorem Inv.heeds (h : s.Inv lags p) (hlags : ¬ lags) (hk : k ≤ s.trail.level)
    (hp : s.trail.levelStart (k + 1) ≤ p) (hc : s.Known c) : Heeds (s.UpToLevel k) c := by
  have hT := h.toFrame.consistent_upToLevel k
  have hfall : ∀ l, s.UpToLevel k (-l) → Fallen s.trail p l := by
    rintro l ⟨hl, hle⟩
    obtain ⟨i, hi, he⟩ := Trail.exists_at' hl
    refine Trail.mem_upTo.2 ⟨i, ?_, hi, he⟩
    have := h.trail.level_iff i hi (k + 1) (by omega)
    rw [he] at this
    omega
  have hup : ∀ l m, s.UpToLevel k (-l) → s.assignment.value m = .tt → s.assignment.level m ≤ s.assignment.level l →
      s.UpToLevel k m := fun l m hl hm hle =>
    ⟨(h.trail.tt_iff m).1 hm, Nat.le_trans hle ((Assignment.level_negate _ l).symm ▸ hl.2)⟩
  rcases hc with ⟨o, ho, rfl⟩ | ⟨x, y, r, hy, hm, rfl⟩ | ⟨d, hd, -⟩
  · have hcur : s.store.Current ⟨o, s.store.epoch⟩ := ⟨rfl, ho⟩
    obtain ⟨b, d, hb, hd⟩ := h.watched.exists_pair hcur
    have h3 := (h.store.hasAt ho).three
    have hne := h.store.literalAt_ne ho
    exact (h.guarded.large _ _ b _ d hb hd hne).heeds (fun hl => hlags hl.1) hT hfall hup
      (Store.literalAt_mem (Nat.lt_of_lt_of_le (by decide) h3)) (h.watched.blocking _ b _ hb)
      (Store.literalAt_mem (Nat.lt_of_lt_of_le (by decide) h3)) (h.watched.blocking _ d _ hd) hne
  · have hu := h.paired.usable _ _ _ _ hm
    exact (h.guarded.binary x y r hy hm).heeds (fun hl => hlags hl.1) hT hfall hup (by simp) (by simp) (by simp)
      (by simp) fun he => hu.2.2 (by rw [he])
  · rw [h.stored] at hd
    simp at hd

/-! ## Steps of propagation -/

/-- The trail is within a set of literals that heeds every clause. -/
def Within (s : Solver ε) (T : Literal → Prop) : Prop := (∀ l ∈ s.trail.literals, T l) ∧ ∀ c, s.Known c → Heeds T c

/-- A step that adds to the trail on its current level, loses no clause, and leads out of no consistent set that heeds
the clauses. -/
structure Leads (s s' : Solver ε) : Prop where
  /-- No level begins or ends. -/
  frames : s'.trail.frames = s.trail.frames
  /-- Literals are added to the trail, and no record changes but theirs. -/
  grown : ∃ ls, s'.trail.literals.toList = s.trail.literals.toList ++ ls ∧
    ∀ v, v ∉ ls.map Literal.var → s'.assignment.record v = s.assignment.record v
  /-- A set that the step begins in is not left. -/
  within : ∀ T, Consistent T → s.Within T → s'.Within T
  /-- No clause is lost. -/
  known : ∀ T, (∀ c, s'.Known c → Heeds T c) → ∀ c, s.Known c → Heeds T c

namespace Leads

theorem refl (s : Solver ε) : Leads s s := ⟨rfl, ⟨[], by simp, fun _ _ => rfl⟩, fun _ _ h => h, fun _ h => h⟩

theorem trans {s'' : Solver ε} (h : Leads s s') (h' : Leads s' s'') : Leads s s'' := by
  obtain ⟨ls, hls, hrec⟩ := h.grown
  obtain ⟨ls', hls', hrec'⟩ := h'.grown
  refine ⟨h'.frames.trans h.frames, ⟨ls ++ ls', by rw [hls', hls, List.append_assoc], fun v hv => ?_⟩,
    fun T hT hw => h'.within T hT (h.within T hT hw), fun T hc => h.known T (h'.known T hc)⟩
  rw [List.map_append, List.mem_append, not_or] at hv
  exact (hrec' v hv.2).trans (hrec v hv.1)

/-- The literals on the trail stay there. -/
theorem mem (h : Leads s s') (hl : l ∈ s.trail.literals) : l ∈ s'.trail.literals := by
  obtain ⟨ls, hls, -⟩ := h.grown
  exact Array.mem_toList_iff.1 (hls ▸ List.mem_append_left ls (Array.mem_toList_iff.2 hl))

/-- Clauses with the same literals lead nowhere. -/
theorem of_known (ht : s'.trail = s.trail) (ha : s'.assignment = s.assignment)
    (h : ∀ c, s.Known c → ∃ c', s'.Known c' ∧ ∀ l, l ∈ c ↔ l ∈ c')
    (h' : ∀ T, Consistent T → s.Within T → ∀ c, s'.Known c → Heeds T c) : Leads s s' := by
  refine ⟨by rw [ht], ⟨[], by simp [ht], fun _ _ => by rw [ha]⟩, fun T hT hw => ⟨by rw [ht]; exact hw.1, h' T hT hw⟩,
    fun T hc c hk => ?_⟩
  obtain ⟨c', hk', hmem⟩ := h c hk
  exact (hc c' hk').congr hmem

end Leads

/-- A step of propagation: what is known stays, and the step leads out of no consistent set that heeds the clauses. -/
structure Propagates (s s' : Solver ε) : Prop extends Refines s s', Leads s s'

namespace Propagates

theorem refl (s : Solver ε) : Propagates s s := ⟨.refl s, .refl s⟩

theorem trans {s'' : Solver ε} (h : Propagates s s') (h' : Propagates s' s'') : Propagates s s'' :=
  ⟨h.toRefines.trans h'.toRefines, h.toLeads.trans h'.toLeads⟩

end Propagates

/-- A literal is assigned that is in every consistent set which heeds the clauses and has the trail. -/
theorem leads_assign (s : Solver ε) (reason : Reason) (h : ∀ T, Consistent T → s.Within T → T l) :
    Leads s (s.assign l reason) := by
  obtain ⟨u, he⟩ := assign_eq s l reason
  rw [he]
  refine ⟨rfl, ⟨[l], by simp [Trail.push], fun v hv => ?_⟩, fun T hT hw => ⟨fun m hm => ?_, hw.2⟩, fun _ hc => hc⟩
  · have hne : l.var ≠ v := by simpa [eq_comm] using hv
    simp [Assignment.record, Assignment.set, Assignment.write, Array.getD_eq_getD_getElem?, hne]
  · rcases Array.mem_push.1 hm with hm | rfl
    · exact hw.1 m hm
    · exact h T hT hw

/-- A clause whose other literals are false forces its literal. -/
theorem Within.forced (h : s.Within T) (hc : s.Known c) (hl : l ∈ c) (hall : ∀ m ∈ c, m ≠ l → -m ∈ s.trail.literals) :
    T l := h.2 c hc l hl fun m hm hne => h.1 _ (hall m hm hne)

/-- Other places of literals and of watches lead nowhere. -/
theorem leads_permute (hc : s.store.Chain 0) {st' : Store} {w' : Watches} {o : Nat}
    (hp : Store.Permuted o s.store st') (ho : o ∈ s.store.offsets)
    (hb : ∀ l, (w'.view l).filter Watch.isBinary = (s.watches.view l).filter Watch.isBinary) :
    Leads s { s with store := st', watches := w' } := by
  have hoff := hp.offsets hc ho
  refine .of_known rfl rfl (fun c hk => ?_) fun T _ hw c hk => ?_
  · rcases hk with ⟨o', ho', rfl⟩ | ⟨l, o', r, y, hm, rfl⟩ | hd
    · exact ⟨_, .inl ⟨o', hoff ▸ ho', rfl⟩, fun l => (hp.mem_lits_iff hc ho ho' l).symm⟩
    · exact ⟨_, .inr (.inl ⟨l, o', r, y, (mem_of_isBinary (hb l)).2 hm, rfl⟩), fun _ => Iff.rfl⟩
    · exact ⟨c, .inr (.inr hd), fun _ => Iff.rfl⟩
  · rcases hk with ⟨o', ho', rfl⟩ | ⟨l, o', r, y, hm, rfl⟩ | hd
    · have ho' : o' ∈ s.store.offsets := hoff ▸ ho'
      exact (hw.2 _ (.inl ⟨o', ho', rfl⟩)).congr (hp.mem_lits_iff hc ho ho')
    · exact hw.2 _ (.inr (.inl ⟨l, o', r, y, (mem_of_isBinary (hb l)).1 hm, rfl⟩))
    · exact hw.2 c (.inr (.inr hd))

/-- A clause is derived of which one literal is true. -/
theorem leads_derive {a b : Literal} (hb : b ∈ s.trail.literals) :
    Leads s { s with derived := s.derived.push (a, b) } := by
  refine .of_known rfl rfl (fun c hk => ⟨c, hk.imp_right (Or.imp_right ?_), fun _ => Iff.rfl⟩) fun T hT hw c hk => ?_
  · rintro ⟨d, hd, rfl⟩
    exact ⟨d, Array.mem_push.2 (.inl hd), rfl⟩
  · rcases hk with hk | hk | ⟨d, hd, rfl⟩
    · exact hw.2 c (.inl hk)
    · exact hw.2 c (.inr (.inl hk))
    · rcases Array.mem_push.1 hd with hd | rfl
      · exact hw.2 _ (.inr (.inr ⟨d, hd, rfl⟩))
      · exact .of_mem (l := b) hT (by simp) (hw.1 b hb)

/-- No derived clause is left where all are stored. -/
theorem leads_stored (h : ∀ d ∈ s.derived, ∃ r y, .binary d.1 r y ∈ s.watches.view d.2) :
    Leads s { s with derived := #[] } := by
  refine .of_known rfl rfl (fun c hk => ?_) fun T _ hw c hk => ?_
  · rcases hk with hk | hk | ⟨d, hd, rfl⟩
    · exact ⟨c, .inl hk, fun _ => Iff.rfl⟩
    · exact ⟨c, .inr (.inl hk), fun _ => Iff.rfl⟩
    · obtain ⟨r, y, hm⟩ := h d hd
      exact ⟨_, .inr (.inl ⟨_, _, r, y, hm, rfl⟩), fun l => by simp [or_comm]⟩
  · rcases hk with hk | hk | ⟨d, hd, -⟩
    · exact hw.2 c (.inl hk)
    · exact hw.2 c (.inr (.inl hk))
    · simp at hd

/-- A derived clause is stored. -/
theorem leads_addBinary {a b : Literal} {r y : Bool} (hf : s.Frame) (ha : s.numbering.Usable a.var)
    (hb : s.numbering.Usable b.var) (hne : a.var ≠ b.var) (hd : (a, b) ∈ s.derived) :
    Leads s { s with watches := s.watches.addBinary a b r y } := by
  have hview := Watches.view_addBinary r y (hf.code_lt ha) (hf.code_lt hb) fun he => hne (congrArg Literal.var he)
  refine .of_known rfl rfl (fun c hk => ?_) fun T _ hw c hk => ?_
  · rcases hk with hk | ⟨l, o, r', y', hm, rfl⟩ | hk
    · exact ⟨c, .inl hk, fun _ => Iff.rfl⟩
    · refine ⟨_, .inr (.inl ⟨l, o, r', y', ?_, rfl⟩), fun _ => Iff.rfl⟩
      simp only [hview]
      split
      · exact List.mem_append_left _ hm
      · split
        · exact List.mem_append_left _ hm
        · exact hm
    · exact ⟨c, .inr (.inr hk), fun _ => Iff.rfl⟩
  · have hab : Heeds T [a, b] := hw.2 _ (.inr (.inr ⟨_, hd, rfl⟩))
    rcases hk with hk | ⟨l, o, r', y', hm, rfl⟩ | hk
    · exact hw.2 c (.inl hk)
    · simp only [hview] at hm
      have hold : .binary o r' y' ∈ s.watches.view l → Heeds T [l, o] := fun hm =>
        hw.2 _ (.inr (.inl ⟨l, o, r', y', hm, rfl⟩))
      split at hm
      · next hl =>
        rcases List.mem_append.1 hm with hm | hm
        · exact hold hm
        · obtain ⟨rfl, -, -⟩ := Watch.binary.inj (List.mem_singleton.1 hm)
          exact hl ▸ hab
      · split at hm
        · next hl =>
          rcases List.mem_append.1 hm with hm | hm
          · exact hold hm
          · obtain ⟨rfl, -, -⟩ := Watch.binary.inj (List.mem_singleton.1 hm)
            exact hab.congr fun m => by simp [hl, or_comm]
        · exact hold hm
    · exact hw.2 c (.inr (.inr hk))

end Solver

end ClauseLearning
