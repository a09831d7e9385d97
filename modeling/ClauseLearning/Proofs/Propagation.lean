import ClauseLearning.Proofs.Visiting

/-!
# Propagation keeps the invariant

Each literal on the trail is propagated once.  Since no more literals can be on the trail than there are
variables, this comes to an end, with everything propagated or in a conflict.  No other fault is met: every
watch is on a clause that is there, and by one of its first two literals.

* `Solver.Gains` — a literal is assigned while watches are gone through, because of a binary clause
  (`Visiting.gains_binary`) or of one in the store (`Visiting.assignForced`).
* `Solver.Visiting.ends` — going through all watches of a literal.
* `Solver.Wired.storeDerived` — storing the clauses derived meanwhile.
* `Solver.ends_propagate` — the whole of propagation.
-/

namespace ClauseLearning

namespace Solver

variable {ε : Type} {lags : Prop} {s s' S S' : Solver ε} {i p : Nat} {no l : Literal} {kept rest : List Watch}
  {r : Reference} {v : Valuation}

/-! ## Forced literals -/

/-- A literal is true if the decision of the first level is, in a clause whose other literals are false
on that level. -/
theorem Holds.makesTrue_forced (h : s.Holds v) (hf : s.Frame) (hw : s.Wired lags p)
    (hr : s.store.Current r) {ms : List Literal} (hlits : s.store.lits r.offset = l :: ms)
    (hms : ∀ m ∈ ms, -m ∈ s.trail.literals) (hlev : s.trail.level ≤ 1)
    (hd : s.trail.level = 1 → v.makesTrue (s.trail.decision 1) = true) :
    v.makesTrue l = true := by
  obtain ⟨m, hm, ht⟩ := h.large _ hr.2
  rw [hlits] at hm
  rcases List.mem_cons.1 hm with rfl | hm
  · exact ht
  · obtain ⟨j, hj, he⟩ := Trail.exists_at' (hms m hm)
    have := h.makesTrue_of_decision hf hw hd j hj hlev
    rw [he, Valuation.makesTrue_negate, ht] at this
    simp at this

/-- Assigning a forced literal is assigning it, for one of two reasons. -/
theorem assignForced_eq (s : Solver ε) (l : Literal) (r : Reference) :
    ∃ counters,
      s.assignForced l r = { s.assign l (.large r) with counters } ∨
      s.trail.level = 1 ∧ s.assignForced l r =
        { s.assign l (.binary (-s.trail.decision 1)) with
          counters, derived := s.derived.push (-s.trail.decision 1, l) } := by
  unfold assignForced
  split
  · next h =>
    refine ⟨{ s.counters with hyperBinaries := s.counters.hyperBinaries + 1 }, .inr ⟨h.1, ?_⟩⟩
    simp only [count, assign, h.1]
    rfl
  · exact ⟨(s.assign l (.large r)).counters, .inl rfl⟩

/-- A literal was assigned while the watches of another one are gone through. -/
structure Gains (lags : Prop) (i : Nat) (no : Literal) (kept rest : List Watch) (l : Literal) (s s' : Solver ε) :
    Prop where
  /-- Going through the watches may go on. -/
  visiting : Visiting lags i no kept rest s'
  /-- The literal is on the trail. -/
  mem : l ∈ s'.trail.literals
  /-- The clauses stay. -/
  store : s'.store = s.store
  /-- What else stays. -/
  steady : Steady s s'
  /-- What is known, and where it leads. -/
  propagates : Propagates (s.heldBack no (kept ++ rest)) (s'.heldBack no (kept ++ rest))

/-- Counts do not matter. -/
theorem Gains.counters (h : Gains lags i no kept rest l s s') (counters : Counters) :
    Gains lags i no kept rest l s { s' with counters } where
  visiting := { h.visiting with
    frame := { h.visiting.frame with }
    clean := { h.visiting.clean with }
    wired := { h.visiting.wired with } }
  mem := h.mem
  store := h.store
  steady := { h.steady with }
  propagates := { h.propagates with
    holds := fun v hv => { h.propagates.holds v hv with }
    base := fun v hv => h.propagates.base v { hv with } }

/-- A literal is assigned that is true in all that is known, and in every consistent set which heeds the clauses. -/
theorem Visiting.gains (h : Visiting lags i no kept rest s) {reason : Reason} (hu : s.numbering.Usable l.var)
    (hv : s.val l = .unassigned) (hj : s.Justifies l reason)
    (hroot : s.trail.level = 0 → ∀ v, (s.heldBack no (kept ++ rest)).Holds v → v.makesTrue l = true)
    (hbinary : ∀ o, reason = .binary o → ∀ v, (s.heldBack no (kept ++ rest)).Holds v → v.Satisfies [l, o])
    (hin : ∀ T, Consistent T → (s.heldBack no (kept ++ rest)).Within T → T l) :
    Gains lags i no kept rest l s (s.assign l reason) := by
  have hr : Propagates (s.heldBack no (kept ++ rest)) ((s.heldBack no (kept ++ rest)).assign l reason) :=
    ⟨refines_assign hu hv (h.frame_heldBack (kept ++ rest)) hroot hbinary, leads_assign _ _ hin⟩
  have hvis := h.assign hu hv hj
  obtain ⟨u, ha⟩ := assign_eq s l reason
  obtain ⟨u', ha'⟩ := assign_eq (s.heldBack no (kept ++ rest)) l reason
  rw [ha'] at hr
  refine ⟨hvis, ?_, ?_, steady_assign .., ?_⟩
  · rw [ha]
    exact Array.mem_push_self
  · rw [ha]
  · rw [ha]
    exact { hr with
      holds := fun v hv' => { hr.holds v hv' with }
      base := fun v hv' => hr.base v { hv' with } }

/-- A literal on the first level is assigned, and the clause that the decision of the level implies it is derived. -/
theorem Visiting.gains_deriving (h : Visiting lags i no kept rest s) (hu : s.numbering.Usable l.var)
    (hv : s.val l = .unassigned) (h1 : s.trail.level = 1)
    (hsat : ∀ v, (s.heldBack no (kept ++ rest)).Holds v → v.Satisfies [l, -s.trail.decision 1])
    (hin : ∀ T, Consistent T → (s.heldBack no (kept ++ rest)).Within T → T l) :
    Gains lags i no kept rest l s
      { s.assign l (.binary (-s.trail.decision 1)) with derived := s.derived.push (-s.trail.decision 1, l) } := by
  have hdec := h.frame.trail.decision_mem (k := 1) (Nat.le_refl _) (by omega)
  have hdl := h.frame.trail.level_decision (k := 1) (Nat.le_refl _) (by omega)
  generalize s.trail.decision 1 = d at hsat hdec hdl ⊢
  have hne : (-d).var ≠ l.var := by
    rw [Literal.var_negate]
    intro hvar
    rw [val, h.frame.trail.unassigned_iff h.frame.sized] at hv
    exact hv (hvar ▸ List.mem_map_of_mem (Array.mem_toList_iff.2 hdec))
  have hj : Justifies { s with derived := s.derived.push (-d, l) } l (.binary (-d)) :=
    ⟨⟨by rwa [Literal.negate_negate], fun _ => by
      rw [Assignment.level_negate, hdl]
      exact Nat.one_ne_zero⟩, .inr Array.mem_push_self⟩
  have hvis := h.assign_deriving hu hv hj
    (fun x hx => Array.mem_push.2 (.inl hx)) fun x hx => by
      rcases Array.mem_push.1 hx with hx | rfl
      · exact .inl hx
      · exact .inr ⟨rfl, by rwa [Literal.negate_negate], by rw [Assignment.level_negate, h1]; exact hdl, hne⟩
  have href : Refines _ ((s.heldBack no (kept ++ rest)).assign l (.binary (-d))) :=
    refines_assign hu hv (h.frame_heldBack (kept ++ rest)) (fun h0 => by
      have h0' : s.trail.level = 0 := h0
      omega) fun o ho => by
        obtain rfl := Reason.binary.inj ho
        exact hsat
  have hlead := leads_assign _ (.binary (-d)) hin
  obtain ⟨u, ha⟩ := assign_eq s l (.binary (-d))
  obtain ⟨u', ha'⟩ := assign_eq (s.heldBack no (kept ++ rest)) l (.binary (-d))
  have hst := steady_assign s l (.binary (-d))
  rw [ha'] at href hlead
  have hderive := hlead.trans (leads_derive (a := -d) (b := l) Array.mem_push_self)
  refine ⟨hvis, ?_, ?_, { hst with }, ?_⟩
  · rw [ha]
    exact Array.mem_push_self
  · rw [ha]
  · rw [ha]
    exact { href, hderive with
      holds := fun v hv' =>
        { href.holds v hv' with
          derived := fun x hx => by
            rcases Array.mem_push.1 hx with hx | rfl
            · exact hv'.derived x hx
            · obtain ⟨m, hm, ht⟩ := hsat v hv'
              exact ⟨m, by simpa [or_comm] using hm, ht⟩ }
      base := fun v hv' => href.base v { hv' with } }

/-- A literal that a clause forces is assigned. -/
theorem Visiting.assignForced (h : Visiting lags i no kept rest s)
    (hu : s.numbering.Usable l.var) (hv : s.val l = .unassigned) (hr : s.store.Current r)
    {ms : List Literal} (hlits : s.store.lits r.offset = l :: ms)
    (hms : ∀ m ∈ ms, -m ∈ s.trail.literals) :
    Gains lags i no kept rest l s (s.assignForced l r) := by
  have hforced : ∀ v, (s.heldBack no (kept ++ rest)).Holds v → s.trail.level ≤ 1 →
      (s.trail.level = 1 → v.makesTrue (s.trail.decision 1) = true) → v.makesTrue l = true :=
    fun v hv' hlev hd => hv'.makesTrue_forced (h.frame_heldBack _) h.wired hr hlits hms hlev hd
  have hin : ∀ T, Consistent T → (s.heldBack no (kept ++ rest)).Within T → T l := fun T _ hT =>
    hT.forced (.inl ⟨r.offset, hr.2, hlits.symm⟩) (List.mem_cons_self ..) fun m hm hne =>
      hms m ((List.mem_cons.1 hm).resolve_left hne)
  obtain ⟨counters, he | ⟨h1, he⟩⟩ := assignForced_eq s l r
  · rw [he]
    have hj : s.Justifies l (.large r) := ⟨hr, ms, hlits, hms⟩
    refine (h.gains hu hv hj (fun h0 v hv' => ?_) (fun o ho => by simp at ho) hin).counters _
    exact hforced v hv' (by omega) fun h1 => by omega
  · -- the clause that the decision of the level implies the literal becomes the reason
    rw [he]
    refine (h.gains_deriving hu hv h1 (fun v hv' => ?_) hin).counters _
    cases hd : v.makesTrue (s.trail.decision 1) with
    | true => exact ⟨l, by simp, hforced v hv' (by omega) fun _ => hd⟩
    | false => exact ⟨-s.trail.decision 1, by simp, by rw [Valuation.makesTrue_negate, hd]; rfl⟩

/-! ## Binary clauses -/

section Binary

variable {other : Literal} {red hyp : Bool}

theorem Visiting.mem_binary (h : Visiting lags i no kept (.binary other red hyp :: rest) s) :
    .binary other red hyp ∈ (s.heldBack no (kept ++ .binary other red hyp :: rest)).watches.view no := by
  rw [h.view, if_pos rfl]
  simp

theorem Visiting.binary_ne (h : Visiting lags i no kept (.binary other red hyp :: rest) s) : other ≠ no := fun he =>
  (h.wired.paired.usable _ _ _ _ h.mem_binary).2.2 (congrArg Literal.var he.symm)

/-- A binary clause is guarded if its other literal is true. -/
theorem Visiting.settles_binary (h : Visiting lags i no kept (.binary other red hyp :: rest) s)
    (hv : s.val other = .tt) : s.Settles lags (i + 1) no (.binary other red hyp) := by
  have hg := h.wired.guarded.binary _ _ _ _ h.mem_binary
  exact hg.step_true h.here h.binary_ne h.val_no (.inl rfl) (by simp) hv (h.level_le hv)

/-- It is a conflict if that is false. -/
theorem Visiting.conflict_binary (h : Visiting lags i no kept (.binary other red hyp :: rest) s)
    (hv : s.val other = .ff) :
    (s.heldBack no (kept ++ .binary other red hyp :: rest)).Conflict (.binary no other) where
  current r hr := by simp at hr
  watched a b hk := by
    obtain ⟨rfl, rfl⟩ := Key.binary.inj hk
    exact ⟨_, _, h.mem_binary⟩
  falsified m hm := by
    simp only [clauseOf, List.mem_cons, List.not_mem_nil, or_false] at hm
    rcases hm with rfl | rfl
    · exact h.neg_mem
    · exact h.frame.val_ff.1 hv
  level := ⟨no, by simp [clauseOf], h.level⟩

/-- It forces its other literal if that is unassigned. -/
theorem Visiting.gains_binary (h : Visiting lags i no kept (.binary other red hyp :: rest) s)
    (hv : s.val other = .unassigned) :
    Gains lags i no kept (.binary other red hyp :: rest) other s (s.assign other (.binary no)) := by
  have hmem := h.mem_binary
  have hne := h.binary_ne
  have hu := (h.wired.paired.usable _ _ _ _ hmem).2.1
  have hstored : .binary no red hyp ∈ s.watches.view other := by
    have := h.wired.paired.mem_symm.1 hmem
    rwa [h.view, if_neg hne] at this
  have hj : s.Justifies other (.binary no) :=
    ⟨⟨h.neg_mem, fun h0 => by rwa [h.level]⟩, .inl ⟨_, _, hstored⟩⟩
  refine h.gains hu hv hj (fun h0 v hv' => ?_) (fun o ho v hv' => ?_) fun T _ hT => ?_
  · obtain ⟨m, hm, ht⟩ := hv'.binary _ _ _ _ hmem
    rcases List.mem_cons.1 hm with rfl | hm
    · -- at the root the literal that is propagated is false in all that is known
      have hroot := hv'.root _ h.neg_mem (by
        rw [Assignment.level_negate]
        exact h.level.trans h0)
      rw [Valuation.makesTrue_negate, ht] at hroot
      simp at hroot
    · exact List.mem_singleton.1 hm ▸ ht
  · obtain rfl := Reason.binary.inj ho
    obtain ⟨m, hm, ht⟩ := hv'.binary _ _ _ _ hmem
    exact ⟨m, by simpa [or_comm] using hm, ht⟩
  · refine hT.forced (.inr (.inl ⟨_, _, _, _, hmem, rfl⟩)) (by simp) fun m hm hne' => ?_
    obtain rfl : m = no := by simpa [hne'] using hm
    exact h.neg_mem

end Binary

/-! ## Clauses of the store -/

/-- A clause is guarded if the blocking literal or the other watched literal is true. -/
theorem Visiting.settles_large {b m : Literal} (h : Visiting lags i no kept (.large b r :: rest) s)
    (ht : s.val m = .tt) (hm : m = b ∨ s.store.literalAt r.offset 0 = m) :
    s.Settles lags (i + 1) no (.large b r) := by
  intro y d hy
  have hyno : y ≠ no := h.ne_of_mem_view hy
  have hmem : .large b r ∈ (s.heldBack no (kept ++ .large b r :: rest)).watches.view no := by
    rw [h.view, if_pos rfl]
    simp
  have hy' : .large d r ∈ (s.heldBack no (kept ++ .large b r :: rest)).watches.view y := by
    rwa [h.view, if_neg hyno]
  have h3 := (h.wired.store.hasAt h.current.1.2).three
  have hno := h.val_no
  have hg := h.wired.guarded.large r no b y d hmem hy' hyno.symm
  refine hg.step_true (m := m) h.here hyno hno ?_ ?_ ht (h.level_le ht)
  · refine hm.imp_right fun h0 => ?_
    rcases h.wired.watched.front hmem hy' hyno.symm with ⟨h0', -⟩ | ⟨h0', -⟩
    · rw [← h0, show s.store.literalAt r.offset 0 = no from h0', hno] at ht
      simp at ht
    · exact h0.symm.trans h0'
  · rcases hm with rfl | rfl
    · exact h.wired.watched.blocking _ _ _ hmem
    · exact Store.literalAt_mem (Nat.lt_of_lt_of_le (by decide) h3)

/-- It is a conflict if all its literals are false. -/
theorem Visiting.conflict_large {b : Literal} {ws : List Watch}
    (h : Visiting lags i no kept (.large b r :: rest) s) (hno : no ∈ s.store.lits r.offset)
    (hff : ∀ m ∈ s.store.lits r.offset, m = no ∨ s.val m = .ff) : (s.heldBack no ws).Conflict (.large r) where
  current r' hr' := by
    obtain rfl := Key.large.inj hr'
    exact h.current.1
  watched _ _ hk := by simp at hk
  falsified m hm := by
    rcases hff m hm with rfl | hm
    · exact h.neg_mem
    · exact h.frame.val_ff.1 hm
  level := ⟨no, hno, h.level⟩

/-! ## All watches of a literal -/

/-- How going through the watches of a literal has ended. -/
structure Ended (lags : Prop) (i : Nat) (no : Literal) (S : Solver ε) (fault : Option Fault) (kept : List Watch)
    (s' : Solver ε) : Prop where
  /-- Without a fault, everything was gone through. -/
  visiting : ∃ gone left, kept = gone ++ left ∧ Visiting lags i no gone left s' ∧ (fault = none → left = [])
  /-- What is known, and where it leads. -/
  propagates : Propagates S (s'.heldBack no kept)
  /-- What stays. -/
  steady : Steady S s'
  /-- The only fault is a conflict. -/
  conflict : ∀ e, fault = some e → ∃ key, e = .conflict key ∧ (s'.heldBack no kept).Conflict key

theorem steady_heldBack (s : Solver ε) (no : Literal) (ws : List Watch) :
    Steady (s.heldBack no ws) s ∧ Steady s (s.heldBack no ws) := ⟨⟨rfl, rfl, rfl, rfl⟩, rfl, rfl, rfl, rfl⟩

/-- What is so once something has become of one watch: the others may be gone through, or there is a conflict and the
watch stays as it is. -/
def Stepped (lags : Prop) (i : Nat) (no : Literal) (kept : List Watch) (w : Watch) (rest : List Watch) (s : Solver ε) :
    Except Fault (Option Watch) × Solver ε → Prop
  | (.ok x, s') => Visiting lags i no (kept ++ x.toList) rest s' ∧
      Propagates (s.heldBack no (kept ++ w :: rest)) (s'.heldBack no (kept ++ x.toList ++ rest)) ∧ Steady s s'
  | (.error e, s') => ∃ key, e = .conflict key ∧ Visiting lags i no kept (w :: rest) s' ∧
      Propagates (s.heldBack no (kept ++ w :: rest)) (s'.heldBack no (kept ++ w :: rest)) ∧ Steady s s' ∧
      (s'.heldBack no (kept ++ w :: rest)).Conflict key

/-- A watch that guards its clause stays, perhaps with another blocking literal. -/
theorem Visiting.stepped_keep {w w' : Watch} (h : Visiting lags i no kept (w' :: rest) s')
    (hw : s'.Settles lags (i + 1) no w')
    (hr : Propagates (s.heldBack no (kept ++ w :: rest)) (s'.heldBack no (kept ++ w' :: rest))) (hs : Steady s s') :
    Stepped lags i no kept w rest s (.ok (some w'), s') := by
  refine ⟨h.keep hw, ?_, hs⟩
  rw [Option.toList_some, ← List.append_cons]
  exact hr

/-- A clause with the literal of a watch is visited. -/
theorem Visiting.stepped_visited {b other : Literal} {v : Visit} {st' : Store}
    (h : Visiting lags i no kept (.large b r :: rest) s) (hw : s.store.Front r.offset other no)
    (hvisit : Store.visit s.assignment no r s.store = .ok v st')
    (hv : Store.Visited s.assignment no other r.offset s.store v st') (hb : s.val b ≠ .tt) :
    Stepped lags i no kept (.large b r) rest s (s.visitWatch no (.large b r)) := by
  have hr := h.current.1
  have hcur' : st'.Current r := (Store.current_iff hv.epoch (hv.offsets h.wired.store.chain hr.2) r).2 hr
  have h3' : 3 ≤ st'.sizeAt r.offset := by
    rw [hv.sizeAt_self]
    exact (h.wired.store.hasAt hr.2).three
  have hsteady : Steady s { s with store := st' } := ⟨rfl, rfl, rfl, rfl⟩
  have hout := hv.outcome
  unfold visitWatch
  simp only [if_neg hb, onStore, hvisit]
  cases v with
  | satisfied m =>
    obtain ⟨rfl, ht, h1⟩ := hout
    obtain ⟨h₁, hr₁⟩ := h.stays hw hv h1 (.inr rfl)
    exact h₁.stepped_keep (h₁.settles_large ht (.inr hv.first)) hr₁ hsteady
  | moved m o =>
    obtain ⟨rfl, h1, hmno, hmo, hm⟩ := hout
    obtain ⟨h₁, hr₁⟩ := h.moves hw hv h1 hmno hmo hm
    simp only [Stepped, Option.toList_none, List.append_nil]
    exact ⟨h₁, hr₁, ⟨rfl, rfl, rfl, rfl⟩⟩
  | forced m =>
    obtain ⟨rfl, hun, h1, hall⟩ := hout
    obtain ⟨h₁, hr₁⟩ := h.stays hw hv h1 (.inl rfl)
    have hlits : st'.lits r.offset = m :: (st'.lits r.offset).tail := by
      conv_lhs => rw [Store.lits_eq_cons h3', hv.first]
    have hu : s.numbering.Usable m.var :=
      h₁.wired.store.usable _ hcur'.2 m (hlits ▸ List.mem_cons_self ..)
    have hg := h₁.assignForced hu hun hcur' hlits fun x hx => by
      rcases hall x hx with rfl | hx
      · exact h.neg_mem
      · exact h.frame.val_ff.1 hx
    have htt := hg.visiting.frame.val_tt.2 hg.mem
    have hsettles := hg.visiting.settles_large htt (.inr (by rw [hg.store]; exact hv.first))
    exact hg.visiting.stepped_keep hsettles (hr₁.trans hg.propagates) (hsteady.trans hg.steady)
  | conflict =>
    obtain ⟨-, h1, hall⟩ := hout
    obtain ⟨h₁, hr₁⟩ := h.stays hw hv h1 (.inl rfl)
    have hno : no ∈ st'.lits r.offset := h1 ▸ Store.literalAt_mem (Nat.lt_of_lt_of_le (by decide) h3')
    exact ⟨_, rfl, h₁, hr₁, hsteady, h₁.conflict_large hno hall⟩

/-- One watch. -/
theorem Visiting.stepped {w : Watch} (h : Visiting lags i no kept (w :: rest) s) :
    Stepped lags i no kept w rest s (s.visitWatch no w) := by
  cases w with
  | binary other red hyp =>
    unfold visitWatch
    dsimp only
    cases hv : s.val other with
    | tt => exact h.stepped_keep (h.settles_binary hv) (.refl _) (.refl _)
    | ff => exact ⟨_, rfl, h, .refl _, .refl _, h.conflict_binary hv⟩
    | unassigned =>
      have hg := h.gains_binary hv
      have htt := hg.visiting.frame.val_tt.2 hg.mem
      exact hg.visiting.stepped_keep (hg.visiting.settles_binary htt) hg.propagates hg.steady
  | large b r =>
    by_cases hb : s.val b = .tt
    · unfold visitWatch
      simp only [if_pos hb]
      exact h.stepped_keep (h.settles_large hb (.inl rfl)) (.refl _) (.refl _)
    · obtain ⟨hr, other, hw⟩ := h.current
      obtain ⟨v, st', hvisit, hv⟩ := Store.ends_visit (a := s.assignment) h.wired.store.chain hr
        (h.wired.store.nodup_lits hr.2) hw
      exact h.stepped_visited hw hvisit hv hb

/-- Going through the watches of a literal ends with all of them gone through, or in a conflict. -/
theorem Visiting.ends {kept : Array Watch} (h : Visiting lags i no kept.toList rest s) :
    Ended lags i no (s.heldBack no (kept.toList ++ rest)) (propagateList no rest kept s).1.1
      (propagateList no rest kept s).1.2.toList (propagateList no rest kept s).2 := by
  refine propagateList_run (I := fun left gone s' => Visiting lags i no gone.toList left s' ∧
    Propagates (s.heldBack no (kept.toList ++ rest)) (s'.heldBack no (gone.toList ++ left)) ∧
    Steady (s.heldBack no (kept.toList ++ rest)) s')
    (E := fun out => Ended lags i no (s.heldBack no (kept.toList ++ rest)) out.1.1 out.1.2.toList out.2)
    (fun gone s' hs' => ?_) (fun {w left gone s₁ x s₂} hs₁ he => ?_) (fun {w left gone s₁ e s₂} hs₁ he => ?_)
    ⟨h, .refl _, (steady_heldBack ..).1⟩
  · -- nothing is left
    obtain ⟨hv, hr, hs⟩ := hs'
    rw [List.append_nil] at hr
    exact ⟨⟨gone.toList, [], by simp, hv, fun _ => rfl⟩, hr, hs, fun e he => by simp at he⟩
  · obtain ⟨hv, hr, hs⟩ := hs₁
    have hstep := hv.stepped
    rw [he] at hstep
    obtain ⟨hv', hr', hs'⟩ := hstep
    rw [← toList_elim_push] at hv' hr'
    exact ⟨hv', hr.trans hr', hs.trans hs'⟩
  · -- a conflict leaves the list as it is from there on
    obtain ⟨hv, hr, hs⟩ := hs₁
    have hstep := hv.stepped
    rw [he] at hstep
    obtain ⟨key, rfl, hv', hr', hs', hc⟩ := hstep
    have hlist : (gone.push w ++ left).toList = gone.toList ++ w :: left := by simp
    refine ⟨⟨gone.toList, w :: left, hlist, hv', fun he => by simp at he⟩, hlist ▸ hr.trans hr', hs.trans hs',
      fun e he => ⟨key, (Option.some.inj he).symm, hlist ▸ hc⟩⟩

/-! ## Derived clauses -/

/-- Derived clauses are stored.  In each of them one literal is false and the other one is true, on the
same level, so it is guarded. -/
theorem Wired.addDerived {ds : List (Literal × Literal)} (h : s.Wired lags p) (hf : s.Frame)
    (hd : ∀ d ∈ ds, d.2 ∈ s.trail.literals ∧ -d.1 ∈ s.trail.literals ∧
      s.assignment.level d.2 = s.assignment.level d.1 ∧ d.1.var ≠ d.2.var)
    (hs : ∀ d ∈ ds, d ∈ s.derived) :
    let s' := { s with watches := ds.foldl (fun w (a, b) => w.addBinary a b true true) s.watches }
    s'.Frame ∧ s'.Wired lags p ∧ Propagates s s' ∧ (∀ l, ∀ w ∈ s.watches.view l, w ∈ s'.watches.view l) ∧
      ∀ d ∈ ds, .binary d.1 true true ∈ s'.watches.view d.2 := by
  induction ds generalizing s with
  | nil => exact ⟨hf, h, .refl s, fun _ _ hw => hw, fun _ hd => by simp at hd⟩
  | cons d ds ih =>
    obtain ⟨h2, h1, hlev, hne⟩ := hd d (List.mem_cons_self ..)
    have hu1 : s.numbering.Usable d.1.var := hf.usable_of_neg_mem h1
    have hu2 := hf.usable_of_mem h2
    have hg : Guard s.trail s.assignment p (lags ∧ true = true) d.1 d.2 d.2 d.1 [d.1, d.2] := by
      refine ⟨.inl rfl, fun _ => .inl ⟨d.2, by simp, (hf.trail.tt_iff _).2 h2, Nat.le_of_eq hlev⟩,
        fun hfall => ?_⟩
      exact absurd h2 (hf.trail.not_mem_of_neg_mem hf.sized (Trail.mem_of_mem_upTo hfall))
    have hw₁ := h.addBinary hf hu1 hu2 hne (fun _ => rfl) hg (r := true) (y := true)
    have hf₁ : Frame { s with watches := s.watches.addBinary d.1 d.2 true true } :=
      { hf with lists := by rw [Watches.addBinary, Watches.size_add, Watches.size_add]; exact hf.lists }
    have hr₁ : Propagates s { s with watches := s.watches.addBinary d.1 d.2 true true } :=
      ⟨refines_addBinary hf hu1 hu2 hne fun v hv => hv.derived d (hs d (List.mem_cons_self ..)),
        leads_addBinary hf hu1 hu2 hne (hs d (List.mem_cons_self ..))⟩
    obtain ⟨hf₂, hw₂, hr₂, hv₂, hds₂⟩ := ih hw₁ hf₁ (fun e he => hd e (List.mem_cons_of_mem _ he))
      fun e he => hs e (List.mem_cons_of_mem _ he)
    have hview := Watches.view_addBinary true true (hf.code_lt hu1) (hf.code_lt hu2)
      fun he => hne (congrArg Literal.var he)
    refine ⟨hf₂, hw₂, hr₁.trans hr₂, fun l w hw => hv₂ l w ?_, fun e he => ?_⟩
    · rw [hview]
      split
      · exact List.mem_append_left _ hw
      · split
        · exact List.mem_append_left _ hw
        · exact hw
    · rcases List.mem_cons.1 he with rfl | he
      · refine hv₂ _ _ ?_
        rw [hview, if_neg fun he => hne (congrArg Literal.var he.symm), if_pos rfl]
        exact List.mem_append_right _ (List.mem_singleton.2 rfl)
      · exact hds₂ e he

/-- Derived clauses are stored, and none is left. -/
theorem Wired.storeDerived (h : s.Wired lags p) (hf : s.Frame)
    (hd : ∀ d ∈ s.derived, d.2 ∈ s.trail.literals ∧ -d.1 ∈ s.trail.literals ∧
      s.assignment.level d.2 = s.assignment.level d.1 ∧ d.1.var ≠ d.2.var) :
    s.storeDerived.Frame ∧ s.storeDerived.Wired lags p ∧ Propagates s s.storeDerived ∧
      ∀ l, ∀ w ∈ s.watches.view l, w ∈ s.storeDerived.watches.view l := by
  have := h.addDerived hf (fun d hm => hd d (Array.mem_toList_iff.1 hm))
    fun d hm => Array.mem_toList_iff.1 hm
  simp only [Array.foldl_toList] at this
  obtain ⟨hf', hw', hr', hv', hds⟩ := this
  have hlead := hr'.toLeads.trans (leads_stored fun d hd => ⟨_, _, hds d (Array.mem_toList_iff.2 hd)⟩)
  refine ⟨{ hf' with }, { hw' with
    guarded := ⟨hw'.guarded.binary, hw'.guarded.large⟩
    reasons := fun l hl o ho => .inl ?_ }, { hr'.toRefines, hlead with
    holds := fun v hv => { hr'.holds v hv with derived := fun d hm => ?_ }
    base := fun v hv => hr'.base v { hv with } }, hv'⟩
  · rcases h.reasons l hl o ho with ⟨r, y, hm⟩ | hd
    · exact ⟨r, y, hv' _ _ hm⟩
    · exact ⟨true, true, hds _ (Array.mem_toList_iff.2 hd)⟩
  · simp [Solver.storeDerived] at hm

/-! ## Literals one after another -/

/-- What propagation keeps. -/
structure Kept (s s' : Solver ε) : Prop where
  /-- What is known. -/
  refines : Refines s s'
  /-- Where it leads. -/
  leads : Leads s s'
  /-- The level stays. -/
  level : s'.trail.level = s.trail.level
  /-- Nothing is refuted. -/
  inconsistent : s'.inconsistent = s.inconsistent
  /-- The last learnt clause stays. -/
  learned : s'.learned = s.learned

theorem Kept.trans {s'' : Solver ε} (h : Kept s s') (h' : Kept s' s'') : Kept s s'' :=
  ⟨h.refines.trans h'.refines, h.leads.trans h'.leads, h'.level.trans h.level,
    h'.inconsistent.trans h.inconsistent, h'.learned.trans h.learned⟩

/-- A state in which a clause is false, with everything below the current level gone through. -/
structure Conflicted (lags : Prop) (s : Solver ε) (key : Key) : Prop where
  /-- The invariant. -/
  inv : ∃ p, s.Inv lags p ∧ p ≤ s.trail.size ∧ s.trail.levelStart s.trail.level ≤ p
  /-- The clause. -/
  conflict : s.Conflict key

/-- Before the watches of a literal are gone through. -/
theorem Inv.visiting (h : s.Inv lags i) (hi : i < s.trail.size) (hat : s.trail.at' i = l)
    (hlev : s.trail.levelStart s.trail.level ≤ i) :
    Visiting lags i (-l) [] (s.watches.of (-l)).toList { s with watches := s.watches.set (-l) #[] } := by
  have hlevel : s.assignment.level l = s.trail.level := by
    refine Nat.le_antisymm (hat ▸ h.trail.level_le hi) ?_
    have hstart := (h.trail.level_iff i hi s.trail.level (Nat.le_succ _)).1 hlev
    rwa [hat] at hstart
  have hlt : (-l).code < s.watches.lists.size := by
    refine h.toFrame.code_lt ?_
    rw [Literal.var_negate, ← hat]
    exact h.toFrame.usable_of_mem (Trail.at'_mem hi)
  refine ⟨{ h.toFrame with lists := ?_ }, { h.toClean with }, ?_, ?_, hi, ?_, ?_, ?_, ?_⟩
  · rw [Watches.size_set]
    exact h.lists
  · simp only [heldBack, List.nil_append, Array.toArray_toList, Watches.restore_set]
    exact h.toWired
  · rw [Watches.view_set _ hlt, if_pos rfl]
  · rw [Literal.negate_negate]
    exact hat
  · rw [Assignment.level_negate]
    exact hlevel
  · intro w hw
    simp at hw
  · intro d hd
    have hd : d ∈ s.derived := hd
    rw [h.stored] at hd
    simp at hd

section Finish

variable {i : Nat} {no : Literal} {kept rest : List Watch}

/-- After all watches were gone through. -/
theorem Visiting.finished (h : Visiting lags i no kept [] s) :
    (s.heldBack no kept).storeDerived.Inv lags (i + 1) ∧
      Propagates (s.heldBack no kept) (s.heldBack no kept).storeDerived := by
  obtain ⟨hf, hw, hr, -⟩ := h.wired_succ.storeDerived (h.frame_heldBack kept) h.derived
  exact ⟨⟨hf, hw, { h.clean with }, rfl⟩, hr⟩

/-- After a conflict, with watches left. -/
theorem Visiting.conflicted {key : Key} (h : Visiting lags i no kept rest s)
    (hc : (s.heldBack no (kept ++ rest)).Conflict key) :
    Conflicted lags (s.heldBack no (kept ++ rest)).storeDerived key ∧
      Propagates (s.heldBack no (kept ++ rest)) (s.heldBack no (kept ++ rest)).storeDerived := by
  have hfr := h.frame_heldBack (kept ++ rest)
  obtain ⟨hf, hw, hr, hview⟩ := h.wired.storeDerived hfr h.derived
  have hbelow : s.trail.levelStart s.trail.level ≤ i := by
    refine (hfr.trail.level_iff i h.inside s.trail.level (Nat.le_succ _)).2 ?_
    rw [show (s.heldBack no (kept ++ rest)).trail.at' i = -no from h.here, Assignment.level_negate]
    exact Nat.le_of_eq h.level.symm
  refine ⟨⟨⟨i, ⟨hf, hw, { h.clean with }, rfl⟩, Nat.le_of_lt h.inside, hbelow⟩,
    hc.current, fun a b hab => ?_, hc.falsified, hc.level⟩, hr⟩
  obtain ⟨r, y, hm⟩ := hc.watched a b hab
  exact ⟨r, y, hview _ _ hm⟩

end Finish

/-- One literal is propagated. -/
theorem ends_propagateLiteral (h : s.Inv lags i) (hi : i < s.trail.size) (hat : s.trail.at' i = l)
    (hlev : s.trail.levelStart s.trail.level ≤ i) :
    Ends (propagateLiteral l) s
      (fun _ s' => s'.Inv lags (i + 1) ∧ Kept s s' ∧ s'.trail.propagated = s.trail.propagated)
      (fun e s' => ∃ key, e = .conflict key ∧ Conflicted lags s' key ∧ Kept s s') := by
  have hback : heldBack { s with watches := s.watches.set (-l) #[] } (-l)
      ((#[] : Array Watch).toList ++ (s.watches.of (-l)).toList) = s := by
    simp only [heldBack, List.nil_append, Array.toArray_toList, Watches.restore_set]
  have hvis : Visiting lags i (-l) (#[] : Array Watch).toList (s.watches.of (-l)).toList
      { s with watches := s.watches.set (-l) #[] } := h.visiting hi hat hlev
  have hend := hvis.ends
  rw [hback] at hend
  unfold Ends propagateLiteral
  simp only
  generalize hrun : propagateList (-l) (s.watches.of (-l)).toList #[]
    { s with watches := s.watches.set (-l) #[] } = run at hend ⊢
  obtain ⟨⟨fault, kept⟩, s₁⟩ := run
  simp only at hend ⊢
  obtain ⟨⟨gone, left, hk, hv, hleft⟩, href, hst, hconf⟩ := hend
  have hheld : ({ s₁ with watches := s₁.watches.restore (-l) kept } : Solver ε) =
      s₁.heldBack (-l) kept.toList := by
    simp only [heldBack, Array.toArray_toList]
  rw [hheld]
  cases fault with
  | none =>
    obtain rfl := hleft rfl
    rw [List.append_nil] at hk
    subst hk
    obtain ⟨hinv, hr⟩ := hv.finished
    have hgo := href.trans hr
    exact ⟨hinv, ⟨hgo.toRefines, hgo.toLeads, hst.level, hst.inconsistent, hst.learned⟩, hst.propagated⟩
  | some e =>
    obtain ⟨key, rfl, hc⟩ := hconf e rfl
    rw [hk] at hc href ⊢
    obtain ⟨hcon, hr⟩ := hv.conflicted hc
    have hgo := href.trans hr
    exact ⟨key, rfl, hcon, hgo.toRefines, hgo.toLeads, hst.level, hst.inconsistent, hst.learned⟩

/-- The state in which the next literal of the trail is propagated. -/
def beginNext (s : Solver ε) : Solver ε :=
  { s with
    trail := { s.trail with propagated := s.trail.propagated + 1 }
    counters := { s.counters with propagations := s.counters.propagations + 1 } }

theorem Inv.beginNext (h : s.Inv lags p) (hlt : s.trail.propagated < s.trail.size) : s.beginNext.Inv lags p :=
  { h with
    toFrame := { h.toFrame with trail := h.trail.step hlt }
    toWired := { h.toWired with guarded := h.guarded.of_literals rfl }
    toClean := { h.toClean with } }

theorem kept_beginNext (s : Solver ε) : Kept s s.beginNext :=
  ⟨⟨rfl, rfl, rfl, rfl, rfl, rfl, rfl, id, fun _ hv => { hv with }, fun _ hv => { hv with }⟩,
    { Leads.refl s with }, rfl, rfl, rfl⟩

/-- Literals are propagated until all are or some fault is met, if what holds bounds how many there can be and one after
another keeps it. -/
theorem ends_propagateMany_of {I : Solver ε → Prop} {E : Fault → Solver ε → Prop} {n bound : Nat}
    (hbound : ∀ s, I s → s.trail.propagated ≤ s.trail.size ∧ s.trail.size ≤ bound)
    (hstep : ∀ s, I s → s.trail.propagated < s.trail.size →
      Ends (propagateLiteral (s.trail.at' s.trail.propagated)) s.beginNext
        (fun _ s' => I s' ∧ s'.trail.propagated = s.trail.propagated + 1) E)
    (h : I s) (hn : bound < n + s.trail.propagated) :
    Ends (propagateMany n) s (fun _ s' => I s' ∧ s'.trail.propagated = s'.trail.size) E := by
  induction n generalizing s with
  | zero =>
    have hle := hbound s h
    omega
  | succ n ih =>
    rw [propagateMany]
    simp only [ends_bind, ends_get]
    by_cases hlt : s.trail.propagated < s.trail.size
    · simp only [Trail.next?_of_lt hlt, ends_bind, ends_modify]
      refine (hstep s h hlt).imp (fun _ s' hs' => ?_) fun _ _ he => he
      exact ih hs'.1 (by omega)
    · simp only [Trail.next?_of_le (Nat.le_of_not_lt hlt), ends_pure]
      exact ⟨h, Nat.le_antisymm (hbound s h).1 (Nat.le_of_not_lt hlt)⟩

/-- Literals are propagated until all are or some clause is false, since no more than there are variables
can be. -/
theorem ends_propagateMany {n : Nat} (h : s.Inv lags s.trail.propagated)
    (hn : s.numbering.size < n + s.trail.propagated) :
    Ends (propagateMany n) s
      (fun _ s' => s'.Inv lags s'.trail.propagated ∧ s'.trail.propagated = s'.trail.size ∧ Kept s s')
      (fun e s' => ∃ key, e = .conflict key ∧ Conflicted lags s' key ∧ Kept s s') := by
  have hrefl : Kept s s := ⟨.refl s, .refl s, rfl, rfl, rfl⟩
  refine (ends_propagateMany_of (I := fun s' => s'.Inv lags s'.trail.propagated ∧ Kept s s')
    (fun s' hs' => ⟨hs'.1.trail.propagated, ?_⟩) (fun s₁ hs₁ hlt => ?_) ⟨h, hrefl⟩ hn).imp
    (fun _ s' hs' => ⟨hs'.1.1, hs'.2, hs'.1.2⟩) fun _ _ he => he
  · have hsize : s'.numbering = s.numbering := hs'.2.refines.numbering
    exact hsize ▸ hs'.1.toFrame.size_le
  · obtain ⟨hinv, hk⟩ := hs₁
    have hk₁ := hk.trans (kept_beginNext s₁)
    refine (ends_propagateLiteral (hinv.beginNext hlt) hlt rfl hinv.trail.below).imp (fun _ s' hs' => ?_)
      fun e s' hs' => ?_
    · obtain ⟨hinv', hk', hp'⟩ := hs'
      have hp' : s'.trail.propagated = s₁.trail.propagated + 1 := hp'
      exact ⟨⟨hp' ▸ hinv', hk₁.trans hk'⟩, hp'⟩
    · obtain ⟨key, he, hc, hk'⟩ := hs'
      exact ⟨key, he, hc, hk₁.trans hk'⟩

/-- Propagation ends with everything propagated, or in a conflict. -/
theorem ends_propagate (h : s.Inv lags s.trail.propagated) :
    Ends propagate s
      (fun _ s' => s'.Inv lags s'.trail.propagated ∧ s'.trail.propagated = s'.trail.size ∧ Kept s s')
      (fun e s' => ∃ key, e = .conflict key ∧ Conflicted lags s' key ∧ Kept s s') := by
  rw [propagate, ends_bind, ends_get]
  refine ends_propagateMany h ?_
  have : s.assignment.size = s.numbering.size := h.sized.records
  unfold propagationBound
  omega

/-- Where everything was propagated, there is nothing to do. -/
theorem propagate_full (hfull : s.trail.propagated = s.trail.size) : propagate s = .ok () s := by
  have hnone : s.trail.next? = none := by
    simp [Trail.next?, hfull, Trail.size]
  have hstep : ∀ n, Ends (propagateMany (n + 1)) s (fun _ s' => s' = s) fun _ _ => False := fun n => by
    rw [propagateMany, ends_bind, ends_get, hnone, ends_pure]
  have hends : Ends propagate s (fun _ s' => s' = s) fun _ _ => False := by
    rw [propagate, ends_bind, ends_get]
    exact hstep _
  obtain ⟨⟨⟩, s', he, rfl⟩ := hends.exists_ok
  exact he

/-! ## At the root -/

/-- A conflict at the root means that there is no model. -/
theorem Conflict.not_holds {key : Key} (h : s.Conflict key) (hf : s.Frame) (h0 : s.trail.level = 0)
    (v : Valuation) : ¬ s.Holds v := by
  intro hv
  obtain ⟨l, hl, ht⟩ := h.satisfies hv
  have hmem := h.falsified l hl
  have := hv.root _ hmem (Nat.le_zero.1 (h0 ▸ hf.trail.level_le_of_mem hmem))
  rw [Valuation.makesTrue_negate, ht] at this
  simp at this

/-- What is known after a refutation, if nothing satisfied what was known. -/
theorem refines_refute (h : ∀ v, ¬ s.Holds v) : Refines s s.refute :=
  ⟨rfl, rfl, rfl, rfl, rfl, rfl, rfl, fun _ => rfl, fun v hv => absurd hv (h v),
    fun _ hv => { hv with }⟩

theorem Inv.refute (h : s.Inv lags p) : s.refute.Inv lags p :=
  { h with
    toFrame := { h.toFrame with }
    toWired := { h.toWired with }
    toClean := { h.toClean with } }

/-- Propagation at the root meets no fault, and refutes where there is a conflict. -/
theorem ends_propagateRoot (h : s.Inv lags s.trail.propagated) (h0 : s.trail.level = 0) :
    Ends propagateRoot s
      (fun b s' => Refines s s' ∧ s'.trail.level = 0 ∧ s'.learned = s.learned ∧
        (∃ p, s'.Inv lags p ∧ (b = true → p = s'.trail.size ∧ s'.trail.propagated = s'.trail.size)) ∧
        s'.inconsistent = (s.inconsistent || !b))
      (fun _ _ => False) := by
  have hend := ends_propagate h
  unfold Ends at hend
  unfold Ends propagateRoot
  cases hrun : propagate s with
  | ok a s' =>
    rw [hrun] at hend
    obtain ⟨hinv, hfull, hk⟩ := hend
    refine ⟨hk.refines, hk.level.trans h0, hk.learned, ⟨_, hinv, fun _ => ⟨hfull, hfull⟩⟩, ?_⟩
    simpa using hk.inconsistent
  | error e s' =>
    rw [hrun] at hend
    obtain ⟨key, rfl, hc, hk⟩ := hend
    obtain ⟨p, hinv, -, -⟩ := hc.inv
    refine ⟨hk.refines.trans (refines_refute (hc.conflict.not_holds hinv.toFrame (hk.level.trans h0))),
      hk.level.trans h0, hk.learned, ⟨p, { hinv with }, fun hb => by simp at hb⟩, ?_⟩
    simp [refute]

end Solver

end ClauseLearning
