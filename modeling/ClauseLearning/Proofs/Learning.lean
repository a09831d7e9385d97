import ClauseLearning.Proofs.Analysis
import ClauseLearning.Proofs.Contract
import ClauseLearning.Proofs.Storing
import ClauseLearning.Proofs.Trimming
import ClauseLearning.Solver.Learn

/-!
# Learning keeps the invariant

A learnt clause is a unit on each level from its jump level up to the one below the conflict.  So wherever
levels are taken back to, its first literal is not assigned, and all others are false above the root.

* `Solver.ends_storeRedundant` — a redundant clause in the store.
* `Solver.Weeded` — recent clauses were dropped.
* `Solver.ends_storeLearned` — the learnt clause as it is stored, with its first literal assigned.
* `Solver.ends_learn` — the learnt clause, stored and offered to what is outside.
-/

namespace ClauseLearning

namespace Solver

variable {ε : Type} {lags : Prop} {s s' s'' : Solver ε} {p jump glue : Nat} {a b x y l : Literal}
  {rest tail : List Literal}

/-! ## Redundant clauses -/

/-- A redundant clause is stored and watched, unless there is no room for it. -/
theorem ends_storeRedundant {clause : Array Literal} (hc : s.store.Chain 0)
    (hl : clause.toList = x :: y :: tail) (h3 : 3 ≤ clause.size) :
    Ends (storeRedundant clause glue) s
      (fun r s' => r = s.store.nextReference ∧ ∃ st' f,
        s' = { s with store := st', watches := s.watches.addLarge r x y } ∧
          Store.Appended (x :: y :: tail) f s.store st' ∧ f.redundant = true ∧ f.reason = false)
      (fun e s' => e = .exhausted ∧ s' = s) := by
  have h0 : clause.getD 0 .invalid = x := by
    rw [Array.getD_eq_getD_getElem?, ← Array.getElem?_toList, hl]
    rfl
  have h1 : clause.getD 1 .invalid = y := by
    rw [Array.getD_eq_getD_getElem?, ← Array.getElem?_toList, hl]
    rfl
  unfold storeRedundant
  simp only [ends_bind, ends_onStore, ends_get, ends_modify, ends_pure]
  refine (Store.ends_allocate hc h3).imp (fun r st₁ h => ?_) fun e st₁ h => ?_
  · obtain ⟨rfl, ha, -⟩ := h
    rw [hl] at ha
    have hr := ha.current_next
    simp only [Store.updateFlags, ends_bind, Store.ends_locate ha.chain hr, ends_modify]
    rw [h0, h1]
    refine ⟨trivial, _, _, rfl, ha.setFlagsAt _, ?_, ?_⟩
    · rw [show s.store.nextReference.offset = s.store.words.size from rfl, ha.flags]
      rfl
    · rw [show s.store.nextReference.offset = s.store.words.size from rfl, ha.flags]
      rfl
  · obtain ⟨rfl, rfl⟩ := h
    exact ⟨rfl, rfl⟩

/-! ## Recent clauses -/

/-- Some redundant clauses are garbage now, and some recent clauses were forgotten. -/
structure Weeded (s s' : Solver ε) : Prop where
  /-- Nothing else has changed. -/
  eq : ∃ store recent counters, s' = { s with store, recent, counters }
  /-- The clauses are the same. -/
  store : Store.Alike s.store s'.store
  /-- Only redundant clauses may have become garbage. -/
  flags : ∀ o ∈ s.store.offsets, (s'.store.flagsAt o).redundant = (s.store.flagsAt o).redundant ∧
    (s'.store.flagsAt o).reason = (s.store.flagsAt o).reason ∧
      ((s.store.flagsAt o).redundant = false →
        (s'.store.flagsAt o).garbage = (s.store.flagsAt o).garbage)
  /-- No clause was added to the recent ones. -/
  recent : ∀ r ∈ s'.recent.toList, r ∈ s.recent.toList

namespace Weeded

theorem refl (h : s.store.Chain 0) : Weeded s s :=
  ⟨⟨s.store, s.recent, s.counters, rfl⟩, .refl h, fun _ _ => ⟨rfl, rfl, fun _ => rfl⟩, fun _ hr => hr⟩

theorem trans (h : Weeded s s') (h' : Weeded s' s'') : Weeded s s'' := by
  obtain ⟨⟨_, _, _, he⟩, hs, hf, hr⟩ := h
  obtain ⟨⟨_, _, _, he'⟩, hs', hf', hr'⟩ := h'
  refine ⟨by rw [he', he]; exact ⟨_, _, _, rfl⟩, hs.trans hs', fun o ho => ?_,
    fun r hr'' => hr r (hr' r hr'')⟩
  obtain ⟨h1, h2, h3⟩ := hf o ho
  obtain ⟨h1', h2', h3'⟩ := hf' o (hs.offsets ▸ ho)
  exact ⟨h1'.trans h1, h2'.trans h2, fun h0 => (h3' (h1.trans h0)).trans (h3 h0)⟩

theorem inv (h : Weeded s s') (hi : s.Inv lags p) : s'.Inv lags p := by
  obtain ⟨⟨st, q, c, rfl⟩, hs, hf, hr⟩ := h
  have hs : Store.Alike s.store st := hs
  have hw := hi.toWired.alike hs fun o ho => (hf o ho).1.trans
  exact
    { hi with
      toFrame := { hi.toFrame with }
      toWired := { hw with recent := fun r hr' => hw.recent r (hr r hr') }
      toClean := ⟨hi.marks, hi.records, fun o ho => by
        have ho : o ∈ s.store.offsets := hs.offsets ▸ ho
        exact (hf o ho).2.1.trans (hi.unpinned o ho)⟩ }

theorem refines (h : Weeded s s') : Refines s s' := by
  obtain ⟨⟨st, q, c, rfl⟩, hs, hf, hr⟩ := h
  have hs : Store.Alike s.store st := hs
  have := refines_alike hs fun v hv o ho h0 hg => by
    have := hv.large o (hs.offsets.symm ▸ ho) ((hf o ho).1.trans h0) (((hf o ho).2.2 h0).trans hg)
    rwa [← hs.lits o ho]
  exact { this with
    holds := fun v hv => { this.holds v hv with }
    base := fun v hv => this.base v { hv with } }

end Weeded

theorem Recent.mem_of_remove {q : Recent} {r r' : Reference} (h : r' ∈ (q.remove r).toList) :
    r' ∈ q.toList := by
  simp only [Recent.toList, Recent.remove, Array.toList_map, List.mem_filterMap, List.mem_map, id] at *
  obtain ⟨_, ⟨o, ho, rfl⟩, he⟩ := h
  split at he
  · simp at he
  · exact ⟨o, ho, he⟩

/-- A recent clause that is subsumed becomes garbage. -/
theorem weeded_subsumeOne {r : Reference} {n : Nat} (hc : s.store.Chain 0) (hr : s.store.Current r)
    (hred : (s.store.flagsAt r.offset).redundant = true) : Weeded s (subsumeOne n s r) := by
  unfold subsumeOne
  split
  · have hm : Ends (onStore (Store.markGarbage r)) s
        (fun _ s₁ => ∃ st', s₁ = { s with store := st' } ∧ Store.Trashed r.offset s.store st')
        fun _ _ => False := by
      rw [ends_onStore]
      exact (Store.ends_markGarbage hc hr).imp (fun _ st' h => ⟨st', rfl, h⟩) fun _ _ hf => hf
    obtain ⟨b, s₁, hrun, st', rfl, ht⟩ := hm.exists_ok
    have hw : ∀ counters, Weeded s
        { s with store := st', counters, recent := s.recent.remove r } := fun counters => by
      refine ⟨⟨st', _, counters, rfl⟩, ht.toAlike, fun o ho => ?_, fun r' hr' => Recent.mem_of_remove hr'⟩
      obtain ⟨used, hu⟩ := ht.flags o ho
      simp only [hu]
      refine ⟨trivial, trivial, fun h0 => ?_⟩
      by_cases he : o = r.offset
      · rw [he, hred] at h0
        simp at h0
      · simp [he]
    rw [hrun]
    cases b with
    | false => exact hw s.counters
    | true => exact hw _
  · exact .refl hc

/-- Recent clauses are gone through. -/
theorem weeded_foldl_subsumeOne {n : Nat} {rs : List Reference} (hc : s.store.Chain 0)
    (hr : ∀ r ∈ rs, s.store.Current r ∧ (s.store.flagsAt r.offset).redundant = true) :
    Weeded s (rs.foldl (subsumeOne n) s) := by
  induction rs generalizing s with
  | nil => exact .refl hc
  | cons r rs ih =>
    obtain ⟨h1, h2⟩ := hr r (List.mem_cons_self ..)
    have hw := weeded_subsumeOne (n := n) hc h1 h2
    refine hw.trans (ih hw.store.chain fun r' hr' => ?_)
    obtain ⟨h1', h2'⟩ := hr r' (List.mem_cons_of_mem _ hr')
    exact ⟨hw.store.current h1', (hw.flags _ h1'.2).1.trans h2'⟩

/-- Recent clauses that contain a clause become garbage, and no mark is left. -/
theorem weeded_subsumeRecent (h : s.Inv lags p) (clause : Array Literal) :
    Weeded s (s.subsumeRecent clause) := by
  unfold subsumeRecent
  split
  · exact .refl h.store.chain
  · have hw := @weeded_foldl_subsumeOne _ (s.mark clause true) clause.size
      (s.mark clause true).recent.toList h.store.chain h.recent
    obtain ⟨⟨st', q, c, he⟩, hs, hf, hr⟩ := hw
    simp only [he] at hs hf hr ⊢
    have hmarks : (Solver.mark { s.mark clause true with store := st', recent := q, counters := c }
        clause false) = { s with store := st', recent := q, counters := c } := by
      have := mark_mark (n := 2 * s.numbering.size) clause h.marks
      simp only [mark] at this ⊢
      rw [this]
    rw [hmarks]
    exact ⟨⟨st', q, c, rfl⟩, hs, hf, hr⟩

/-! ## The learnt clause -/

theorem backtrackLevel_spec (s : Solver ε) (hj : jump < s.trail.level) :
    jump ≤ s.backtrackLevel jump ∧ s.backtrackLevel jump < s.trail.level ∧
      (s.backtrackLevel jump = jump ∨ s.settings.chronoLevels.value + jump + 1 < s.trail.level) := by
  unfold backtrackLevel
  simp only
  split
  · omega
  · split <;> omega

/-- A clause that is a unit: its first literal is not assigned, and the others are false above the root.  The
second one is on the highest level among them, and unless the solver lags that is the current level. -/
structure Ready (lags : Prop) (s : Solver ε) (a : Literal) (rest : List Literal) : Prop where
  /-- The invariant. -/
  inv : s.Inv lags s.trail.size
  /-- Everything was propagated. -/
  full : s.trail.propagated = s.trail.size
  /-- The first literal is not assigned. -/
  unassigned : s.val a = .unassigned
  /-- All variables are usable. -/
  usable : ∀ m ∈ a :: rest, s.numbering.Usable m.var
  /-- The other literals are false above the root. -/
  others : ∀ m ∈ rest, -m ∈ s.trail.literals ∧ s.assignment.level m ≠ 0
  /-- The second literal is on the highest level of them. -/
  second : ∀ b tail, rest = b :: tail → (∀ m ∈ rest, s.assignment.level m ≤ s.assignment.level b) ∧
    (s.trail.level ≤ s.assignment.level b ∨ lags)
  /-- The literals are on different variables. -/
  nodup : ((a :: rest).map Literal.var).Nodup

/-- Where levels are taken back to a level from the jump level on, the learnt clause is a unit. -/
theorem Asserts.ready {k : Nat} (h : s.Asserts a rest jump) (hi : s.Inv lags p)
    (hp : s.trail.levelStart s.trail.level ≤ p) (hj : jump ≤ k) (hk : k < s.trail.level)
    (hlags : rest ≠ [] → k ≠ jump → lags) :
    (s.backtrack k).Ready lags a rest ∧ (s.backtrack k).trail.level = k ∧
      (s.backtrack k).inconsistent = s.inconsistent ∧ (s.backtrack k).learned = s.learned := by
  obtain ⟨hlevel, -, hfull, hmem, hlev, hval⟩ := hi.toFrame.backtrack_trail hk
  obtain ⟨ph, -, he⟩ := backtrack_eq s hk
  have hus : ∀ m ∈ a :: rest, s.numbering.Usable m.var := fun m hm =>
    hi.toFrame.usable_of_neg_mem (h.neg_mem hm)
  refine ⟨⟨hi.backtrack hk hp, hfull, ?_, ?_, fun m hm => ?_, fun b tail hb => ⟨fun m hm => ?_, ?_⟩,
    h.nodup⟩, hlevel, by rw [he], by rw [he]⟩
  · rw [val, hval, if_pos (by rw [h.first.2]; exact hk)]
  · rw [he]
    exact hus
  · obtain ⟨h1, h2, h3⟩ := h.others m hm
    refine ⟨(hmem _).2 ⟨h1, by rw [Assignment.level_negate]; omega⟩, ?_⟩
    rw [hlev]
    exact h2
  · rw [hlev, hlev, h.second b tail hb]
    exact (h.others m hm).2.2
  · rw [hlev, h.second b tail hb, hlevel]
    by_cases hk : k = jump
    · exact .inl (Nat.le_of_eq hk)
    · exact .inr (hlags (by simp [hb]) hk)

/-- What holds after the learnt clause was stored: the invariant, with everything propagated but the
literal that was assigned, and nothing is known that was not known with the clause. -/
structure Learnt (lags : Prop) (clause : List Literal) (s s' : Solver ε) : Prop where
  /-- The invariant. -/
  inv : s'.Inv lags s'.trail.propagated
  /-- What is known. -/
  stores : Stores clause s s'
  /-- Nothing is refuted. -/
  inconsistent : s'.inconsistent = s.inconsistent
  /-- The clause learnt last stays as it is noted. -/
  learned : s'.learned = s.learned

/-- Notes that nothing depends on. -/
theorem Learnt.noted {clause : List Literal} (h : Learnt lags clause s s') {recent : Recent} {counters : Counters}
    (hr : ∀ r ∈ recent.toList, s'.store.Current r ∧ (s'.store.flagsAt r.offset).redundant = true) :
    Learnt lags clause s { s' with recent, counters } :=
  ⟨{ h.inv with
      toFrame := { h.inv.toFrame with }
      toWired := { h.inv.toWired with recent := hr }
      toClean := { h.inv.toClean with } },
    { h.stores with
      holds := fun v hc hv => { h.stores.holds v hc hv with }
      base := fun v hv => h.stores.base v { hv with } }, h.inconsistent, h.learned⟩

namespace Ready

variable {reason : Reason}

theorem level_ne_zero (h : s.Ready lags a (b :: tail)) : s.trail.level ≠ 0 := by
  obtain ⟨h1, h2⟩ := h.others b (List.mem_cons_self ..)
  have := h.inv.trail.level_le_of_mem h1
  rw [Assignment.level_negate] at this
  omega

/-- Once the first literal is assigned, the first two are good to watch. -/
theorem guards (h : s.Ready lags a (b :: tail)) (reason : Reason) {late : Prop} (hl : lags → late) :
    (s.assignment.set a s.trail.level reason).Guards late a b (a :: b :: tail) := by
  have hu := h.usable a (List.mem_cons_self ..)
  have hext := h.inv.trail.extends_push h.inv.sized hu.1 h.unassigned s.trail.level reason
  obtain ⟨hmax, hlev⟩ := h.second b tail rfl
  have hother : ∀ m ∈ b :: tail, (s.assignment.set a s.trail.level reason).value m = .ff ∧
      (s.assignment.set a s.trail.level reason).level m = s.assignment.level m := fun m hm => by
    have hm' := (h.others m hm).1
    have hff : s.assignment.value m = .ff := h.inv.toFrame.val_ff.2 hm'
    exact ⟨(hext.value m (by rw [hff]; decide)).trans hff, hext.level_neg hm'⟩
  obtain ⟨-, hb⟩ := hother b (List.mem_cons_self ..)
  have hval : (s.assignment.set a s.trail.level reason).value a = .tt := by
    rw [Assignment.value_set h.inv.sized hu.1, if_pos rfl]
  have hla : (s.assignment.set a s.trail.level reason).level a = s.trail.level := by
    rw [Assignment.level, Assignment.record_set h.inv.sized hu.1, if_pos rfl]
  refine ⟨by rw [hval]; decide, fun _ => hlev.imp (fun hle => ⟨hval, by rw [hla, hb]; exact hle⟩) ?_⟩
  refine fun hlag => ⟨hl hlag, by rw [hb]; exact (h.others b (List.mem_cons_self ..)).2, fun m hm hne => ?_⟩
  obtain ⟨h1, h2⟩ := hother m ((List.mem_cons.1 hm).resolve_left hne)
  rw [h2, hb]
  exact ⟨h1, hmax m ((List.mem_cons.1 hm).resolve_left hne)⟩

/-- After the clause was stored its first literal is assigned.  Until then the clause is not guarded. -/
theorem inv_assign (h : s.Ready lags a (b :: tail)) {st : Store} {w : Watches}
    (h₁ : Inv lags { s with store := st, watches := w } 0)
    (hj : Justifies { s with store := st, watches := w } a reason)
    (hg : ∀ reason, Guarded lags (s.trail.push a) (s.assignment.set a s.trail.level reason) st w.view
      s.trail.size) :
    (Solver.assign { s with store := st, watches := w } a reason).Inv lags s.trail.size := by
  have hu := h.usable a (List.mem_cons_self ..)
  have := Inv.assign (s := { s with store := st, watches := w }) hu h.unassigned h₁ (Nat.zero_le _) hj
  obtain ⟨u, he⟩ := assign_eq { s with store := st, watches := w } a reason
  rw [he] at this ⊢
  exact { this with guarded := hg _ }

/-- Then recent clauses that contain it go. -/
theorem assign (h : s.Ready lags a (b :: tail)) {st : Store} {w : Watches}
    (hf : Frame { s with store := st, watches := w })
    (h₂ : (Solver.assign { s with store := st, watches := w } a reason).Inv lags s.trail.size)
    (hb : ∀ o, reason = .binary o → ∀ v, Holds { s with store := st, watches := w } v →
      v.Satisfies [a, o]) (clause : Array Literal) :
    let s₁ : Solver ε := { s with store := st, watches := w }
    Learnt lags (a :: b :: tail) s₁ ((s₁.assign a reason).subsumeRecent clause) ∧
      Weeded (s₁.assign a reason) ((s₁.assign a reason).subsumeRecent clause) := by
  intro s₁
  have hu := h.usable a (List.mem_cons_self ..)
  have hw := weeded_subsumeRecent h₂ clause
  have hr := (refines_assign (s := s₁) hu h.unassigned hf (fun hl => absurd hl h.level_ne_zero)
    hb).trans hw.refines
  have hsame : ((s₁.assign a reason).subsumeRecent clause).trail.propagated = s.trail.size ∧
      ((s₁.assign a reason).subsumeRecent clause).inconsistent = s.inconsistent ∧
        ((s₁.assign a reason).subsumeRecent clause).learned = s.learned := by
    obtain ⟨u, he⟩ := assign_eq s₁ a reason
    obtain ⟨⟨_, _, _, he'⟩, -⟩ := hw
    rw [he', he]
    exact ⟨h.full, rfl, rfl⟩
  exact ⟨⟨hsame.1 ▸ hw.inv h₂, hr.stores _, hsame.2.1, hsame.2.2⟩, hw⟩

/-- What was guarded before is so after the first literal was assigned. -/
theorem guarded (h : s.Ready lags a (b :: tail)) (reason : Reason) :
    Guarded lags (s.trail.push a) (s.assignment.set a s.trail.level reason) s.store s.watches.view
      s.trail.size :=
  (h.inv.trail.extends_push h.inv.sized (h.usable a (List.mem_cons_self ..)).1 h.unassigned _ _).guarded
    h.inv.trail h.inv.sized (Nat.le_refl _) h.inv.guarded

end Ready

theorem Stores.learnt {c : List Literal} (h : Stores c s s')
    (hsame : s'.inconsistent = s.inconsistent ∧ s'.learned = s.learned) (h' : Learnt lags c s' s'') :
    Learnt lags c s s'' :=
  ⟨h'.inv, h.trans h'.stores, h'.inconsistent.trans hsame.1, h'.learned.trans hsame.2⟩

/-- A unit is assigned at the root. -/
theorem Ready.learn_unit (h : s.Ready lags a []) (h0 : s.trail.level = 0) (counters : Counters) :
    Learnt lags [a] s { s.assign a .unit with iterating := true, counters } := by
  have hu := h.usable a (List.mem_cons_self ..)
  have h₁ : (s.assign a .unit).Inv lags s.trail.size := h.inv.assign hu h.unassigned (Nat.le_refl _) h0
  have hs := stores_assign hu h.unassigned h.inv.toFrame
  obtain ⟨u, he⟩ := assign_eq s a .unit
  rw [he] at h₁ hs ⊢
  have hw := h₁.toWired
  rw [← h.full] at hw
  refine ⟨⟨{ h₁.toFrame with iterating := fun _ => h0 }, { hw with }, { h₁.toClean with }, h₁.stored⟩,
    ?_, rfl, rfl⟩
  exact { hs with
    holds := fun v hc hv => { hs.holds v hc hv with }
    base := fun v hv => hs.base v { hv with } }

/-- A binary clause is watched. -/
theorem Ready.inv_addBinary (h : s.Ready lags a [b]) :
    Inv lags { s with watches := s.watches.addBinary a b true false } 0 := by
  have hua := h.usable a (by simp)
  have hub := h.usable b (by simp)
  have hnd := h.nodup
  have h₀ := h.inv.anti (Nat.zero_le _)
  exact
    { h₀ with
      lists := by
        simp only [Watches.addBinary, Watches.size_add]
        exact h.inv.lists
      toWired := h₀.toWired.addBinary h.inv.toFrame hua hub (fun he => by simp [he] at hnd) (fun hy => by simp at hy)
        .zero }

theorem Ready.mem_addBinary (h : s.Ready lags a [b]) :
    .binary b true false ∈ (s.watches.addBinary a b true false).view a := by
  have hnd := h.nodup
  rw [Watches.view_addBinary true false (h.inv.toFrame.code_lt (h.usable a (by simp)))
    (h.inv.toFrame.code_lt (h.usable b (by simp))) fun he => by simp [he] at hnd]
  simp

/-- Then its first literal is assigned. -/
theorem Ready.inv_binary (h : s.Ready lags a [b]) :
    (Solver.assign { s with watches := s.watches.addBinary a b true false } a (.binary b)).Inv lags s.trail.size := by
  have hua := h.usable a (by simp)
  have hnd := h.nodup
  have hview := Watches.view_addBinary true false (h.inv.toFrame.code_lt hua)
    (h.inv.toFrame.code_lt (h.usable b (by simp))) fun he => by simp [he] at hnd
  have hj : { s with watches := s.watches.addBinary a b true false }.Justifies a (.binary b) :=
    ⟨⟨(h.others b (by simp)).1, fun _ => (h.others b (by simp)).2⟩, .inl ⟨_, _, h.mem_addBinary⟩⟩
  refine h.inv_assign h.inv_addBinary hj fun r => (h.guarded r).addBinary hview ?_
  have hext := h.inv.trail.push h.inv.sized hua.1 hua h.unassigned r
  exact (h.guards r fun hl => ⟨hl, rfl⟩).guard hext (h.inv.sized.set hua.1 _ _)

/-- A binary clause is watched, and its first literal assigned. -/
theorem Ready.learn_binary (h : s.Ready lags a [b]) (clause : Array Literal) :
    Learnt lags [a, b] s ((Solver.assign { s with watches := s.watches.addBinary a b true false } a
      (.binary b)).subsumeRecent clause) := by
  have hua := h.usable a (by simp)
  have hub := h.usable b (by simp)
  have hnd := h.nodup
  have hne : a.var ≠ b.var := fun he => by simp [he] at hnd
  have hf := h.inv.toFrame
  have hs : Stores [a, b] s { s with watches := s.watches.addBinary a b true false } :=
    ⟨rfl, rfl, rfl, rfl, rfl, rfl, rfl, id, fun v hc hv => hv.addBinary hf hua hub hne hc,
      fun v hv => hv.of_addBinary hf hua hub hne⟩
  refine hs.learnt ⟨rfl, rfl⟩ (h.assign h.inv_addBinary.toFrame h.inv_binary (fun o ho v hv => ?_) clause).1
  obtain rfl := Reason.binary.inj ho
  exact hv.binary a b true false h.mem_addBinary

section Appended

variable {st' : Store} {f : Flags} (h : s.Ready lags a (b :: tail)) (h3 : 3 ≤ (a :: b :: tail).length)
  (ha : Store.Appended (a :: b :: tail) f s.store st') (hred : f.redundant = true) (hreason : f.reason = false)
include h h3 ha hred hreason

/-- A longer clause was stored, and its first literal is assigned. -/
theorem Ready.inv_large :
    let s₁ : Solver ε := { s with
      store := st', watches := s.watches.addLarge s.store.nextReference a b }
    s₁.Inv lags 0 ∧ (s₁.assign a (.large s.store.nextReference)).Inv lags s.trail.size := by
  intro s₁
  have hf := h.inv.toFrame
  have hua := h.usable a (by simp)
  have hc := h.inv.store.chain
  have h₁ : s₁.Inv lags 0 := (h.inv.anti (Nat.zero_le _)).append hf ha h.nodup h.usable h3 hreason .zero
  have hj : s₁.Justifies a (.large s.store.nextReference) :=
    ⟨ha.current_next, b :: tail, ha.lits, fun m hm => (h.others m hm).1⟩
  have hin : ∀ {l b r}, .large b r ∈ s.watches.view l → r.offset ∈ s.store.offsets := fun hm =>
    (h.inv.watched.current hm).2
  refine ⟨h₁, h.inv_assign h₁ hj fun r => ?_⟩
  refine ((h.guarded r).of_store fun l b r hm => ⟨ha.lits_old hc (hin hm), ha.flagsAt_old hc (hin hm)⟩).add
    (view_append hf h.nodup h.usable) (fun l b hm => Store.not_mem_offsets hc (hin hm)) ?_
  rw [show s.store.nextReference.offset = s.store.words.size from rfl, ha.lits, ha.flags]
  have hext := h.inv.trail.push h.inv.sized hua.1 hua h.unassigned r
  exact (h.guards r fun hl => ⟨hl, hred⟩).guard hext (h.inv.sized.set hua.1 _ _)

/-- Then recent clauses that contain it go, and it becomes a recent clause itself. -/
theorem Ready.learn_large (clause : Array Literal) :
    let s₁ : Solver ε := { s with
      store := st', watches := s.watches.addLarge s.store.nextReference a b }
    let s₂ := (s₁.assign a (.large s.store.nextReference)).subsumeRecent clause
    Learnt lags (a :: b :: tail) s
      { s₂ with recent := s₂.recent.push s.store.nextReference } := by
  intro s₁ s₂
  obtain ⟨h₁, h₂⟩ := h.inv_large h3 ha hred hreason
  have hs : Stores (a :: b :: tail) s s₁ := stores_append h.inv.toFrame ha h.nodup h.usable h.inv.store.chain
  obtain ⟨hl, hw⟩ := h.assign h₁.toFrame h₂ (fun o ho => by simp at ho) clause
  have hstore : (s₁.assign a (.large s.store.nextReference)).store = st' := by
    obtain ⟨u, he⟩ := assign_eq s₁ a (.large s.store.nextReference)
    rw [he]
  refine (hs.learnt ⟨rfl, rfl⟩ hl).noted fun r hr => ?_
  rcases Recent.mem_of_push hr with rfl | hr
  · have hcur : (s₁.assign a (.large s.store.nextReference)).store.Current s.store.nextReference := by
      rw [hstore]
      exact ha.current_next
    refine ⟨hw.store.current hcur, (hw.flags _ hcur.2).1.trans ?_⟩
    rw [hstore]
    exact (congrArg Flags.redundant ha.flags).trans hred
  · exact hl.inv.recent r hr

end Appended

/-- A clause that was learnt is stored, and its first literal is assigned, unless there is no room. -/
theorem ends_storeLearned {clause : Array Literal} (h : s.Inv lags p)
    (hp : s.trail.levelStart s.trail.level ≤ p) (ha : s.Asserts a rest jump)
    (hl : clause.toList = a :: rest) (hlags : rest ≠ [] → s.backtrackLevel jump ≠ jump → lags) :
    Ends (storeLearned clause jump glue) s (fun _ s' => Learnt lags (a :: rest) s s')
      (fun e s' => e = .exhausted ∧ Learnt lags (a :: rest) s s') := by
  unfold storeLearned
  rw [hl]
  cases rest with
  | nil =>
    obtain rfl := ha.unit rfl
    obtain ⟨hr, hlev, hinc⟩ := ha.ready h hp (Nat.le_refl 0) ha.below fun hne => absurd rfl hne
    rw [ends_modify]
    exact ((refines_backtrack h.toFrame 0).stores _).learnt hinc (hr.learn_unit hlev _)
  | cons b tail =>
    obtain ⟨hk₁, hk₂, -⟩ := backtrackLevel_spec s ha.below
    obtain ⟨hr, hlev, hinc⟩ := ha.ready h hp hk₁ hk₂ hlags
    have hs := (refines_backtrack h.toFrame (s.backtrackLevel jump)).stores (a :: b :: tail)
    cases tail with
    | nil =>
      rw [ends_modify]
      have := hs.learnt hinc (hr.learn_binary clause)
      exact this.noted this.inv.recent
    | cons c tail =>
      simp only [ends_bind, ends_modify]
      have h3 : 3 ≤ clause.size := by
        rw [← Array.length_toList, hl]
        simp
      refine (ends_storeRedundant hr.inv.store.chain hl h3).imp (fun r s₂ hs₂ => ?_) fun e s₂ he => ?_
      · obtain ⟨rfl, st', f, rfl, happ, hred, hreason⟩ := hs₂
        have := hs.learnt hinc (hr.learn_large (by simp) happ hred hreason clause)
        exact this.noted this.inv.recent
      · obtain ⟨rfl, rfl⟩ := he
        exact ⟨rfl, hr.full ▸ hr.inv, hs, hinc.1, hinc.2⟩

/-! ## Learning -/

theorem exportClause_eq (s : Solver ε) (clause : Array Literal) (glue : Nat) :
    ∃ counters outside, s.exportClause clause glue = { s with counters, outside } := by
  unfold exportClause
  split
  · exact ⟨s.counters, s.outside, rfl⟩
  · simp only
    split <;> exact ⟨_, _, rfl⟩

/-- A clause may be offered if it is satisfied where everything handed in is. -/
theorem Told.exportClause {h : Hooks ε} {v : Valuation} {K : Contract h v} (hk : Told K s) (glue : Nat)
    {clause : Array Literal} (hc : K.trusts s.outside → v.Satisfies clause.toList) :
    K.sound (s.exportClause clause glue).outside ∧
      (K.trusts (s.exportClause clause glue).outside → K.trusts s.outside) := by
  unfold Solver.exportClause
  split
  · exact ⟨hk.sound, id⟩
  · next f hf =>
    have := K.exportClause f (hk.hooks ▸ hf) (clause.toList.map Numbering.toExternal) glue s.outside
      hk.sound fun ht => by
        obtain ⟨l, hl, htl⟩ := hc ht
        refine ⟨l, ?_, htl⟩
        simpa [List.mem_map] using hl
    simp only
    split <;> exact this

section Learn

variable (hs : Learnt lags (a :: rest) { s with learned := #[] } s') (hl : s.learned.toList = a :: rest)
include hs hl

/-- A contract is kept while the clause is stored, and where everything handed in is satisfied the clause is. -/
theorem Learnt.told {h : Hooks ε} {v : Valuation} {K : Contract h v} (hk : Told K s) :
    Told K s' ∧ (K.trusts s'.outside → v.Satisfies s.learned.toList) := by
  have hout : s'.outside = s.outside := hs.stores.outside
  have hsat : K.trusts s'.outside → v.Satisfies s.learned.toList := fun ht => by
    rcases hk.learned (hout ▸ ht) with hnil | hsat
    · rw [hnil] at hl
      simp at hl
    · exact hsat
  refine ⟨⟨hs.stores.hooks.trans hk.hooks, ?_, fun ht => ?_, fun _ => .inl hs.learned⟩, hsat⟩
  · rw [hout]
    exact hk.sound
  · exact hs.stores.holds v (hl ▸ hsat ht) { hk.holds (hout ▸ ht) with }

theorem Learnt.advances : Advances s s' :=
  ⟨hs.stores.settings, hs.stores.hooks, hs.stores.numbering, hs.stores.extension, hs.stores.status, hs.stores.pending,
    hs.stores.inconsistent, fun _ hk => (hs.told hl hk).1, fun v hv => { hs.stores.base v hv with }⟩

/-- Then the clause is offered, and noted as the one learnt last. -/
theorem Learnt.advances_export (glue : Nat) :
    Advances s { s'.exportClause s.learned glue with learned := s.learned } := by
  have hadv := hs.advances hl
  obtain ⟨c, o, he⟩ := exportClause_eq s' s.learned glue
  refine ⟨?_, ?_, ?_, ?_, ?_, ?_, ?_, fun {h v} K hk => ?_, fun v hv => hadv.base v ?_⟩
  · rw [he]
    exact hadv.settings
  · rw [he]
    exact hadv.hooks
  · rw [he]
    exact hadv.numbering
  · rw [he]
    exact hadv.extension
  · rw [he]
    exact hadv.status
  · rw [he]
    exact hadv.pending
  · rw [he]
    exact hadv.inconsistent
  · obtain ⟨hk', hsat⟩ := hs.told hl hk
    obtain ⟨hsound, htrusts⟩ := hk'.exportClause glue hsat
    refine ⟨?_, hsound, fun ht => ?_, fun ht => .inr (hsat (htrusts ht))⟩
    · rw [he]
      exact hk'.hooks
    · rw [he]
      exact { hk'.holds (htrusts ht) with }
  · rw [he] at hv
    exact { hv with }

end Learn

/-- Learning meets no fault but that there is no room. -/
theorem ends_learn (h : s.Inv lags p) (hp : s.trail.levelStart s.trail.level ≤ p)
    (ha : s.Asserts a rest jump) (hl : s.learned.toList = a :: rest)
    (hlags : rest ≠ [] → s.backtrackLevel jump ≠ jump → lags) :
    Ends (learn jump glue) s
      (fun _ s' => s'.Inv lags s'.trail.propagated ∧ Advances s s' ∧ s'.inconsistent = s.inconsistent)
      (fun e s' => e = .exhausted ∧ s'.Inv lags s'.trail.propagated ∧ Advances s s' ∧
        s'.inconsistent = s.inconsistent) := by
  have h₁ : Inv lags { s with learned := #[] } p :=
    { h with
      toFrame := { h.toFrame with }
      toWired := { h.toWired with }
      toClean := { h.toClean with } }
  have ha₁ : Asserts { s with learned := #[] } a rest jump := { ha with }
  have hne : s.learned.isEmpty = false := by
    rw [← Bool.not_eq_true, Array.isEmpty_iff]
    intro hnil
    rw [hnil] at hl
    simp at hl
  unfold learn
  simp only [ends_bind, ends_get, ends_modify, hne, Bool.false_eq_true, if_false]
  refine (ends_storeLearned h₁ hp ha₁ hl hlags).imp (fun _ s' hs => ?_) fun e s' hs => ?_
  · obtain ⟨c, o, he⟩ := exportClause_eq s' s.learned glue
    refine ⟨?_, hs.advances_export hl glue, ?_⟩
    · rw [he]
      exact { hs.inv with
        toFrame := { hs.inv.toFrame with }
        toWired := { hs.inv.toWired with }
        toClean := { hs.inv.toClean with } }
    · rw [he]
      exact hs.inconsistent
  · obtain ⟨rfl, hs⟩ := hs
    exact ⟨rfl, hs.inv, hs.advances hl, hs.inconsistent⟩

end Solver

end ClauseLearning
