import ClauseLearning.Proofs.Propagation

/-!
# Propagation at the root

At the root the order of the trail does not matter.  Whichever literal of it is propagated might as well be the first
one, and so propagation does no harm even where some literals were left out before, as it may be after a refutation.
All that is lost is that clauses are guarded.

* `Solver.propagateLiteral_elsewhere` — propagation of a literal with another trail.
* `Solver.Inv.reorder` — another order of the trail.
* `Solver.Fulfils` — a valuation satisfies every clause, garbage included.
* `Solver.Arrived`, `Solver.Inv.ends_propagateRoot` — propagation at the root, wherever it has come to before.
-/

namespace ClauseLearning

/-! ## Trails -/

namespace Trail

/-- Adds literals to the current level. -/
def pushAll (t : Trail) (ls : List Literal) : Trail := { t with literals := t.literals ++ ls }

theorem pushAll_nil (t : Trail) : t.pushAll [] = t := by
  simp [pushAll]

theorem pushAll_push (t : Trail) (l : Literal) (ls : List Literal) : (t.push l).pushAll ls = t.pushAll (l :: ls) := by
  simp [pushAll, push]

theorem pushAll_append (t : Trail) (ls ls' : List Literal) : (t.pushAll ls).pushAll ls' = t.pushAll (ls ++ ls') := by
  simp [pushAll, ← Array.toList_inj]

@[simp] theorem level_pushAll (t : Trail) (ls : List Literal) : (t.pushAll ls).level = t.level := rfl

theorem toList_pushAll (t : Trail) (ls : List Literal) : (t.pushAll ls).literals.toList = t.literals.toList ++ ls := by
  simp [pushAll]

theorem size_pushAll (t : Trail) (ls : List Literal) : (t.pushAll ls).size = t.size + ls.length := by
  rw [size, ← Array.length_toList, toList_pushAll, List.length_append, Array.length_toList, size]

/-- The level depends on the frames only. -/
theorem level_congr {t t' : Trail} (hf : t'.frames = t.frames) : t'.level = t.level := by
  rw [level, hf, level]

theorem mem_iff_of_perm {t t' : Trail} (hp : t'.literals.toList.Perm t.literals.toList) (l : Literal) :
    l ∈ t'.literals ↔ l ∈ t.literals := by
  rw [← Array.mem_toList_iff, ← Array.mem_toList_iff]
  exact hp.mem_iff

end Trail

/-- At the root the literals may be on the trail in any order, wherever propagation has come to. -/
theorem Trail.Matches.reorder {usable : Nat → Prop} {t t' : Trail} {a : Assignment} (h : t.Matches usable a)
    (h0 : t.level = 0) (hf : t'.frames = t.frames) (hp : t'.literals.toList.Perm t.literals.toList)
    (hle : t'.propagated ≤ t'.size) : t'.Matches usable a := by
  have hmem := Trail.mem_iff_of_perm hp
  have hlevel : t'.level = 0 := (Trail.level_congr hf).trans h0
  have hframe : 0 < t.frames.size := h.frames
  have hroot : t'.levelStart 0 = 0 := by
    have hstart := h.root
    unfold Trail.levelStart at hstart ⊢
    rw [hf]
    rw [Array.getElem?_eq_getElem hframe] at hstart ⊢
    exact hstart
  have hzero : ∀ i < t'.size, a.level (t'.at' i) = 0 := by
    intro i hi
    have hle := h.level_le_of_mem ((hmem _).1 (Trail.at'_mem hi))
    omega
  refine ⟨hf ▸ h.frames, hroot, ?_, ?_, ?_, ?_, ?_, hle, ?_⟩
  · exact (hp.map Literal.var).nodup_iff.2 h.nodup
  · intro l hl
    exact h.usable l ((hmem l).1 hl)
  · intro l
    rw [hmem]
    exact h.tt_iff l
  · intro i hi k hk
    rw [hzero i hi]
    obtain rfl | hpos := Nat.eq_zero_or_pos k
    · simp [hroot]
    · rw [Trail.levelStart_above (by omega)]
      omega
  · intro k hk hk'
    omega
  · rw [hlevel, hroot]
    exact Nat.zero_le _

/-- Where nothing was propagated, any trail will do. -/
theorem Guarded.restart {lags : Prop} {t t' : Trail} {a : Assignment} {st : Store} {view : Literal → List Watch}
    {p : Nat} (h : Guarded lags t a st view p) : Guarded lags t' a st view 0 := by
  have hnone : ∀ {late : Prop} {x b y c}, Backed t' a 0 late x b y c := by
    intro late x b y c hfall
    simp [Fallen, Trail.upTo] at hfall
  exact ⟨fun l o r y hm => ⟨(h.binary l o r y hm).crossed, hnone, hnone⟩,
    fun r x b y d hx hy hne => ⟨(h.large r x b y d hx hy hne).crossed, hnone, hnone⟩⟩

namespace Solver

variable {ε : Type} {lags : Prop} {s s' : Solver ε} {p : Nat} {l : Literal} {t : Trail} {b : Bool} {v : Valuation}

/-! ## With another trail -/

/-- The solver with another trail, and with another answer to whether there was a refutation. -/
def elsewhere (s : Solver ε) (t : Trail) (b : Bool) : Solver ε := { s with trail := t, inconsistent := b }

/-- At the root a literal is assigned alike whatever is on the trail. -/
theorem assign_elsewhere (h0 : s.trail.level = 0) (ht : t.level = 0) (l : Literal) (reason : Reason) :
    (s.elsewhere t b).assign l reason = (s.assign l reason).elsewhere (t.push l) b ∧
      (s.assign l reason).trail = s.trail.push l := by
  unfold assign elsewhere
  simp [h0, ht]

theorem assignForced_elsewhere (h0 : s.trail.level = 0) (ht : t.level = 0) (l : Literal) (r : Reference) :
    (s.elsewhere t b).assignForced l r = (s.assignForced l r).elsewhere (t.push l) b ∧
      (s.assignForced l r).trail = s.trail.push l := by
  have hassign := assign_elsewhere (b := b) h0 ht l (.large r)
  have hnot : (s.elsewhere t b).trail.level ≠ 1 := by
    change t.level ≠ 1
    omega
  unfold assignForced
  rw [if_neg fun hc => hnot hc.1, if_neg (by omega)]
  exact hassign

/-- What is done to the store does not depend on the trail. -/
theorem onStore_elsewhere {α : Type} (x : StoreM α) :
    Ends (onStore x) s
      (fun a s' => s'.trail = s.trail ∧ onStore x (s.elsewhere t b) = .ok a (s'.elsewhere t b))
      fun e s' => s'.trail = s.trail ∧ onStore x (s.elsewhere t b) = .error e (s'.elsewhere t b) := by
  rw [ends_onStore]
  unfold Ends
  split
  · next hx =>
    refine ⟨rfl, ?_⟩
    simp only [onStore, elsewhere, hx]
  · next hx =>
    refine ⟨rfl, ?_⟩
    simp only [onStore, elsewhere, hx]

/-- At the root the same becomes of a watch whatever is on the trail. -/
theorem visitWatch_elsewhere (no : Literal) (w : Watch) (h0 : s.trail.level = 0) (ht : t.level = 0) :
    ∃ ls, (s.visitWatch no w).2.trail = s.trail.pushAll ls ∧ (s.elsewhere t b).visitWatch no w =
      ((s.visitWatch no w).1, (s.visitWatch no w).2.elsewhere (t.pushAll ls) b) := by
  -- nothing is assigned, or one literal
  have hstay : ∀ {out : Except Fault (Option Watch)} {s₁ : Solver ε}, s₁.trail = s.trail →
      ∃ ls, s₁.trail = s.trail.pushAll ls ∧ (out, s₁.elsewhere t b) = (out, s₁.elsewhere (t.pushAll ls) b) :=
    fun he => ⟨[], he.trans (Trail.pushAll_nil _).symm, by rw [Trail.pushAll_nil]⟩
  have hpush : ∀ {out : Except Fault (Option Watch)} {s₁ s₂ : Solver ε} (l : Literal),
      s₂ = s₁.elsewhere (t.push l) b ∧ s₁.trail = s.trail.push l →
      ∃ ls, s₁.trail = s.trail.pushAll ls ∧ (out, s₂) = (out, s₁.elsewhere (t.pushAll ls) b) := by
    rintro out s₁ s₂ l ⟨rfl, he⟩
    refine ⟨[l], ?_, ?_⟩
    · rw [he, ← Trail.pushAll_push, Trail.pushAll_nil]
    · rw [← Trail.pushAll_push, Trail.pushAll_nil]
  unfold visitWatch
  cases w with
  | binary other r y =>
    have hval : (s.elsewhere t b).val other = s.val other := rfl
    dsimp only
    rw [hval]
    cases hv : s.val other with
    | tt => exact hstay rfl
    | ff => exact hstay rfl
    | unassigned => exact hpush other (assign_elsewhere h0 ht _ _)
  | large blocking r =>
    have hval : (s.elsewhere t b).val blocking = s.val blocking := rfl
    have hassignment : (s.elsewhere t b).assignment = s.assignment := rfl
    have halike := onStore_elsewhere (s := s) (t := t) (b := b) (Store.visit s.assignment no r)
    dsimp only
    rw [hval, hassignment]
    by_cases hb : s.val blocking = .tt
    · simp only [if_pos hb]
      exact hstay rfl
    simp only [if_neg hb]
    cases hvisit : onStore (Store.visit s.assignment no r) s with
    | error e s₁ =>
      obtain ⟨he, hsame⟩ := halike.of_error hvisit
      simp only [hsame]
      exact hstay he
    | ok visit s₁ =>
      obtain ⟨he, hsame⟩ := halike.of_ok hvisit
      simp only [hsame]
      cases visit with
      | satisfied m => exact hstay he
      | moved m o => exact hstay he
      | forced m =>
        have hforced := assignForced_elsewhere (b := b) (he ▸ h0) ht m r
        rw [he] at hforced
        exact hpush m hforced
      | conflict => exact hstay he

/-- At the root the watches of a literal are gone through alike whatever is on the trail. -/
theorem propagateList_elsewhere (no : Literal) (ws : List Watch) (kept : Array Watch) (h0 : s.trail.level = 0)
    (ht : t.level = 0) : ∃ ls, (propagateList no ws kept s).2.trail = s.trail.pushAll ls ∧
      propagateList no ws kept (s.elsewhere t b) =
        ((propagateList no ws kept s).1, (propagateList no ws kept s).2.elsewhere (t.pushAll ls) b) := by
  induction ws generalizing kept s t with
  | nil => exact ⟨[], (Trail.pushAll_nil _).symm, by simp [propagateList, Trail.pushAll_nil]⟩
  | cons w ws ih =>
    obtain ⟨ls, htrail, he⟩ := visitWatch_elsewhere (b := b) no w h0 ht
    rw [propagateList_cons, propagateList_cons, he]
    generalize s.visitWatch no w = out at htrail
    obtain ⟨out, s'⟩ := out
    have htrail : s'.trail = s.trail.pushAll ls := htrail
    cases out with
    | ok x =>
      have h0' : s'.trail.level = 0 := by
        rw [htrail, Trail.level_pushAll]
        exact h0
      obtain ⟨ls', htrail', he'⟩ := ih (t := t.pushAll ls) (x.elim kept kept.push) h0'
        ((Trail.level_pushAll _ _).trans ht)
      rw [htrail, Trail.pushAll_append] at htrail'
      rw [Trail.pushAll_append] at he'
      exact ⟨ls ++ ls', htrail', he'⟩
    | error e => exact ⟨ls, htrail, rfl⟩

/-- At the root a literal is propagated alike whatever is on the trail. -/
theorem propagateLiteral_elsewhere (l : Literal) (h0 : s.trail.level = 0) (ht : t.level = 0) :
    Ends (propagateLiteral l) s
      (fun _ s' => ∃ ls, s'.trail = s.trail.pushAll ls ∧
        propagateLiteral l (s.elsewhere t b) = .ok () (s'.elsewhere (t.pushAll ls) b))
      fun e s' => ∃ ls, s'.trail = s.trail.pushAll ls ∧
        propagateLiteral l (s.elsewhere t b) = .error e (s'.elsewhere (t.pushAll ls) b) := by
  obtain ⟨ls, hls, hrun⟩ := propagateList_elsewhere (s := { s with watches := s.watches.set (-l) #[] }) (b := b) (-l)
    (s.watches.of (-l)).toList #[] h0 ht
  have hrun' : propagateList (-l) ((s.elsewhere t b).watches.of (-l)).toList #[]
      { s.elsewhere t b with watches := (s.elsewhere t b).watches.set (-l) #[] } = _ := hrun
  unfold Ends propagateLiteral
  simp only [hrun']
  generalize propagateList (-l) (s.watches.of (-l)).toList #[] { s with watches := s.watches.set (-l) #[] } = run
    at hls
  obtain ⟨⟨fault, kept⟩, s₁⟩ := run
  cases fault with
  | none => exact ⟨ls, hls, rfl⟩
  | some e => exact ⟨ls, hls, rfl⟩

/-! ## The same literals in another order -/

/-- At the root the invariant holds with the trail in any order, but for what was propagated. -/
theorem Inv.reorder (h : s.Inv lags p) (h0 : s.trail.level = 0) (hf : t.frames = s.trail.frames)
    (hp : t.literals.toList.Perm s.trail.literals.toList) (hle : t.propagated ≤ t.size) :
    (s.elsewhere t b).Inv lags 0 := by
  have hmem := Trail.mem_iff_of_perm hp
  have hlevel : t.level = 0 := (Trail.level_congr hf).trans h0
  refine { h with
    toFrame := { h.toFrame with trail := h.trail.reorder h0 hf hp hle, iterating := fun _ => hlevel }
    toWired := { h.toWired with guarded := h.guarded.restart, grounded := ?_, reasons := ?_ }
    toClean := { h.toClean with } }
  · intro i hi
    have hl := (hmem _).1 (Trail.at'_mem hi)
    have hle := h.trail.level_le_of_mem hl
    change Grounded t s.assignment s.store i
    unfold Grounded
    rw [h.trail.reason_unit h.grounded h0 hl]
    simp only
    omega
  · intro l hl o ho
    have hunit := h.trail.reason_unit h.grounded h0 ((hmem l).1 hl)
    exact Reason.noConfusion (hunit.symm.trans ho)

/-! ## What is kept -/

/-- A valuation satisfies all that is there: the literals assigned at the root, and every clause, garbage or not. -/
structure Fulfils (s : Solver ε) (v : Valuation) : Prop where
  /-- Literals assigned at the root. -/
  root : ∀ l ∈ s.trail.literals, s.assignment.level l = 0 → v.makesTrue l = true
  /-- Clauses of the store. -/
  large : ∀ o ∈ s.store.offsets, v.Satisfies (s.store.lits o)
  /-- Binary clauses. -/
  binary : ∀ l o r h, .binary o r h ∈ s.watches.view l → v.Satisfies [l, o]

theorem Holds.fulfils (h : s.Holds v) : s.Fulfils v := { h with }

/-- Whether there was a refutation does not matter, nor does the order of the trail. -/
theorem Fulfils.elsewhere (h : s.Fulfils v) (hp : t.literals.toList.Perm s.trail.literals.toList) :
    (s.elsewhere t b).Fulfils v :=
  { h with root := fun l hl h0 => h.root l ((Trail.mem_iff_of_perm hp l).1 hl) h0 }

theorem Base.elsewhere (h : s.Base v) (hp : t.literals.toList.Perm s.trail.literals.toList) :
    (s.elsewhere t b).Base v :=
  { h with root := fun l hl h0 => h.root l ((Trail.mem_iff_of_perm hp l).1 hl) h0 }

/-- At the root, where there was no refutation, all that is there is all that is known. -/
theorem Inv.holds (h : s.Inv lags p) (h0 : s.trail.level = 0) (hi : s.inconsistent = false) (hv : s.Fulfils v) :
    s.Holds v :=
  { hv with
    consistent := hi
    reasons := by
      intro l hl o ho
      exact Reason.noConfusion ((h.trail.reason_unit h.grounded h0 hl).symm.trans ho)
    derived := by
      intro d hd
      rw [h.stored] at hd
      simp at hd }

/-! ## Propagation -/

/-- What is left of propagation at the root. -/
structure Arrived (lags : Prop) (s s' : Solver ε) : Prop where
  /-- No variable becomes known or is eliminated. -/
  numbering : s'.numbering = s.numbering
  /-- Nothing is put on the extension stack. -/
  extension : s'.extension = s.extension
  /-- What is never dropped is not dropped. -/
  base : ∀ v, s'.Base v → s.Base v
  /-- What satisfies everything still does. -/
  fulfils : ∀ v, s.Fulfils v → s'.Fulfils v
  /-- The invariant, but for what was propagated. -/
  inv : s'.Inv lags 0
  /-- Nothing is decided. -/
  level : s'.trail.level = 0

theorem Arrived.trans {s'' : Solver ε} (h : Arrived lags s s') (h' : Arrived lags s' s'') : Arrived lags s s'' :=
  { h' with
    numbering := h'.numbering.trans h.numbering
    extension := h'.extension.trans h.extension
    base := fun v hv => h.base v (h'.base v hv)
    fulfils := fun v hv => h'.fulfils v (h.fulfils v hv) }

/-- What goes on alike with another order of the trail comes to the same. -/
theorem Arrived.of_elsewhere {ls : List Literal} {q : Nat} (h : s.Inv lags p) (h0 : s.trail.level = 0)
    (hf : t.frames = s.trail.frames) (ht : t.literals.toList.Perm s.trail.literals.toList)
    (hinv : (s.elsewhere t false).Inv lags 0) (hinv' : (s'.elsewhere (t.pushAll ls) false).Inv lags q)
    (href : Refines (s.elsewhere t false) (s'.elsewhere (t.pushAll ls) false))
    (htrail : s'.trail = s.trail.pushAll ls) : Arrived lags s s' := by
  have ht0 : t.level = 0 := (Trail.level_congr hf).trans h0
  have hframes : s'.trail.frames = t.frames := by
    rw [htrail]
    exact hf.symm
  have hperm : (t.pushAll ls).literals.toList.Perm s'.trail.literals.toList := by
    rw [htrail, Trail.toList_pushAll, Trail.toList_pushAll]
    exact ht.append_right ls
  have hle : s'.trail.propagated ≤ s'.trail.size := by
    rw [htrail, Trail.size_pushAll]
    exact Nat.le_add_right_of_le h.trail.propagated
  have hlevel : s'.trail.level = 0 := by
    rw [htrail]
    exact h0
  refine ⟨href.numbering, href.extension, ?_, ?_, hinv'.reorder ht0 hframes hperm.symm hle, hlevel⟩
  · intro v hv
    have hv' : (s.elsewhere t false).Base v := href.base v (hv.elsewhere hperm)
    exact hv'.elsewhere ht.symm
  · intro v hv
    have hholds : (s.elsewhere t false).Holds v := hinv.holds ht0 rfl (hv.elsewhere ht)
    have hv' : (s'.elsewhere (t.pushAll ls) false).Fulfils v := (href.holds v hholds).fulfils
    exact hv'.elsewhere hperm.symm

/-- One literal is propagated at the root, wherever it stands. -/
theorem Inv.ends_propagateAtRoot (h : s.Inv lags p) (h0 : s.trail.level = 0) (hl : l ∈ s.trail.literals) :
    Ends (propagateLiteral l) s
      (fun _ s' => Arrived lags s s' ∧ s'.trail.propagated = s.trail.propagated)
      fun e s' => ∃ key, e = .conflict key ∧ Arrived lags s s' := by
  -- the literal might as well be the first one
  obtain ⟨before, after, hsplit⟩ := List.append_of_mem (Array.mem_toList_iff.2 hl)
  generalize ht : (⟨(l :: (before ++ after)).toArray, s.trail.frames, 0⟩ : Trail) = t
  have hf : t.frames = s.trail.frames := by rw [← ht]
  have hperm : t.literals.toList.Perm s.trail.literals.toList := by
    rw [← ht, hsplit]
    exact List.perm_middle.symm
  have hfirst : 0 < t.size ∧ t.at' 0 = l := by
    rw [← ht]
    exact ⟨Nat.succ_pos _, rfl⟩
  have ht0 : t.level = 0 := (Trail.level_congr hf).trans h0
  have hprop : t.propagated ≤ t.size := by
    rw [← ht]
    exact Nat.zero_le _
  have hinv : (s.elsewhere t false).Inv lags 0 := h.reorder h0 hf hperm hprop
  have hstart : t.levelStart t.level ≤ 0 := by
    rw [ht0]
    exact Nat.le_of_eq hinv.trail.root
  have hends := ends_propagateLiteral hinv hfirst.1 hfirst.2 hstart
  have halike := propagateLiteral_elsewhere (b := false) l h0 ht0
  unfold Ends
  cases hrun : propagateLiteral l s with
  | ok _ s' =>
    obtain ⟨ls, htrail, hrun'⟩ := halike.of_ok hrun
    obtain ⟨hinv', hk, -⟩ := hends.of_ok hrun'
    refine ⟨.of_elsewhere h h0 hf hperm hinv hinv' hk.refines htrail, ?_⟩
    rw [htrail]
    rfl
  | error e s' =>
    obtain ⟨ls, htrail, hrun'⟩ := halike.of_error hrun
    obtain ⟨key, hkey, hc, hk⟩ := hends.of_error hrun'
    obtain ⟨q, hinv', -, -⟩ := hc.inv
    exact ⟨key, hkey, .of_elsewhere h h0 hf hperm hinv hinv' hk.refines htrail⟩

/-- Where it begins. -/
theorem Arrived.refl (h : s.Inv lags p) (h0 : s.trail.level = 0) : Arrived lags s s :=
  ⟨rfl, rfl, fun _ hv => hv, fun _ hv => hv, h.anti (Nat.zero_le p), h0⟩

theorem Arrived.beginNext (h : Arrived lags s s') (hlt : s'.trail.propagated < s'.trail.size) :
    Arrived lags s s'.beginNext :=
  { h with
    base := fun v hv => h.base v { hv with }
    fulfils := fun v hv => { h.fulfils v hv with }
    inv := h.inv.beginNext hlt }

/-- All that is on the trail is propagated at the root, or there is a conflict. -/
theorem Inv.ends_propagateAllAtRoot (h : s.Inv lags p) (h0 : s.trail.level = 0) :
    Ends propagate s (fun _ s' => Arrived lags s s') fun e s' => ∃ key, e = .conflict key ∧ Arrived lags s s' := by
  have hbound : ∀ s', Arrived lags s s' →
      s'.trail.propagated ≤ s'.trail.size ∧ s'.trail.size ≤ s.numbering.size := by
    intro s' hs'
    exact ⟨hs'.inv.trail.propagated, hs'.numbering ▸ hs'.inv.toFrame.size_le⟩
  have hstep : ∀ s', Arrived lags s s' → s'.trail.propagated < s'.trail.size →
      Ends (propagateLiteral (s'.trail.at' s'.trail.propagated)) s'.beginNext
        (fun _ s'' => Arrived lags s s'' ∧ s''.trail.propagated = s'.trail.propagated + 1)
        fun e s'' => ∃ key, e = .conflict key ∧ Arrived lags s s'' := by
    intro s' hs' hlt
    have hnext := hs'.beginNext hlt
    refine (hnext.inv.ends_propagateAtRoot hnext.level (Trail.at'_mem hlt)).imp ?_ ?_
    · intro _ s'' hs''
      exact ⟨hnext.trans hs''.1, hs''.2⟩
    · intro e s'' hs''
      obtain ⟨key, he, hs''⟩ := hs''
      exact ⟨key, he, hnext.trans hs''⟩
  have hsize : s.assignment.size = s.numbering.size := h.sized.records
  rw [propagate, ends_bind, ends_get]
  refine (ends_propagateMany_of hbound hstep (.refl h h0) ?_).imp (fun _ _ hs' => hs'.1) fun _ _ he => he
  unfold propagationBound
  omega

/-- Propagation at the root meets no fault, wherever it has come to before. -/
theorem Inv.ends_propagateRoot (h : s.Inv lags p) (h0 : s.trail.level = 0) :
    Ends propagateRoot s (fun _ s' => Arrived lags s s') fun _ _ => False := by
  have hends := h.ends_propagateAllAtRoot h0
  unfold Ends propagateRoot
  cases hrun : propagate s with
  | ok _ s' => exact hends.of_ok hrun
  | error e s' =>
    obtain ⟨key, rfl, hs'⟩ := hends.of_error hrun
    exact { hs' with
      base := fun v hv => hs'.base v { hv with }
      fulfils := fun v hv => { hs'.fulfils v hv with }
      inv := hs'.inv.refute }

end Solver

end ClauseLearning
