import ClauseLearning.Proofs.Contract
import ClauseLearning.Proofs.Learning
import ClauseLearning.Proofs.Input
import ClauseLearning.Solver.Import

/-!
# Taking over clauses keeps the invariant

A unit or a clause from outside is stored like one that was added, but as a redundant one, and it is not propagated
at once.  So the invariant is kept for what was propagated before.  What is known afterwards follows from what was
known before and from the clause, and the contract says that the clause is satisfied where everything handed in is.

* `Solver.taken_importUnit`, `Solver.ends_importClause` — one unit, one clause.
* `Solver.ends_drain` — all that a source hands out.
* `Solver.ends_importUnits`, `Solver.ends_importClauses` — the two sources.
-/

namespace ClauseLearning

namespace Solver

variable {ε : Type} {lags : Prop} {s s' s'' : Solver ε} {p : Nat}

/-- The literal of a known external variable that is not eliminated. -/
theorem Numbering.lookup_some {m : Numbering} {e : Int} {l : Literal} (h : m.lookup? e = some l) :
    l = Numbering.toLiteral e ∧ m.Usable l.var ∧ e ≠ 0 := by
  unfold Numbering.lookup? at h
  split at h
  · next hc =>
    obtain rfl := Option.some.inj h
    simp only [Numbering.knows, Bool.and_eq_true, decide_eq_true_eq, Bool.not_eq_true'] at hc
    obtain ⟨⟨h0, hle⟩, he⟩ := hc
    refine ⟨rfl, ?_⟩
    rw [Numbering.toLiteral, Literal.var_make]
    exact ⟨⟨by omega, he⟩, by omega⟩
  · cases h

/-- The literals of known external variables that are not eliminated. -/
theorem Numbering.mapM_lookup_some {m : Numbering} {es : List Int} {ls : List Literal}
    (h : es.mapM m.lookup? = some ls) :
    ls = Numbering.toClause es ∧ ∀ l ∈ Numbering.toClause es, m.Usable l.var := by
  suffices hs : ls = es.map Numbering.toLiteral ∧ 0 ∉ es ∧ ∀ l ∈ es.map Numbering.toLiteral, m.Usable l.var by
    rw [Numbering.toClause_of_not_mem hs.2.1]
    exact ⟨hs.1, hs.2.2⟩
  induction es generalizing ls with
  | nil => simp at h; simp [h]
  | cons e es ih =>
    simp only [List.mapM_cons, Option.bind_eq_bind, Option.bind_eq_some_iff, Option.pure_def,
      Option.some.injEq] at h
    obtain ⟨l, hl, ls', hls', rfl⟩ := h
    obtain ⟨rfl, hu, h0⟩ := Numbering.lookup_some hl
    obtain ⟨rfl, hn, hus⟩ := ih hls'
    refine ⟨rfl, by simp [h0.symm, hn], fun l' hl' => ?_⟩
    rcases List.mem_cons.1 hl' with rfl | hl'
    · exact hu
    · exact hus l' hl'

/-- Something is counted. -/
theorem aside_count (s : Solver ε) (f : Counters → Counters) : Aside s (s.count f) :=
  ⟨_, _, _, _, _, _, _, _, rfl⟩

theorem Aside.settled (h : Aside s s') (hs : s.Settled lags) : s'.Settled lags := by
  obtain ⟨p, hp, hfull⟩ := hs
  refine ⟨p, h.inv hp, fun hi => ?_⟩
  rw [h.trail]
  exact hfull (h.inconsistent ▸ hi)

theorem Taken.aside {c : List Literal} (h : Taken lags c s s') (ha : Aside s' s'') : Taken lags c s s'' :=
  { h.toStores.trans (ha.refines.stores c) with
    settled := ha.settled h.settled
    level := (congrArg Trail.level ha.trail).trans h.level
    learned := ha.learned.trans h.learned }

/-- Other clauses count as the ones that were learnt last. -/
theorem Taken.remember {c : List Literal} (h : Taken lags c s s') {recent : Recent}
    (hr : ∀ r ∈ recent.toList, s'.store.Current r ∧ (s'.store.flagsAt r.offset).redundant = true) :
    Taken lags c s { s' with recent } where
  toStores := { h.toStores with
    holds := fun v hc hv => { h.holds v hc hv with }
    base := fun v hv => h.base v { hv with } }
  settled := by
    obtain ⟨p, hp, hfull⟩ := h.settled
    exact ⟨p, { hp with
      toFrame := { hp.toFrame with }
      toWired := { hp.toWired with recent := hr }
      toClean := { hp.toClean with } }, hfull⟩
  level := h.level
  learned := h.learned

section Root

variable (h : s.Inv lags s.trail.propagated) (h0 : s.trail.level = 0)
include h h0

theorem Taken.skip (c : List Literal) : Taken lags c s s.skipImport :=
  Taken.aside ⟨(Refines.refl s).stores c, ⟨_, h, fun _ => rfl⟩, h0, rfl⟩ (aside_count s _)

/-- A unit is assigned. -/
theorem Taken.assign {l : Literal} (hu : s.numbering.Usable l.var) (hv : s.val l = .unassigned) :
    Taken lags [l] s (s.assignImported l) := by
  have hj : s.Justifies l .unit := h0
  have hinv := h.assign hu hv h.trail.propagated hj
  have hs := stores_assign hu hv h.toFrame
  obtain ⟨u, he⟩ := assign_eq s l .unit
  have ht : Taken lags [l] s (s.assign l .unit) := by
    rw [he] at hinv hs ⊢
    exact ⟨hs, ⟨_, hinv, fun _ => rfl⟩, h0, rfl⟩
  exact ht.aside (aside_count _ _)

/-- A unit is taken over. -/
theorem taken_importUnit (e : Int) : Taken lags (Numbering.toClause [e]) s (s.importUnit e) := by
  unfold importUnit
  split
  · exact .skip h h0 _
  · next l hl =>
    obtain ⟨rfl, hu, hn⟩ := Numbering.lookup_some hl
    rw [Numbering.toClause_of_not_mem (by simp [hn.symm])]
    split
    · exact .skip h h0 _
    · next hv =>
      refine .refute h h0 fun v hs hsat => ?_
      obtain ⟨l, hl, ht⟩ := hsat
      obtain rfl := List.mem_singleton.1 hl
      rw [(h.toFrame.makesTrue_root h0 hs.root).2 _ hv] at ht
      exact Bool.false_ne_true ht
    · next hv => exact .assign h h0 hu hv

/-- A clause is taken over, unless there is no room. -/
theorem ends_importClause (clause : List Int) (glue : Nat) :
    Ends (importClause clause glue) s (fun _ s' => Taken lags (Numbering.toClause clause) s s')
      (fun e s' => e = .exhausted ∧ s' = s) := by
  unfold importClause
  simp only [ends_bind, ends_get]
  cases hls : clause.mapM s.numbering.lookup? with
  | none => exact .skip h h0 _
  | some ls =>
    obtain ⟨rfl, hu⟩ := Numbering.mapM_lookup_some hls
    simp only
    cases hr : s.assignment.rootClause (Numbering.toClause clause) with
    | useless => exact .skip h h0 _
    | literals c' =>
      have hfresh := Fresh.of_rootClause hu hr
      have hholds : ∀ v, s.Holds v → v.Satisfies (Numbering.toClause clause) → v.Satisfies c' :=
        fun v hv => (Assignment.rootClause_satisfies hr (h.toFrame.makesTrue_root h0 hv.root).2).2
      rcases c' with _ | ⟨a, _ | ⟨b, _ | ⟨d, tail⟩⟩⟩
      · exact .refute h h0 fun v hs hc => v.not_satisfies_nil (hholds v hs hc)
      · have ht := Taken.assign h h0 (hfresh.usable a (by simp)) (hfresh.unassigned a (by simp))
        exact { ht with toStores := ht.toStores.of_imp hholds }
      · obtain ⟨hinv, hst, -⟩ := hfresh.addBinary h true
        exact Taken.aside ⟨hst.of_imp hholds, ⟨_, hinv, fun _ => rfl⟩, h0, rfl⟩ (aside_count _ _)
      · simp only [ends_bind, ends_modify]
        refine (ends_storeRedundant h.store.chain rfl (by simp)).imp (fun r s₁ h₁ => ?_) fun _ _ he => he
        obtain ⟨rfl, st', f, rfl, happ, hred, hreason⟩ := h₁
        obtain ⟨hinv, hst, -⟩ := hfresh.append h (by simp) hreason happ
        have ht : Taken lags (Numbering.toClause clause) s _ :=
          ⟨hst.of_imp hholds, ⟨_, hinv, fun _ => rfl⟩, h0, rfl⟩
        refine Taken.aside (ht.remember fun r hr => ?_) (aside_count _ _)
        rcases Recent.mem_of_push hr with rfl | hr
        · exact ⟨happ.current_next, (congrArg Flags.redundant happ.flags).trans hred⟩
        · exact hinv.recent r hr

end Root

/-! ## Sources -/

/-- What is so after something was taken over at the root. -/
structure Drained (lags : Prop) (s s' : Solver ε) : Prop where
  /-- The invariant. -/
  settled : s'.Settled lags
  /-- The level is zero. -/
  level : s'.trail.level = 0
  /-- What is known, and what is outside. -/
  advances : Advances s s'

theorem Settled.outside (h : s.Settled lags) (outside : ε) : Settled lags { s with outside } := by
  obtain ⟨p, hp, hfull⟩ := h
  exact ⟨p, { hp with
    toFrame := { hp.toFrame with }
    toWired := { hp.toWired with }
    toClean := { hp.toClean with } }, hfull⟩

/-- A source takes an element from what is outside, and a clause was taken in for it. -/
theorem Taken.advances {α : Type} {source : Source ε α} {lits : α → List Literal} {e e' : ε} {a : α}
    (ht : Taken lags (lits a) s s') (hnext : source.next e = (some a, e'))
    (hsource : ∀ {v} (K : Contract s.hooks v), ∀ e, K.sound e → K.sound (source.next e).2 ∧
      (K.trusts (source.next e).2 → K.trusts e ∧ ∀ a, (source.next e).1 = some a → v.Satisfies (lits a))) :
    Advances { s with outside := e } { s' with outside := e' } where
  settings := ht.settings
  hooks := ht.hooks
  numbering := ht.numbering
  extension := ht.extension
  status := ht.status
  pending := ht.pending
  inconsistent := ht.inconsistent
  told K hk := by
    obtain rfl := hk.hooks
    obtain ⟨hsound, htrust⟩ := hsource K e hk.sound
    rw [hnext] at hsound htrust
    refine ⟨ht.hooks, hsound, fun h => ?_, fun h => ?_⟩
    · obtain ⟨hte, hsat⟩ := htrust h
      exact { ht.holds _ (hsat a rfl) { hk.holds hte with } with }
    · exact ht.learned ▸ hk.learned (htrust h).1
  base v hv := { ht.base v { hv with } with }

/-- A source has nothing more to hand out. -/
theorem advances_next {α : Type} {source : Source ε α} {lits : α → List Literal} {e : ε}
    (hsource : ∀ {v} (K : Contract s.hooks v), ∀ e, K.sound e → K.sound (source.next e).2 ∧
      (K.trusts (source.next e).2 → K.trusts e ∧ ∀ a, (source.next e).1 = some a → v.Satisfies (lits a))) :
    Advances { s with outside := e } { s with outside := (source.next e).2 } where
  settings := rfl
  hooks := rfl
  numbering := rfl
  extension := rfl
  status := rfl
  pending := rfl
  inconsistent := id
  told K hk := by
    obtain rfl := hk.hooks
    obtain ⟨hsound, htrust⟩ := hsource K e hk.sound
    exact ⟨rfl, hsound, fun h => { hk.holds (htrust h).1 with }, fun h => hk.learned (htrust h).1⟩
  base v hv := { hv with }

/-- What is done with the next element of a source. -/
theorem drain_eq {α : Type} (source : Source ε α) (take : α → SolverM ε Unit) (e : ε) (s : Solver ε) :
    drain source take e s =
      if s.inconsistent then .ok () { s with outside := e }
      else match source.next e with
        | (none, e') => .ok () { s with outside := e' }
        | (some a, e') => match take a s with
          | .ok _ s => drain source take e' s
          | .error fault s => .error fault { s with outside := e' } := by
  rw [drain]
  split
  · rfl
  · split
    · next hnext => simp only [hnext]
    · next a e' hnext =>
      cases htake : take a s <;> simp only [hnext, htake]

/-- All that a source hands out is taken over.  The induction is on how much it can hand out. -/
theorem ends_drain {α : Type} {source : Source ε α} {take : α → SolverM ε Unit} (lits : α → List Literal)
    {h : Hooks ε} (htake : ∀ (s : Solver ε) a, s.Inv lags s.trail.propagated → s.trail.level = 0 →
      Ends (take a) s (fun _ s' => Taken lags (lits a) s s') fun e s' => e = .exhausted ∧ s' = s)
    (hsource : ∀ {v} (K : Contract h v), ∀ e, K.sound e → K.sound (source.next e).2 ∧
      (K.trusts (source.next e).2 → K.trusts e ∧ ∀ a, (source.next e).1 = some a → v.Satisfies (lits a)))
    (e : ε) (hs : s.Settled lags) (h0 : s.trail.level = 0) (hh : s.hooks = h) :
    Ends (drain source take e) s (fun _ s' => Drained lags { s with outside := e } s')
      fun fault s' => fault = .exhausted ∧ Drained lags { s with outside := e } s' := by
  induction hn : source.size e using Nat.strongRecOn generalizing e s with
  | _ n ih =>
    subst hh
    unfold Ends
    rw [drain_eq]
    by_cases hi : s.inconsistent = true
    · rw [if_pos hi]
      exact ⟨hs.outside e, h0, .refl _⟩
    · rw [if_neg hi]
      cases hnext : source.next e with
      | mk next e' =>
        cases next with
        | none =>
          have := advances_next (s := s) (e := e) hsource
          rw [hnext] at this
          exact ⟨hs.outside e', h0, this⟩
        | some a =>
          simp only
          obtain ⟨p, hp, hfull⟩ := id hs
          obtain rfl := hfull (Bool.not_eq_true _ ▸ hi)
          have hta := htake s a hp h0
          cases hx : take a s with
          | ok u s₁ =>
            have ht := hta.of_ok hx
            have hadv := ht.advances hnext hsource
            refine Ends.imp (ih _ (hn ▸ source.size_lt hnext) e' ht.settled ht.level ht.hooks rfl)
              (fun _ s' h' => ?_) fun f s' h' => ?_
            · exact ⟨h'.settled, h'.level, hadv.trans h'.advances⟩
            · exact ⟨h'.1, h'.2.settled, h'.2.level, hadv.trans h'.2.advances⟩
          | error fault s₁ =>
            obtain ⟨rfl, rfl⟩ := hta.of_error hx
            have ht : Taken lags (lits a) s₁ s₁ := ⟨(Refines.refl s₁).stores _, hs, h0, rfl⟩
            exact ⟨rfl, hs.outside e', h0, ht.advances hnext hsource⟩

/-- Units are taken over. -/
theorem ends_importUnits (hs : s.Settled lags) (h0 : s.trail.level = 0) :
    Ends importUnits s (fun _ s' => Drained lags s s') fun e s' => e = .exhausted ∧ Drained lags s s' := by
  unfold importUnits
  simp only [ends_bind, ends_get, ends_ite, ends_throw]
  refine ⟨fun hn => absurd h0 hn, fun _ => ?_⟩
  split
  · exact ⟨hs, h0, .refl s⟩
  · next source hsource =>
    exact ends_drain (fun u => Numbering.toClause [u])
      (fun s u hi h0 => (ends_modify _).2 (taken_importUnit hi h0 u))
      (fun K e he => K.units source hsource e he) s.outside hs h0 rfl

/-- Clauses are taken over. -/
theorem ends_importClauses (hs : s.Settled lags) (h0 : s.trail.level = 0) :
    Ends importClauses s (fun _ s' => Drained lags s s') fun e s' => e = .exhausted ∧ Drained lags s s' := by
  unfold importClauses
  simp only [ends_bind, ends_get, ends_ite, ends_throw]
  refine ⟨fun hn => absurd h0 hn, fun _ => ?_⟩
  split
  · exact ⟨hs, h0, .refl s⟩
  · next source hsource =>
    exact ends_drain (fun c => Numbering.toClause c.literals)
      (fun s c hi h0 => ends_importClause hi h0 c.literals c.glue)
      (fun K e he => K.clauses source hsource e he) s.outside hs h0 rfl

end Solver

end ClauseLearning
