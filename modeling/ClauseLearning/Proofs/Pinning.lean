import ClauseLearning.Proofs.Notes
import ClauseLearning.Proofs.Trimming

/-!
# Pinned clauses

A clause which is the reason of a literal above the root is pinned while clauses are dropped.  Pinning finds
every such clause, and so does taking the pins off again.

* `Flags.unpinned` — what is noted of a clause beside its pin.
* `Solver.IsReason` — a clause of the store is a reason.
* `Store.Repinned` — some clauses were pinned, or released.
* `Solver.ends_pinReasons` — all reasons are pinned, or released.
-/

namespace ClauseLearning

/-- Flags as they are stored, without the note that the clause is a reason. -/
def Flags.unpinned (f : Flags) : Flags := { f with reason := false, used := min f.used maxUsed }

namespace Store

variable {s s' s'' : Store} {pin : Bool} {target target' : Nat → Prop}

/-- A clause without the note that it is a reason. -/
def Record.unpinned (c : Record) : Record := { c with flags := c.flags.unpinned }

/-- Some clauses were pinned, or released, and nothing else changed but how often clauses were used. -/
structure Repinned (pin : Bool) (target : Nat → Prop) (s s' : Store) : Prop extends Alike s s' where
  /-- Other flags are as they were. -/
  flags : ∀ o ∈ s.offsets, ∃ used reason, s'.flagsAt o = { s.flagsAt o with used, reason }
  /-- The clauses that were pinned or released. -/
  pinned : ∀ o ∈ s.offsets, target o → (s'.flagsAt o).reason = pin
  /-- All other clauses. -/
  others : ∀ o ∈ s.offsets, ¬ target o → (s'.flagsAt o).reason = (s.flagsAt o).reason
  /-- Nothing but pins has changed. -/
  record : ∀ o ∈ s.offsets, (s'.recordAt o).unpinned = (s.recordAt o).unpinned

namespace Repinned

theorem refl (h : s.Chain 0) (hn : ∀ o, ¬ target o) : Repinned pin target s s :=
  ⟨.refl h, fun o _ => ⟨(s.flagsAt o).used, (s.flagsAt o).reason, rfl⟩, fun o _ ht => absurd ht (hn o),
    fun _ _ _ => rfl, fun _ _ => rfl⟩

theorem trans (h : Repinned pin target s s') (h' : Repinned pin target' s' s'') :
    Repinned pin (fun o => target o ∨ target' o) s s'' := by
  refine ⟨h.toAlike.trans h'.toAlike, fun o ho => ?_, fun o ho ht => ?_, fun o ho hn => ?_,
    fun o ho => (h'.record o (h.offsets ▸ ho)).trans (h.record o ho)⟩
  · obtain ⟨u, b, hu⟩ := h.flags o ho
    obtain ⟨u', b', hu'⟩ := h'.flags o (h.offsets ▸ ho)
    exact ⟨u', b', by rw [hu', hu]⟩
  · by_cases ht' : target' o
    · exact h'.pinned o (h.offsets ▸ ho) ht'
    · rw [h'.others o (h.offsets ▸ ho) ht']
      exact h.pinned o ho (ht.resolve_right ht')
  · rw [h'.others o (h.offsets ▸ ho) fun ht => hn (.inr ht), h.others o ho fun ht => hn (.inl ht)]

theorem congr (h : Repinned pin target s s') (ht : ∀ o, target' o ↔ target o) :
    Repinned pin target' s s' :=
  { h with
    pinned := fun o ho hto => h.pinned o ho ((ht o).1 hto)
    others := fun o ho hto => h.others o ho fun h' => hto ((ht o).2 h') }

theorem redundant (h : Repinned pin target s s') {o : Nat} (ho : o ∈ s.offsets) :
    (s'.flagsAt o).redundant = (s.flagsAt o).redundant := by
  obtain ⟨_, _, hu⟩ := h.flags o ho
  rw [hu]

theorem garbage (h : Repinned pin target s s') {o : Nat} (ho : o ∈ s.offsets) :
    (s'.flagsAt o).garbage = (s.flagsAt o).garbage := by
  obtain ⟨_, _, hu⟩ := h.flags o ho
  rw [hu]

end Repinned

/-- Of a clause nothing has changed but its flags. -/
theorem Reflagged.recordAt_eq {o o' : Nat} {f : Flags} (h : Reflagged o f s s') (hc : s.Chain 0)
    (ho' : o' ∈ s.offsets) : s'.recordAt o' = { s.recordAt o' with flags := s'.flagsAt o' } := by
  have hat' := (h.chain.mem (show o' ∈ s'.offsets from h.offsets.symm ▸ ho')).2
  have hlits := literalsAt_congr (hc.mem ho').2 hat' (h.lits o' ho')
  obtain ⟨hglue, hsearched⟩ := h.notes o' ho'
  simp only [recordAt, hglue, hsearched, hlits]

/-- A current reference is pinned or released. -/
theorem repinned_updateFlags {r : Reference} {E : Fault → Store → Prop} (hc : s.Chain 0)
    (hr : s.Current r) :
    Ends (updateFlags r fun f => { f with reason := pin }) s
      (fun _ s' => Repinned pin (· = r.offset) s s') E := by
  refine (ends_updateFlags (E := E) hc hr).imp (fun _ s' h => ?_) fun _ _ he => he
  refine ⟨h.toAlike, fun o ho => ?_, fun o _ ht => ?_, fun o ho hn => by rw [h.others o ho hn], fun o ho => ?_⟩
  · by_cases he : o = r.offset
    · rw [he, h.flags]
      exact ⟨_, _, rfl⟩
    · rw [h.others o ho he]
      exact ⟨(s.flagsAt o).used, (s.flagsAt o).reason, rfl⟩
  · rw [ht, h.flags]
  · rw [h.recordAt_eq hc ho]
    by_cases he : o = r.offset
    · rw [he, h.flags]
      simp [Record.unpinned, Flags.unpinned, recordAt]
    · rw [h.others o ho he]
      rfl

end Store

namespace Solver

variable {ε : Type} {s : Solver ε} {pin : Bool} {st' : Store}

/-- The clause of the store at an offset is the reason of a literal. -/
def IsReason (s : Solver ε) (o : Nat) : Prop :=
  ∃ l ∈ s.trail.literals, s.assignment.reason l = .large { offset := o, epoch := s.store.epoch }

/-- The reasons of some literals are pinned or released. -/
theorem ends_pinLiterals {ls : List Literal} (hc : s.store.Chain 0)
    (hr : ∀ l ∈ ls, ∀ r, s.assignment.reason l = .large r → s.store.Current r) :
    Ends (pinLiterals pin ls) s
      (fun _ s' => ∃ st', s' = { s with store := st' } ∧
        Store.Repinned pin (fun o => ∃ l ∈ ls, s.assignment.reason l = .large ⟨o, s.store.epoch⟩)
          s.store st')
      fun _ _ => False := by
  induction ls generalizing s with
  | nil => exact ⟨s.store, rfl, .refl hc fun o => by simp⟩
  | cons l ls ih =>
    have htail : ∀ m ∈ ls, ∀ r, s.assignment.reason m = .large r → s.store.Current r :=
      fun m hm => hr m (List.mem_cons_of_mem _ hm)
    have hskip : (∀ r, s.assignment.reason l ≠ .large r) →
        Ends (pinLiterals pin ls) s
          (fun _ s' => ∃ st', s' = { s with store := st' } ∧
            Store.Repinned pin
              (fun o => ∃ m ∈ l :: ls, s.assignment.reason m = .large ⟨o, s.store.epoch⟩) s.store st')
          fun _ _ => False := fun hl => by
      refine (ih hc htail).imp (fun _ s' hs' => ?_) fun _ _ hf => hf
      obtain ⟨st', he, hp⟩ := hs'
      refine ⟨st', he, hp.congr fun o => ?_⟩
      simp [hl]
    unfold pinLiterals
    simp only [ends_bind, ends_get]
    cases hreason : s.assignment.reason l with
    | decision => exact hskip fun r => by simp [hreason]
    | unit => exact hskip fun r => by simp [hreason]
    | binary o => exact hskip fun r => by simp [hreason]
    | large r =>
      have hcur := hr l (List.mem_cons_self ..) r hreason
      simp only [ends_bind, ends_onStore]
      refine (Store.repinned_updateFlags hc hcur).imp (fun _ st₁ h₁ => ?_) fun _ _ hf => hf
      refine (ih (s := { s with store := st₁ }) h₁.chain fun m hm r' hr' =>
        h₁.current (htail m hm r' hr')).imp (fun _ s' hs' => ?_) fun _ _ hf => hf
      obtain ⟨st', rfl, hp⟩ := hs'
      refine ⟨st', rfl, (h₁.trans hp).congr fun o => ?_⟩
      rw [h₁.epoch]
      obtain ⟨o', e'⟩ := r
      obtain rfl : e' = s.store.epoch := hcur.1
      simp [hreason, eq_comm]

/-- All clauses which are reasons are pinned or released. -/
theorem ends_pinReasons (hf : s.Frame) (hc : s.store.Chain 0)
    (hg : ∀ i < s.trail.size, Grounded s.trail s.assignment s.store i) :
    Ends (pinReasons pin) s
      (fun _ s' => ∃ st', s' = { s with store := st' } ∧ Store.Repinned pin s.IsReason s.store st')
      fun _ _ => False := by
  have hlarge : ∀ l ∈ s.trail.literals, ∀ r, s.assignment.reason l = .large r →
      1 ≤ s.assignment.level l ∧ s.store.Current r := fun l hl r hr => by
    obtain ⟨i, hi, rfl⟩ := Trail.exists_at' hl
    obtain ⟨h1, hcur, -⟩ := (hg i hi).large hr
    exact ⟨h1, hcur⟩
  unfold pinReasons
  simp only [ends_bind, ends_get]
  refine (ends_pinLiterals hc fun l hl r hr => (hlarge l (hf.trail.mem_above.1 hl).1 r hr).2).imp
    (fun _ s' hs' => ?_) fun _ _ hf => hf
  obtain ⟨st', he, hp⟩ := hs'
  refine ⟨st', he, hp.congr fun o => ?_⟩
  constructor
  · rintro ⟨l, hl, hr⟩
    exact ⟨l, hf.trail.mem_above.2 ⟨hl, (hlarge l hl _ hr).1⟩, hr⟩
  · rintro ⟨l, hl, hr⟩
    exact ⟨l, (hf.trail.mem_above.1 hl).1, hr⟩

/-- Pinning and releasing clauses changes nothing that is known. -/
theorem refines_repinned {target : Nat → Prop} (hp : Store.Repinned pin target s.store st') :
    Refines s { s with store := st' } :=
  refines_alike hp.toAlike fun v hv o ho h0 hg => by
    have := hv.large o (hp.offsets.symm ▸ ho) ((hp.redundant ho).trans h0) ((hp.garbage ho).trans hg)
    rwa [← hp.lits o ho]

end Solver

end ClauseLearning
