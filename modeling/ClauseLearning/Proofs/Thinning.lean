import ClauseLearning.Proofs.Accounting
import ClauseLearning.Proofs.Relocation
import ClauseLearning.Proofs.RootSimplification
import ClauseLearning.Proofs.Store.Amend

/-!
# What a reduction removes

A reduction looks at the clauses which nothing protects for good: they are redundant, not kept for their glue, and no
reasons.  One that was used lately uses up a part of that credit.  The others are candidates, and of these a part is
marked as garbage, the worst ones first.  A collection from the first garbage clause on then removes them, along with
all garbage from before which is no reason.

* `Solver.unprotected`, `Solver.removable` — what a reduction looks at, and its candidates.
* `Solver.Chosen` — which candidates are to go.
* `Solver.Marked` — what is noted of clauses before the collection.
* `Solver.Thinned` — which clauses are left afterwards, with `Solver.Marked.thinned`.
* `Solver.reduce_removes_worst` — all of it, at any level.
-/

namespace ClauseLearning

/-- Nothing that is noted of a clause protects it for good. -/
def Flags.exposed (f : Flags) : Bool := f.redundant && !f.garbage && !f.reason && !f.keep

namespace Candidate

theorem worse_iff (a b : Candidate) : a.worse b = true ↔ b.glue < a.glue ∨ b.glue = a.glue ∧ b.size ≤ a.size := by
  simp only [worse, Bool.or_eq_true, Bool.and_eq_true, decide_eq_true_eq, beq_iff_eq]
  rw [eq_comm (a := a.glue)]

theorem worse_trans (a b c : Candidate) (h : a.worse b = true) (h' : b.worse c = true) : a.worse c = true := by
  rw [worse_iff] at *
  omega

theorem worse_total (a b : Candidate) : (a.worse b || b.worse a) = true := by
  rw [Bool.or_eq_true, worse_iff, worse_iff]
  omega

end Candidate

/-! ## Clauses that are changed where they are -/

namespace Store

variable {s s' s'' : Store} {e f g : Nat → Record → Record} {o : Nat}

/-- A clause uses up a part of its credit, if it has any and nothing protects it for good. -/
def Record.charged (c : Record) : Record :=
  if c.flags.exposed = true ∧ 0 < c.flags.used then c.flagged { c.flags with used := c.flags.used - 1 } else c

/-- Nothing protects a clause. -/
def Record.spare (c : Record) : Bool := c.flags.exposed && c.flags.used == 0

/-- Every clause is what `f` makes of it, at the same place. -/
structure Rewritten (f : Nat → Record → Record) (s s' : Store) : Prop where
  /-- The epoch is as it was. -/
  epoch : s'.epoch = s.epoch
  /-- The walk is good. -/
  chain : s'.Chain 0
  /-- The clauses are at the same places. -/
  offsets : s'.offsets = s.offsets
  /-- Every clause. -/
  record : ∀ o ∈ s.offsets, s'.recordAt o = f o (s.recordAt o)

theorem Rewritten.refl (hc : s.Chain 0) (h : ∀ o ∈ s.offsets, f o (s.recordAt o) = s.recordAt o) : Rewritten f s s :=
  ⟨rfl, hc, rfl, fun o ho => (h o ho).symm⟩

theorem Rewritten.trans (h : Rewritten f s s') (h' : Rewritten g s' s'')
    (he : ∀ o ∈ s.offsets, g o (f o (s.recordAt o)) = e o (s.recordAt o)) : Rewritten e s s'' where
  epoch := h'.epoch.trans h.epoch
  chain := h'.chain
  offsets := h'.offsets.trans h.offsets
  record o ho := by
    rw [h'.record o (h.offsets ▸ ho), h.record o ho, he o ho]

theorem Rewritten.current (h : Rewritten f s s') {r : Reference} (hr : s.Current r) : s'.Current r :=
  ⟨hr.1.trans h.epoch.symm, h.offsets.symm ▸ hr.2⟩

theorem Amended.rewritten {change : Record → Record} (h : Amended o (change (s.recordAt o)) s s') :
    Rewritten (fun o' c => if o' = o then change c else c) s s' where
  epoch := h.epoch
  chain := h.chain
  offsets := h.offsets
  record o' ho' := by
    by_cases he : o' = o
    · subst he
      rw [if_pos rfl, h.self]
    · rw [if_neg he, h.other o' ho' he]

/-- A clause is changed, and then others are. -/
theorem Amended.cons {change : Record → Record} {os : List Nat} (h : Amended o (change (s.recordAt o)) s s')
    (h' : Rewritten (fun o' c => if o' ∈ os then change c else c) s' s'') (hn : o ∉ os) :
    Rewritten (fun o' c => if o' ∈ o :: os then change c else c) s s'' := by
  refine h.rewritten.trans h' fun o' _ => ?_
  by_cases he : o' = o
  · subst he
    simp [hn]
  · simp [he]

/-- A clause before a position comes before those from there on. -/
theorem Stop.filter_offsets {q : Nat} (hq : s.Stop q) (hc : s.Chain 0) (p : Nat → Bool) :
    s.offsets.filter p = (s.offsets.filter (· < q)).filter p ++ (s.offsets.filter (q ≤ ·)).filter p := by
  have hcut : s.offsets.filter (· < q) = (s.cut q 0).offsets := by
    rw [hq.offsets hc 0, List.filter_append, List.filter_eq_self.2, List.filter_eq_nil_iff.2, List.append_nil]
    · intro o ho
      have hle := ((hq.mem_offsetsFrom hc).1 ho).2
      simpa using hle
    · intro o ho
      simpa using ((hq.mem_cut hc).1 ho).2
  have hfrom : s.offsets.filter (q ≤ ·) = s.offsetsFrom q := by
    rw [hq.offsets hc 0, List.filter_append, List.filter_eq_nil_iff.2, List.filter_eq_self.2, List.nil_append]
    · intro o ho
      simpa using ((hq.mem_offsetsFrom hc).1 ho).2
    · intro o ho
      have hlt := ((hq.mem_cut hc).1 ho).2
      simpa using hlt
  rw [hcut, hfrom, ← List.filter_append, ← hq.offsets hc 0]

/-- A clause has no credit any more. -/
def forgetUses (s : Store) (o : Nat) : Store := s.setFlagsAt o { s.flagsAt o with used := 0 }

end Store

namespace Solver

variable {ε : Type} {lags : Prop} {s s' t : Solver ε} {start : Nat} {rs : List Reference} {marked left : List Nat}

/-! ## Looking for candidates -/

/-- A clause as a candidate. -/
def candidateOf (c : Store.Record) (r : Reference) : Candidate :=
  { glue := c.glue, size := c.literals.size, reference := r }

/-- Clauses were looked at.  Those that have any credit used up a part of it, those that nothing protects were found,
and the first garbage clause is known. -/
structure Sifted (rs : List Reference) (start : Nat) (s : Solver ε) (x : Nat × List Candidate) (s' : Solver ε) : Prop
    where
  /-- Nothing else has changed. -/
  eq : ∃ st', s' = { s with store := st' } ∧
    Store.Rewritten (fun o c => if o ∈ rs.map Reference.offset then c.charged else c) s.store st'
  /-- A collection starts no later than it would have. -/
  le : x.1 ≤ start
  /-- It misses no garbage. -/
  least : ∀ r ∈ rs, (s.store.recordAt r.offset).flags.garbage = true → x.1 ≤ r.offset
  /-- The candidates. -/
  found : x.2 = (rs.filter fun r => (s.store.recordAt r.offset).spare).map
    fun r => candidateOf (s.store.recordAt r.offset) r

section Sift

variable {r : Reference} {x : Nat × List Candidate} {start' : Nat} {st : Store}
  (hn : r.offset ∉ rs.map Reference.offset)
  (hstart : start' = if (s.store.recordAt r.offset).flags.garbage then min start r.offset else start)
include hn hstart

/-- A clause without credit is looked at before others. -/
theorem Sifted.cons (h : Sifted rs start' s x s') (hc : s.store.Chain 0)
    (hsame : (s.store.recordAt r.offset).charged = s.store.recordAt r.offset) :
    Sifted (r :: rs) start s (x.1, if (s.store.recordAt r.offset).spare then
      candidateOf (s.store.recordAt r.offset) r :: x.2 else x.2) s' := by
  obtain ⟨⟨st', rfl, hst⟩, hle, hleast, hfound⟩ := h
  have hself : Store.Amended r.offset (s.store.recordAt r.offset).charged s.store s.store := by
    rw [hsame]
    exact .refl hc
  refine ⟨⟨st', rfl, hself.cons hst hn⟩, ?_, fun r' hr' hg => ?_, ?_⟩
  · show x.1 ≤ start
    split at hstart <;> omega
  · rcases List.mem_cons.1 hr' with rfl | hr'
    · rw [if_pos hg] at hstart
      show x.1 ≤ _
      omega
    · exact hleast r' hr' hg
  · rw [List.filter_cons, hfound]
    split <;> rfl

/-- A clause that has credit is looked at before others. -/
theorem Sifted.cons_charged (h : Sifted rs start' { s with store := st } x s')
    (ha : Store.Amended r.offset (s.store.recordAt r.offset).charged s.store st)
    (hr : ∀ r' ∈ rs, s.store.Current r') (hspare : (s.store.recordAt r.offset).spare = false) :
    Sifted (r :: rs) start s x s' := by
  have hother : ∀ r' ∈ rs, st.recordAt r'.offset = s.store.recordAt r'.offset := by
    intro r' hr'
    refine ha.other _ (hr r' hr').2 fun he => hn ?_
    exact he ▸ List.mem_map_of_mem hr'
  obtain ⟨⟨st', rfl, hst⟩, hle, hleast, hfound⟩ := h
  refine ⟨⟨st', rfl, ha.cons hst hn⟩, ?_, fun r' hr' hg => ?_, ?_⟩
  · split at hstart <;> omega
  · rcases List.mem_cons.1 hr' with rfl | hr'
    · rw [if_pos hg] at hstart
      omega
    · exact hleast r' hr' (hother r' hr' ▸ hg)
  · have hsame : (rs.filter fun r' => (st.recordAt r'.offset).spare) =
        rs.filter fun r' => (s.store.recordAt r'.offset).spare :=
      List.filter_congr fun r' hr' => by rw [hother r' hr']
    have hfound : x.2 = (rs.filter fun r' => (st.recordAt r'.offset).spare).map
        fun r' => candidateOf (st.recordAt r'.offset) r' := hfound
    rw [hfound, hsame, List.filter_cons_of_neg (by simp [hspare])]
    refine List.map_congr_left fun r' hr' => ?_
    rw [hother r' (List.mem_of_mem_filter hr')]

end Sift

/-- Looking for candidates, exactly. -/
theorem ends_candidates_sifted (hc : s.store.Chain 0) (hr : ∀ r ∈ rs, s.store.Current r)
    (hn : (rs.map Reference.offset).Nodup) :
    Ends (candidates rs start) s (fun x s' => Sifted rs start s x s') fun _ _ => False := by
  induction rs generalizing s start with
  | nil =>
    refine ⟨⟨s.store, rfl, .refl hc ?_⟩, Nat.le_refl _, ?_, rfl⟩
    · intro o _
      simp
    · intro r hr
      simp at hr
  | cons r rs ih =>
    have hcur := hr r (List.mem_cons_self ..)
    have htail : ∀ r' ∈ rs, s.store.Current r' := fun r' hr' => hr r' (List.mem_cons_of_mem _ hr')
    obtain ⟨hfresh, hn⟩ := List.nodup_cons.1 (List.map_cons ▸ hn)
    have hflags : (s.store.recordAt r.offset).flags = s.store.flagsAt r.offset := rfl
    have hsize : s.store.sizeAt r.offset = (s.store.recordAt r.offset).literals.size :=
      (hc.mem hcur.2).2.size_recordAt.symm
    have hexposed : (s.store.recordAt r.offset).flags.exposed = !(!(s.store.flagsAt r.offset).redundant ||
        (s.store.flagsAt r.offset).garbage || (s.store.flagsAt r.offset).reason || (s.store.flagsAt r.offset).keep) := by
      simp [Flags.exposed, hflags]
    unfold candidates
    simp only [ends_bind, ends_onStore, Store.ends_locate hc hcur, ends_get, ends_ite]
    refine ⟨fun hskip => ?_, fun hlook => ⟨fun hused => ?_, fun hused => ?_⟩⟩
    · rw [hskip] at hexposed
      refine (ih hc htail hn).imp (fun x s' hs' => ?_) fun _ _ hf => hf
      have hcons := hs'.cons hfresh rfl hc (by simp [Store.Record.charged, hexposed])
      simpa [Store.Record.spare, hexposed] using hcons
    · rw [eq_false_of_ne_true hlook] at hexposed
      have hcharged : (s.store.recordAt r.offset).charged =
          Store.Edit.apply (s.store.recordAt r.offset) (.flags fun f => { f with used := f.used - 1 }) := by
        rw [Store.Record.charged, if_pos ⟨hexposed, hused⟩]
        rfl
      have hspare : (s.store.recordAt r.offset).spare = false := by
        have hne : (s.store.flagsAt r.offset).used ≠ 0 := Nat.ne_of_gt hused
        simp [Store.Record.spare, hflags, hne]
      have hedit : Ends (Store.updateFlags r fun f => { f with used := f.used - 1 }) s.store _ fun _ _ => False :=
        Store.ends_edit hc hcur (.flags fun f => { f with used := f.used - 1 })
      refine hedit.imp (fun _ st₁ h₁ => ?_) fun _ _ hf => hf
      rw [← hcharged] at h₁
      have hcur₁ : ∀ r' ∈ rs, Store.Current st₁ r' := fun r' hr' => h₁.rewritten.current (htail r' hr')
      refine (@ih { s with store := st₁ } _ h₁.chain hcur₁ hn).imp (fun x s' hs' => ?_) fun _ _ hf => hf
      exact hs'.cons_charged hfresh rfl h₁ htail hspare
    · rw [eq_false_of_ne_true hlook] at hexposed
      have hnone : (s.store.recordAt r.offset).flags.used = 0 := Nat.eq_zero_of_not_pos hused
      refine (ih hc htail hn).imp (fun x s' hs' => ?_) fun _ _ hf => hf
      have hcons := hs'.cons hfresh rfl hc (by simp [Store.Record.charged, hnone])
      have hcandidate : candidateOf (s.store.recordAt r.offset) r =
          { glue := s.store.glueAt r.offset, size := s.store.sizeAt r.offset, reference := r } := by
        rw [hsize]
        rfl
      simpa [Store.Record.spare, hexposed, hnone, hcandidate] using hcons

/-! ## Pins and marks -/

/-- Pinning leaves other clauses as they are. -/
theorem ends_pinLiterals_others {pin : Bool} {ls : List Literal} (hc : s.store.Chain 0)
    (hr : ∀ l ∈ ls, ∀ r, s.assignment.reason l = .large r → s.store.Current r) :
    Ends (pinLiterals pin ls) s
      (fun _ s' => ∀ o ∈ s.store.offsets, (∀ l ∈ ls, s.assignment.reason l ≠ .large ⟨o, s.store.epoch⟩) →
        s'.store.recordAt o = s.store.recordAt o) fun _ _ => False := by
  induction ls generalizing s with
  | nil => exact fun o _ _ => rfl
  | cons l ls ih =>
    have htail : ∀ m ∈ ls, ∀ r, s.assignment.reason m = .large r → s.store.Current r :=
      fun m hm => hr m (List.mem_cons_of_mem _ hm)
    have hskip : Ends (pinLiterals pin ls) s
        (fun _ s' => ∀ o ∈ s.store.offsets, (∀ m ∈ l :: ls, s.assignment.reason m ≠ .large ⟨o, s.store.epoch⟩) →
          s'.store.recordAt o = s.store.recordAt o) fun _ _ => False :=
      (ih hc htail).imp (fun _ s' hs' o ho hn => hs' o ho fun m hm => hn m (List.mem_cons_of_mem _ hm))
        fun _ _ hf => hf
    unfold pinLiterals
    simp only [ends_bind, ends_get]
    cases hreason : s.assignment.reason l with
    | decision | unit | binary => exact hskip
    | large r =>
      have hcur := hr l (List.mem_cons_self ..) r hreason
      have hedit : Ends (Store.updateFlags r fun f => { f with reason := pin }) s.store _ fun _ _ => False :=
        Store.ends_edit hc hcur (.flags fun f => { f with reason := pin })
      simp only [ends_bind, ends_onStore]
      refine hedit.imp (fun _ st₁ h₁ => ?_) fun _ _ hf => hf
      have hcur₁ : ∀ m ∈ ls, ∀ r', s.assignment.reason m = .large r' → Store.Current st₁ r' := by
        intro m hm r' hr'
        obtain ⟨he, ho⟩ := htail m hm r' hr'
        exact ⟨he.trans h₁.epoch.symm, h₁.offsets.symm ▸ ho⟩
      refine (@ih { s with store := st₁ } h₁.chain hcur₁).imp (fun _ s' hs' o ho hn => ?_) fun _ _ hf => hf
      have hne : o ≠ r.offset := by
        rintro rfl
        refine hn l (List.mem_cons_self ..) (hreason.trans ?_)
        rw [← hcur.1]
      refine (hs' o (h₁.offsets.symm ▸ ho) fun m hm => ?_).trans (h₁.other o ho hne)
      show s.assignment.reason m ≠ .large ⟨o, st₁.epoch⟩
      rw [h₁.epoch]
      exact hn m (List.mem_cons_of_mem _ hm)

/-- Pinning changes clauses that are reasons, and no others. -/
theorem ends_pinReasons_others {pin : Bool} (hf : s.Frame) (hc : s.store.Chain 0)
    (hg : ∀ i < s.trail.size, Grounded s.trail s.assignment s.store i) :
    Ends (pinReasons pin) s
      (fun _ s' => ∃ st', s' = { s with store := st' } ∧ Store.Repinned pin s.IsReason s.store st' ∧
        ∀ o ∈ s.store.offsets, ¬ s.IsReason o → st'.recordAt o = s.store.recordAt o)
      fun _ _ => False := by
  have hothers : Ends (pinReasons pin) s
      (fun _ s' => ∀ o ∈ s.store.offsets, ¬ s.IsReason o → s'.store.recordAt o = s.store.recordAt o)
      fun _ _ => False := by
    unfold pinReasons
    simp only [ends_bind, ends_get]
    refine (ends_pinLiterals_others hc fun l hl r hr => ?_).imp (fun _ s' hs' o ho hn => ?_) fun _ _ hf => hf
    · obtain ⟨i, hi, rfl⟩ := Trail.exists_at' (hf.trail.mem_above.1 hl).1
      exact ((hg i hi).large hr).2.1
    · exact hs' o ho fun l hl hr => hn ⟨l, (hf.trail.mem_above.1 hl).1, hr⟩
  refine ((ends_pinReasons hf hc hg).and hothers).imp (fun _ s' hs' => ?_) fun _ _ hf => hf.1
  obtain ⟨⟨st', rfl, hp⟩, ho⟩ := hs'
  exact ⟨st', rfl, hp, ho⟩

/-- Marking clauses as garbage, exactly. -/
theorem ends_markAll_exact {cs : List Candidate} (hc : s.store.Chain 0) (hr : ∀ c ∈ cs, s.store.Current c.reference)
    (hn : (cs.map fun c => c.reference.offset).Nodup) :
    Ends (markAll cs start) s
      (fun start' s' => (∃ st', s' = { s with store := st' } ∧
          Store.Rewritten (fun o c => if o ∈ cs.map fun c => c.reference.offset then c.trashed else c) s.store st') ∧
        start' ≤ start ∧ ∀ c ∈ cs, start' ≤ c.reference.offset)
      fun _ _ => False := by
  induction cs generalizing s start with
  | nil =>
    refine ⟨⟨s.store, rfl, .refl hc ?_⟩, Nat.le_refl _, ?_⟩
    · intro o _
      simp
    · intro c hc
      simp at hc
  | cons c cs ih =>
    have hcur := hr c (List.mem_cons_self ..)
    obtain ⟨hfresh, hn⟩ := List.nodup_cons.1 (List.map_cons ▸ hn)
    unfold markAll
    simp only [ends_bind, ends_onStore]
    have hmark : Ends (Store.markGarbage c.reference) s.store _ fun _ _ => False :=
      Store.ends_markGarbage_amended hc hcur
    refine hmark.imp (fun _ st₁ h₁ => ?_) fun _ _ hf => hf
    obtain ⟨-, h₁⟩ := h₁
    have hcur₁ : ∀ c' ∈ cs, Store.Current st₁ c'.reference := by
      intro c' hc'
      exact h₁.rewritten.current (hr c' (List.mem_cons_of_mem _ hc'))
    refine (@ih { s with store := st₁ } _ h₁.chain hcur₁ hn).imp (fun start' s' hs' => ?_) fun _ _ hf => hf
    obtain ⟨⟨st', rfl, hst⟩, hle, hleast⟩ := hs'
    refine ⟨⟨st', rfl, h₁.cons hst hfresh⟩, by omega, fun c' hc' => ?_⟩
    rcases List.mem_cons.1 hc' with rfl | hc'
    · omega
    · exact hleast c' hc'

/-! ## Which clauses go -/

/-- Nothing protects a clause for good: it is redundant, not garbage, not kept, and no reason. -/
def unprotected (s : Solver ε) (o : Nat) : Bool :=
  (s.store.flagsAt o).redundant && !(s.store.flagsAt o).garbage && !(s.store.flagsAt o).keep && !(s.IsReason o : Bool)

/-- The candidates of a reduction: clauses that nothing protects for good, and that were not used lately. -/
def removable (s : Solver ε) : List Nat :=
  s.store.offsets.filter fun o => s.unprotected o && (s.store.flagsAt o).used == 0

/-- Clauses were looked at between pinning the reasons and releasing them. -/
structure Surveyed (s : Solver ε) (x : Nat × List Candidate) (s' : Solver ε) : Prop where
  /-- Nothing else has changed. -/
  eq : ∃ store counters, s' = { s with store, counters }
  /-- The epoch is as it was. -/
  epoch : s'.store.epoch = s.store.epoch
  /-- The walk is good. -/
  chain : s'.store.Chain 0
  /-- The clauses are at the same places. -/
  offsets : s'.store.offsets = s.store.offsets
  /-- Reasons are as they were stored. -/
  reason : ∀ o ∈ s.store.offsets, s.IsReason o → (s'.store.recordAt o).unpinned = (s.store.recordAt o).unpinned
  /-- Other clauses used up credit. -/
  other : ∀ o ∈ s.store.offsets, ¬ s.IsReason o → s'.store.recordAt o = (s.store.recordAt o).charged
  /-- No garbage is missed. -/
  least : ∀ o ∈ s.store.offsets, (s.store.flagsAt o).garbage = true → x.1 ≤ o
  /-- The candidates. -/
  found : x.2 = s.removable.map fun o => candidateOf (s.store.recordAt o) ⟨o, s.store.epoch⟩

/-- A clause of a store in which the reasons are pinned, and nothing else is, is a candidate or not. -/
theorem spare_pinned {st : Store} {o : Nat} (hp : Store.Repinned true s.IsReason s.store st)
    (hothers : ∀ o ∈ s.store.offsets, ¬ s.IsReason o → st.recordAt o = s.store.recordAt o)
    (hn : (s.store.flagsAt o).reason = false) (ho : o ∈ s.store.offsets) :
    (st.recordAt o).spare = (s.unprotected o && (s.store.flagsAt o).used == 0) := by
  by_cases hr : s.IsReason o
  · have hpinned : (st.recordAt o).flags.reason = true := hp.pinned o ho hr
    simp [Store.Record.spare, Flags.exposed, hpinned, unprotected, hr]
  · have hflags : (s.store.recordAt o).flags = s.store.flagsAt o := rfl
    rw [hothers o ho hr]
    simp only [Store.Record.spare, Flags.exposed, hflags, hn, unprotected, hr]
    cases (s.store.flagsAt o).redundant <;> cases (s.store.flagsAt o).garbage <;> simp

/-- The candidates that are found while the reasons are pinned. -/
theorem found_pinned {st : Store} (hp : Store.Repinned true s.IsReason s.store st)
    (hothers : ∀ o ∈ s.store.offsets, ¬ s.IsReason o → st.recordAt o = s.store.recordAt o)
    (hn : ∀ o ∈ s.store.offsets, (s.store.flagsAt o).reason = false) :
    ((st.references.filter fun r => (st.recordAt r.offset).spare).map fun r => candidateOf (st.recordAt r.offset) r) =
      s.removable.map fun o => candidateOf (s.store.recordAt o) ⟨o, s.store.epoch⟩ := by
  have hrefs : st.references = s.store.offsets.map fun o => ⟨o, s.store.epoch⟩ := by
    simp only [Store.references, Store.referencesFrom, ← hp.epoch, ← hp.offsets]
    rfl
  rw [hrefs, List.filter_map, List.map_map]
  have hfilter : (s.store.offsets.filter ((fun r : Reference => (st.recordAt r.offset).spare) ∘
      fun o => ⟨o, s.store.epoch⟩)) = s.removable := List.filter_congr fun o ho => spare_pinned hp hothers (hn o ho) ho
  rw [hfilter]
  refine List.map_congr_left fun o ho => ?_
  obtain ⟨ho, hfree⟩ := List.mem_filter.1 ho
  have hr : ¬ s.IsReason o := by
    intro hr
    simp [unprotected, hr] at hfree
  show candidateOf (st.recordAt o) _ = _
  rw [hothers o ho hr]

/-- Pinning the reasons, looking for candidates, and releasing the pins. -/
theorem ends_choose_surveyed (h : s.Inv lags s.trail.size) :
    Ends (do
        pinReasons true
        let s ← get
        let x ← candidates s.store.references s.store.words.size
        pinReasons false
        return x) s
      (fun x s' => Surveyed s x s') fun _ _ => False := by
  simp only [ends_bind, ends_get, ends_pure]
  have hc := h.store.chain
  refine (ends_pinReasons_others h.toFrame hc h.grounded).imp (fun _ s₁ hs₁ => ?_) fun _ _ hf => hf
  obtain ⟨st₁, rfl, hp₁, hothers₁⟩ := hs₁
  have hcur : ∀ r ∈ st₁.references, Store.Current st₁ r := fun r hr => Store.mem_references.1 hr
  have hnodup : (st₁.references.map Reference.offset).Nodup := by
    rw [Store.map_offset_references]
    exact hp₁.chain.nodup
  have hsift := @ends_candidates_sifted ε { s with store := st₁ } st₁.words.size _ hp₁.chain hcur hnodup
  refine ((ends_candidates (s := { s with store := st₁ }) hp₁.chain hcur).and hsift).imp (fun x s₂ hs₂ => ?_)
    fun _ _ hf => hf.1
  obtain ⟨⟨⟨st₂, rfl, hu⟩, -⟩, ⟨⟨st', he, hst⟩, -, hleast, hfound⟩⟩ := hs₂
  obtain rfl : st₂ = st' := congrArg Solver.store he
  have hu : st₁.Reused st₂ := hu
  have ha : Store.Alike s.store st₂ := hp₁.toAlike.trans hu.toAlike
  have hground : ∀ i < s.trail.size, Grounded s.trail s.assignment st₂ i := fun i hi => (h.grounded i hi).alike ha
  refine (ends_pinReasons_others (s := { s with store := st₂ }) { h.toFrame with } ha.chain hground).imp
    (fun _ s₃ hs₃ => ?_) fun _ _ hf => hf
  obtain ⟨st₃, rfl, hp₃, hothers₃⟩ := hs₃
  have ho₁ : ∀ {o}, o ∈ s.store.offsets → o ∈ st₁.offsets := fun ho => hp₁.offsets.symm ▸ ho
  have ho₂ : ∀ {o}, o ∈ s.store.offsets → o ∈ st₂.offsets := fun ho => ha.offsets.symm ▸ ho
  have hreason : ∀ o, IsReason { s with store := st₂ } o ↔ s.IsReason o := fun o => by simp only [IsReason, ha.epoch]
  have hcharged : ∀ o ∈ s.store.offsets, st₂.recordAt o = (st₁.recordAt o).charged := by
    intro o ho
    have hmem : o ∈ st₁.references.map Reference.offset := by
      rw [Store.map_offset_references]
      exact ho₁ ho
    rw [hst.record o (ho₁ ho), if_pos hmem]
  refine ⟨⟨st₃, s.counters, rfl⟩, hp₃.epoch.trans ha.epoch, hp₃.chain, hp₃.offsets.trans ha.offsets, fun o ho hr => ?_,
    fun o ho hr => ?_, fun o ho hg => ?_, ?_⟩
  · have hpinned : (st₁.recordAt o).flags.reason = true := hp₁.pinned o ho hr
    refine (hp₃.record o (ho₂ ho)).trans (Eq.trans ?_ (hp₁.record o ho))
    show (st₂.recordAt o).unpinned = _
    rw [hcharged o ho, Store.Record.charged, if_neg (by simp [Flags.exposed, hpinned])]
  · refine (hothers₃ o (ho₂ ho) (mt (hreason o).1 hr)).trans ?_
    show st₂.recordAt o = _
    rw [hcharged o ho, hothers₁ o ho hr]
  · refine hleast ⟨o, s.store.epoch⟩ (Store.mem_references.2 ⟨hp₁.epoch.symm, ho₁ ho⟩) ?_
    exact (hp₁.garbage ho).trans hg
  · exact hfound.trans (found_pinned hp₁ hothers₁ h.unpinned)

/-- A clause is at least as bad as another one: by glue, and then by size. -/
def AsBad (s : Solver ε) (o o' : Nat) : Prop :=
  s.store.glueAt o' < s.store.glueAt o ∨
    s.store.glueAt o' = s.store.glueAt o ∧ s.store.sizeAt o' ≤ s.store.sizeAt o

/-- The candidates that are to go: a fraction of them, as a whole number, and none that is better than one that stays. -/
structure Chosen (s : Solver ε) (marked : List Nat) : Prop where
  /-- None is there twice. -/
  nodup : marked.Nodup
  /-- They are candidates. -/
  removable : ∀ o ∈ marked, o ∈ s.removable
  /-- Their number. -/
  length : marked.length =
    min ((UInt64.ofNat s.removable.length).toFloat * s.settings.keep.reduceFraction.value).toUInt64.toNat
      s.removable.length
  /-- Each is at least as bad as every other candidate. -/
  worst : ∀ o ∈ marked, ∀ o' ∈ s.removable, o' ∉ marked → s.AsBad o o'

/-- The first of the candidates, in order from the worst to the best, are those to go. -/
theorem chosen_take (hc : s.store.Chain 0) {cs : List Candidate}
    (hcs : cs = s.removable.map fun o => candidateOf (s.store.recordAt o) ⟨o, s.store.epoch⟩) :
    s.Chosen (((cs.mergeSort Candidate.worse).take (s.reduceTarget (cs.mergeSort Candidate.worse).length)).map
      fun c => c.reference.offset) := by
  have hperm : ((cs.mergeSort Candidate.worse).map fun c => c.reference.offset).Perm s.removable := by
    refine ((List.mergeSort_perm cs Candidate.worse).map _).trans (.of_eq ?_)
    rw [hcs, List.map_map]
    exact List.map_id _
  have hlength : (cs.mergeSort Candidate.worse).length = s.removable.length := by
    rw [← hperm.length_eq, List.length_map]
  have hsorted : (cs.mergeSort Candidate.worse).Pairwise fun a b => a.worse b = true :=
    List.pairwise_mergeSort Candidate.worse_trans Candidate.worse_total cs
  have hoffsets : s.store.offsets.Nodup := hc.nodup
  have hnodup : ((cs.mergeSort Candidate.worse).map fun c => c.reference.offset).Nodup :=
    hperm.nodup_iff.2 (hoffsets.filter _)
  have hof : ∀ c ∈ cs.mergeSort Candidate.worse, c.reference.offset ∈ s.store.offsets ∧
      c = candidateOf (s.store.recordAt c.reference.offset) ⟨c.reference.offset, s.store.epoch⟩ := by
    intro c hm
    rw [List.mem_mergeSort, hcs] at hm
    obtain ⟨o, ho, rfl⟩ := List.mem_map.1 hm
    exact ⟨List.mem_of_mem_filter ho, rfl⟩
  generalize cs.mergeSort Candidate.worse = sorted at *
  rw [List.map_take]
  refine ⟨hnodup.sublist (List.take_sublist ..), fun o ho => hperm.mem_iff.1 (List.mem_of_mem_take ho), ?_,
    fun o ho o' ho' hn => ?_⟩
  · rw [List.length_take, List.length_map, hlength]
    rfl
  · rw [← List.map_take] at ho hn
    obtain ⟨c, hm, rfl⟩ := List.mem_map.1 ho
    obtain ⟨c', hm', rfl⟩ := List.mem_map.1 (hperm.mem_iff.2 ho')
    rw [← List.take_append_drop (s.reduceTarget sorted.length) sorted] at hm' hsorted
    have hrest := (List.mem_append.1 hm').resolve_left fun h => hn (List.mem_map_of_mem h)
    have hworse := (List.pairwise_append.1 hsorted).2.2 c hm c' hrest
    obtain ⟨hmem, he⟩ := hof c (List.mem_of_mem_take hm)
    obtain ⟨hmem', he'⟩ := hof c' (List.mem_of_mem_drop hrest)
    rw [he, he', Candidate.worse_iff] at hworse
    simp only [candidateOf, (hc.mem hmem).2.size_recordAt, (hc.mem hmem').2.size_recordAt] at hworse
    exact hworse

/-! ## Before the collection -/

/-- What is noted of a clause when some clauses are marked: these are garbage, and any other clause that nothing
protects for good uses up a part of its credit. -/
def weigh (s : Solver ε) (marked : List Nat) (o : Nat) : Flags :=
  if o ∈ marked then { s.store.flagsAt o with garbage := true }
  else if s.unprotected o then { s.store.flagsAt o with used := (s.store.flagsAt o).used - 1 }
  else s.store.flagsAt o

/-- Clauses are marked, and nothing else has changed but how often some were used. -/
structure Marked (s : Solver ε) (marked : List Nat) (t : Solver ε) : Prop where
  /-- Nothing else has changed. -/
  eq : ∃ store counters, t = { s with store, counters }
  /-- The epoch is as it was. -/
  epoch : t.store.epoch = s.store.epoch
  /-- The clauses are at the same places. -/
  offsets : t.store.offsets = s.store.offsets
  /-- Every clause, as it is stored. -/
  record : ∀ o ∈ s.store.offsets, (t.store.recordAt o).unpinned =
    Store.Record.unpinned { s.store.recordAt o with flags := s.weigh marked o }

/-- A candidate is no reason, and has no credit. -/
theorem of_mem_removable {o : Nat} (h : o ∈ s.removable) :
    o ∈ s.store.offsets ∧ ¬ s.IsReason o ∧ s.unprotected o = true ∧ (s.store.flagsAt o).used = 0 := by
  obtain ⟨ho, hfree⟩ := List.mem_filter.1 h
  rw [Bool.and_eq_true, beq_iff_eq] at hfree
  refine ⟨ho, fun hr => ?_, hfree⟩
  simp [unprotected, hr] at hfree

/-- Candidates were found, and some of them are marked. -/
theorem marked_of_surveyed {x : Nat × List Candidate} {st : Store} (h : Surveyed s x s')
    (hn : ∀ o ∈ s.store.offsets, (s.store.flagsAt o).reason = false) (hm : ∀ o ∈ marked, o ∈ s.removable)
    (ht : Store.Rewritten (fun o c => if o ∈ marked then c.trashed else c) s'.store st) :
    s.Marked marked { s' with store := st } := by
  refine ⟨?_, ht.epoch.trans h.epoch, ht.offsets.trans h.offsets, fun o ho => ?_⟩
  · obtain ⟨st', c, rfl⟩ := h.eq
    exact ⟨st, c, rfl⟩
  have hflags : (s.store.recordAt o).flags = s.store.flagsAt o := rfl
  show (st.recordAt o).unpinned = _
  rw [ht.record o (h.offsets.symm ▸ ho)]
  by_cases hin : o ∈ marked
  · obtain ⟨-, hr, hfree, hused⟩ := of_mem_removable (hm o hin)
    have hgarbage : (s.store.flagsAt o).garbage = false := by
      simp only [unprotected, Bool.and_eq_true, Bool.not_eq_true'] at hfree
      exact hfree.1.1.2
    rw [if_pos hin, h.other o ho hr, Store.Record.charged, if_neg (by simp [hflags, hused]), weigh, if_pos hin]
    simp [Store.Record.trashed, Store.Record.unpinned, Store.Record.flagged, Flags.unpinned, hflags, hgarbage, hused]
  · rw [if_neg hin, weigh, if_neg hin]
    by_cases hr : s.IsReason o
    · rw [h.reason o ho hr, if_neg (by simp [unprotected, hr])]
      rfl
    · have hexposed : (s.store.recordAt o).flags.exposed = s.unprotected o := by
        simp [Flags.exposed, unprotected, hflags, hn o ho, hr]
      rw [h.other o ho hr, Store.Record.charged, hexposed]
      by_cases hfree : s.unprotected o = true
      · rw [if_pos hfree]
        rcases Nat.eq_zero_or_pos (s.store.flagsAt o).used with hused | hused
        · rw [if_neg (by simp [hflags, hused]), ← hflags]
          simp [Store.Record.unpinned, Flags.unpinned, hflags, hused]
        · rw [if_pos ⟨hfree, hused⟩]
          simp [Store.Record.unpinned, Store.Record.flagged, Flags.unpinned, Flags.maxUsed, hflags]
      · rw [if_neg hfree, if_neg fun hc => hfree hc.1]
        rfl

namespace Marked

variable {o : Nat} (h : s.Marked marked t)
include h

theorem isReason : t.IsReason o ↔ s.IsReason o := by
  have hepoch := h.epoch
  obtain ⟨st, c, rfl⟩ := h.eq
  have hepoch : st.epoch = s.store.epoch := hepoch
  simp only [IsReason, hepoch]

theorem keepsBinary : t.watches.binaries.filter (t.keepsBinary .sparse) =
    s.watches.binaries.filter (s.keepsBinary .sparse) := by
  obtain ⟨st, c, rfl⟩ := h.eq
  rfl

variable (ho : o ∈ s.store.offsets)
include ho

theorem glue : t.store.glueAt o = s.store.glueAt o := by
  exact congrArg Store.Record.glue (h.record o ho)

theorem flags : (t.store.flagsAt o).unpinned = (s.weigh marked o).unpinned := by
  exact congrArg Store.Record.flags (h.record o ho)

theorem redundant : (t.store.flagsAt o).redundant = (s.store.flagsAt o).redundant := by
  have hflags := congrArg Flags.redundant (h.flags ho)
  refine Eq.trans hflags ?_
  unfold weigh
  split
  · rfl
  · split <;> rfl

theorem garbage : (t.store.flagsAt o).garbage = true ↔ (s.store.flagsAt o).garbage = true ∨ o ∈ marked := by
  have hflags := congrArg Flags.garbage (h.flags ho)
  have hflags : (t.store.flagsAt o).garbage = (s.weigh marked o).garbage := hflags
  rw [hflags, weigh]
  split
  · next hin => simp [hin]
  · next hin => split <;> simp [hin]

theorem residue (ha : Store.Alike s.store t.store) : t.residue .sparse o = s.residue .sparse o := by
  have hlits := ha.lits o ho
  obtain ⟨st, c, rfl⟩ := h.eq
  simp only [Solver.residue, hlits]

theorem survives (ha : Store.Alike s.store t.store) : t.survives .sparse o = true ↔
    s.IsReason o ∨ (s.store.flagsAt o).garbage = false ∧ o ∉ marked ∧
      ∀ l ∈ s.store.lits o, s.assignment.fixed l ≠ .tt := by
  have hassign : t.assignment = s.assignment := by
    obtain ⟨st, c, rfl⟩ := h.eq
    rfl
  have hgarbage : (t.store.flagsAt o).garbage = false ↔ (s.store.flagsAt o).garbage = false ∧ o ∉ marked := by
    rw [← Bool.not_eq_true, h.garbage ho, not_or, Bool.not_eq_true]
  simp only [Solver.survives, Bool.or_eq_true, decide_eq_true_eq, h.isReason, Bool.and_eq_true, Bool.not_eq_true',
    hgarbage, ha.lits o ho, hassign, List.any_eq_false, and_assoc]

end Marked

/-! ## After the collection -/

/-- The binary clause that is made of a clause, if two literals are left. -/
def pairFrom (s : Solver ε) (rest : Nat → List Literal) (o : Nat) : Option BinaryClause :=
  match rest o with
  | [a, b] => some (.ofPair a b (s.store.flagsAt o).redundant false)
  | _ => none

/-- In a store, the clause at the second offset is what a reduction leaves of the one at the first offset. -/
structure Remnant (s : Solver ε) (marked : List Nat) (rest : Nat → List Literal) (t : Store) (o o' : Nat) : Prop where
  /-- The glue is the same. -/
  glue : t.glueAt o' = s.store.glueAt o
  /-- The clause uses up its credit.  It may not be noted any more that it was shortened once. -/
  flags : { (t.flagsAt o').unpinned with shrunken := false } = { (s.weigh marked o).unpinned with shrunken := false }
  /-- The literals are those that are left. -/
  lits : (t.lits o').Perm (rest o)

/-- What a reduction makes of the clauses, where some are marked.  Those at `left` are left, with the literals
`rest`. -/
structure Thinned (s : Solver ε) (marked left : List Nat) (rest : Nat → List Literal) (s' : Solver ε) : Prop where
  /-- They are some of the clauses, in order. -/
  sublist : left.Sublist s.store.offsets
  /-- A clause that is lost was marked, or is no reason and was garbage or is satisfied at the root. -/
  lost : ∀ o ∈ s.store.offsets, o ∉ left → o ∈ marked ∨ ¬ s.IsReason o ∧
    ((s.store.flagsAt o).garbage = true ∨ ∃ l ∈ s.store.lits o, s.assignment.fixed l = .tt)
  /-- Clauses that are marked are gone, and so is all garbage from before that is no reason. -/
  gone : ∀ o ∈ left, o ∉ marked ∧ ((s.store.flagsAt o).garbage = true → s.IsReason o)
  /-- Only literals which are false at the root may be removed, and two are left or more. -/
  trims : ∀ o ∈ left, Trims s.assignment (s.store.lits o) (rest o) ∧ 2 ≤ (rest o).length
  /-- The store has a clause for each of which three literals or more are left, in order, and no others. -/
  large : List.Forall₂ (Remnant s marked rest s'.store) (left.filter fun o => 3 ≤ (rest o).length) s'.store.offsets
  /-- There is a new binary clause for each of which two are left.  Of the others those stay that are to. -/
  binary : s'.watches.binaries.Perm
    (s.watches.binaries.filter (s.keepsBinary .sparse) ++ left.filterMap (s.pairFrom rest))

/-- The clauses that a collection leaves: all before its start, and from there on those of which it leaves something. -/
def leaving (s t : Solver ε) (start : Nat) : List Nat :=
  s.store.offsets.filter fun o => o < start || t.survives .sparse o

/-- What is left of a clause: all of it before the start of a collection. -/
def leavings (s : Solver ε) (start o : Nat) : List Literal :=
  if o < start then s.store.lits o else s.residue .sparse o

theorem leavings_early {o : Nat} (hlt : o < start) : s.leavings start o = s.store.lits o := if_pos hlt

theorem leavings_late {o : Nat} (hle : start ≤ o) : s.leavings start o = s.residue .sparse o :=
  if_neg (Nat.not_lt.2 hle)

theorem mem_survivors {os : List Nat} {o : Nat} (ho : o ∈ t.survivors .sparse start os) :
    o ∈ os ∧ start ≤ o ∧ t.survives .sparse o = true := by
  obtain ⟨ho, hs⟩ := List.mem_filter.1 ho
  rw [Bool.and_eq_true, decide_eq_true_eq] at hs
  exact ⟨ho, hs⟩

section Early

variable (hc : s.store.Chain 0)
include hc

/-- The clauses before the start of a collection come before the others that it leaves. -/
theorem leaving_eq (hq : s.store.Stop start) :
    s.leaving t start = s.store.offsets.filter (· < start) ++ t.survivors .sparse start s.store.offsets := by
  rw [leaving, hq.filter_offsets hc]
  congr 1
  · refine List.filter_eq_self.2 fun o ho => ?_
    have hlt := (List.mem_filter.1 ho).2
    rw [hlt, Bool.true_or]
  · rw [survivors, List.filter_filter]
    refine List.filter_congr fun o ho => ?_
    by_cases hle : start ≤ o
    · simp [hle, Nat.not_lt.2 hle]
    · simp [hle]

/-- Each of them has three literals or more. -/
theorem three_le_leavings {o : Nat} (ho : o ∈ s.store.offsets.filter (· < start)) :
    3 ≤ (s.leavings start o).length := by
  obtain ⟨ho, hlt⟩ := List.mem_filter.1 ho
  rw [leavings_early (by simpa using hlt), Store.length_lits]
  exact (hc.mem ho).2.three

theorem filter_early : ((s.store.offsets.filter (· < start)).filter fun o => 3 ≤ (s.leavings start o).length) =
    s.store.offsets.filter (· < start) :=
  List.filter_eq_self.2 fun o ho => by simpa using three_le_leavings hc ho

theorem filterMap_early : (s.store.offsets.filter (· < start)).filterMap (s.pairFrom (s.leavings start)) = [] := by
  refine List.filterMap_eq_nil_iff.2 fun o ho => ?_
  have h3 := three_le_leavings hc ho
  unfold pairFrom
  split
  · next a b heq =>
    rw [heq] at h3
    simp at h3
  · rfl

end Early

section Thinned

variable (h : s.Marked marked t) (ha : Store.Alike s.store t.store)
include h ha

theorem leavings_eq {o : Nat} (ho : o ∈ t.survivors .sparse start s.store.offsets) :
    s.leavings start o = t.residue .sparse o := by
  obtain ⟨ho, hle, -⟩ := mem_survivors ho
  rw [leavings_late hle, h.residue ho ha]

/-- A clause that is not left was marked, or is no reason and was garbage or is satisfied at the root. -/
theorem lost_of_not_mem {o : Nat} (ho : o ∈ s.store.offsets) (hn : o ∉ s.leaving t start) : o ∈ marked ∨
    ¬ s.IsReason o ∧ ((s.store.flagsAt o).garbage = true ∨ ∃ l ∈ s.store.lits o, s.assignment.fixed l = .tt) := by
  have hs : ¬ (t.survives .sparse o = true) := fun hs => hn (List.mem_filter.2 ⟨ho, by simp [hs]⟩)
  rw [h.survives ho ha, not_or] at hs
  by_cases hin : o ∈ marked
  · exact .inl hin
  · refine .inr ⟨hs.1, ?_⟩
    by_contra hno
    rw [not_or, Bool.not_eq_true] at hno
    exact hs.2 ⟨hno.1, hin, fun l hl ht => hno.2 ⟨l, hl, ht⟩⟩

/-- If a collection misses no garbage, none is left but reasons. -/
theorem gone_of_mem {o : Nat} (hm : ∀ o ∈ marked, ¬ s.IsReason o)
    (hleast : ∀ o ∈ s.store.offsets, (s.store.flagsAt o).garbage = true ∨ o ∈ marked → start ≤ o)
    (hl : o ∈ s.leaving t start) : o ∉ marked ∧ ((s.store.flagsAt o).garbage = true → s.IsReason o) := by
  obtain ⟨ho, hl⟩ := List.mem_filter.1 hl
  rw [Bool.or_eq_true, decide_eq_true_eq, h.survives ho ha] at hl
  rcases hl with hlt | hr | ⟨hg, hin, -⟩
  · refine ⟨fun hin => ?_, fun hg => ?_⟩
    · exact absurd (hleast o ho (.inr hin)) (Nat.not_le.2 hlt)
    · exact absurd (hleast o ho (.inl hg)) (Nat.not_le.2 hlt)
  · exact ⟨fun hin => hm o hin hr, fun _ => hr⟩
  · exact ⟨hin, fun hg' => absurd (hg.symm.trans hg') Bool.false_ne_true⟩

variable (hacc : Accounted .sparse start t s')
include hacc

/-- What is left of a clause before the start of the collection is the clause. -/
theorem remnant_early {o : Nat} (ho : o ∈ s.store.offsets.filter (· < start)) :
    Remnant s marked (s.leavings start) s'.store o o := by
  obtain ⟨ho, hlt⟩ := List.mem_filter.1 ho
  have hlt : o < start := by simpa using hlt
  have hsame := hacc.early o (h.offsets.symm ▸ ho) hlt
  refine ⟨hsame.glue.trans (h.glue ho), ?_, ?_⟩
  · rw [hsame.flags, h.flags ho]
  · rw [leavings_early hlt, ← ha.lits o ho]
    exact hsame.perm

omit hacc in
/-- From there on it is what a collection leaves. -/
theorem remnant_late {o o' : Nat} (hle : start ≤ o) (hl : Leaves .sparse t s'.store o o') :
    Remnant s marked (s.leavings start) s'.store o o' := by
  have ho : o ∈ s.store.offsets := h.offsets ▸ hl.source
  refine ⟨hl.glue.trans (h.glue ho), ?_, ?_⟩
  · rw [hl.flags, h.flags ho]
  · rw [leavings_late hle, ← h.residue ho ha]
    exact hl.lits

variable (hc : s.store.Chain 0) (hq : s.store.Stop start)
include hc hq

theorem forall_remnant : List.Forall₂ (Remnant s marked (s.leavings start) s'.store)
    ((s.leaving t start).filter fun o => 3 ≤ (s.leavings start o).length) s'.store.offsets := by
  obtain ⟨moved, hoffsets, hmoved⟩ := hacc.large
  rw [h.offsets] at hoffsets hmoved
  have hlong : ((t.survivors .sparse start s.store.offsets).filter fun o => 3 ≤ (t.residue .sparse o).length) =
      (t.survivors .sparse start s.store.offsets).filter fun o => 3 ≤ (s.leavings start o).length :=
    List.filter_congr fun o ho => by rw [leavings_eq h ha ho]
  rw [hlong] at hmoved
  have hof : ∀ o ∈ (t.survivors .sparse start s.store.offsets).filter fun o => 3 ≤ (s.leavings start o).length,
      start ≤ o := fun o ho => (mem_survivors (List.mem_of_mem_filter ho)).2.1
  rw [leaving_eq hc hq, List.filter_append, filter_early hc, hoffsets]
  refine List.rel_append ?_ ?_
  · exact List.forall₂_same.2 fun o ho => remnant_early h ha hacc ho
  · exact ((List.forall₂_and_left _ _).2 ⟨hof, hmoved⟩).imp fun o o' hl => remnant_late h ha hl.1 hl.2

theorem binaries_thinned : s'.watches.binaries.Perm
    (s.watches.binaries.filter (s.keepsBinary .sparse) ++
      (s.leaving t start).filterMap (s.pairFrom (s.leavings start))) := by
  have hbinary := hacc.binary
  have hpairs : (t.survivors .sparse start s.store.offsets).filterMap (s.pairFrom (s.leavings start)) =
      (t.survivors .sparse start s.store.offsets).filterMap (t.pairOf? .sparse) := by
    refine List.filterMap_congr fun o ho => ?_
    unfold pairFrom
    rw [leavings_eq h ha ho, ← h.redundant (mem_survivors ho).1]
    rfl
  rw [h.offsets, h.keepsBinary] at hbinary
  rw [leaving_eq hc hq, List.filterMap_append, filterMap_early hc, hpairs, List.nil_append]
  exact hbinary

/-- A collection that misses no garbage thins the clauses. -/
theorem Marked.thinned (hm : ∀ o ∈ marked, ¬ s.IsReason o)
    (hleast : ∀ o ∈ s.store.offsets, (s.store.flagsAt o).garbage = true ∨ o ∈ marked → start ≤ o) :
    s.Thinned marked (s.leaving t start) (s.leavings start) s' where
  sublist := List.filter_sublist
  lost o ho hn := lost_of_not_mem h ha ho hn
  gone o hl := gone_of_mem h ha hm hleast hl
  trims o hl := by
    rw [leaving_eq hc hq, List.mem_append] at hl
    rcases hl with hl | hl
    · have h3 := three_le_leavings hc hl
      obtain ⟨-, hlt⟩ := List.mem_filter.1 hl
      rw [leavings_early (by simpa using hlt)] at h3 ⊢
      exact ⟨.refl _ _, by omega⟩
    · obtain ⟨ho, hle, hs⟩ := mem_survivors hl
      refine ⟨?_, ?_⟩
      · rw [leavings_late hle]
        exact .filter _ _
      · rw [leavings_eq h ha hl]
        exact hacc.enough o (h.offsets.symm ▸ ho) hs
  large := forall_remnant h ha hacc hc hq
  binary := binaries_thinned h ha hacc hc hq

end Thinned

/-! ## The whole reduction -/

/-- What is on the trail tells its level. -/
theorem level_unique {usable usable' : Nat → Prop} {tr : Trail} {a a' : Assignment} (h : tr.Matches usable a)
    (h' : tr.Matches usable' a') {l : Literal} (hl : l ∈ tr.literals) : a'.level l = a.level l := by
  obtain ⟨i, hi, rfl⟩ := Trail.exists_at' hl
  have hle := h.level_le hi
  have hle' := h'.level_le hi
  apply Nat.le_antisymm
  · have hstart := (h'.level_iff i hi _ (Nat.le_succ_of_le hle')).2 (Nat.le_refl _)
    exact (h.level_iff i hi _ (Nat.le_succ_of_le hle')).1 hstart
  · have hstart := (h.level_iff i hi _ (Nat.le_succ_of_le hle)).2 (Nat.le_refl _)
    exact (h'.level_iff i hi _ (Nat.le_succ_of_le hle)).1 hstart

/-- Something protects a clause: it is not redundant, or kept for its glue, or a reason, or was used lately. -/
def Protected (s : Solver ε) (o : Nat) : Prop :=
  (s.store.flagsAt o).redundant = false ∨ (s.store.flagsAt o).keep = true ∨ s.IsReason o ∨
    0 < (s.store.flagsAt o).used

/-- A clause that is protected is left, unless it is no reason and was garbage or is satisfied at the root. -/
theorem Thinned.protected {rest : Nat → List Literal} {o : Nat} (h : s.Thinned marked left rest s')
    (hm : ∀ o ∈ marked, o ∈ s.removable) (ho : o ∈ s.store.offsets) (hp : s.Protected o) : o ∈ left ∨
      ¬ s.IsReason o ∧ ((s.store.flagsAt o).garbage = true ∨ ∃ l ∈ s.store.lits o, s.assignment.fixed l = .tt) := by
  by_cases hl : o ∈ left
  · exact .inl hl
  rcases h.lost o ho hl with hin | hlost
  · obtain ⟨-, hr, hfree, hused⟩ := of_mem_removable (hm o hin)
    simp only [unprotected, Bool.and_eq_true, Bool.not_eq_true'] at hfree
    rcases hp with hredundant | hkeep | hreason | hcredit
    · exact absurd (hredundant.symm.trans hfree.1.1.1) Bool.false_ne_true
    · exact absurd (hfree.1.2.symm.trans hkeep) Bool.false_ne_true
    · exact absurd hreason hr
    · omega
  · exact .inr hlost

/-- What a reduction does. -/
structure Reduced (s : Solver ε) (marked : List Nat) (s' : Solver ε) : Prop where
  /-- Candidates were chosen, the worst ones first. -/
  chosen : s.Chosen marked
  /-- They are marked, other clauses use up credit, and a collection follows. -/
  collected : ∃ start t s₁, s.Marked marked t ∧ collect start .sparse t = .ok () s₁ ∧
    s' = { s₁ with limits.reduce := s₁.counters.conflicts + s₁.reduceDelta }
  /-- Of the clauses those that are protected are left, unless they are no reasons and were garbage or are satisfied at
  the root. -/
  thinned : ∃ left rest, s.Thinned marked left rest s' ∧ ∀ o ∈ s.store.offsets, s.Protected o → o ∈ left ∨
    ¬ s.IsReason o ∧ ((s.store.flagsAt o).garbage = true ∨ ∃ l ∈ s.store.lits o, s.assignment.fixed l = .tt)
  /-- The trail stays. -/
  trail : s'.trail = s.trail
  /-- No value has changed. -/
  val : s'.val = s.val
  /-- No level has changed. -/
  level : ∀ l ∈ s.trail.literals, s'.assignment.level l = s.assignment.level l

/-- The collection of what is marked, from the first garbage clause on. -/
theorem Chosen.ends_collect (hchosen : s.Chosen marked) (h : s.Marked marked t) (hw : Weeded s t)
    (hinv : s.Inv lags s.trail.size) (hfull : s.trail.propagated = s.trail.size) (hq : s.store.Stop start)
    (hleast : ∀ o ∈ s.store.offsets, (s.store.flagsAt o).garbage = true ∨ o ∈ marked → start ≤ o) :
    Ends (collect start .sparse) t (fun _ s₁ => s.Reduced marked
      { s₁ with limits.reduce := s₁.counters.conflicts + s₁.reduceDelta }) fun _ _ => False := by
  have hsame : t.trail = s.trail ∧ t.val = s.val := by
    obtain ⟨st, c, rfl⟩ := h.eq
    exact ⟨rfl, rfl⟩
  have hi : t.Inv lags t.trail.size := by
    rw [hsame.1]
    exact hw.inv hinv
  have hq' : t.store.Stop start := by
    rcases hq with h0 | hmem | he
    · exact .inl h0
    · exact .inr (.inl (hw.store.offsets.symm ▸ hmem))
    · exact .inr (.inr (he.trans hw.store.size.symm))
  have hcollectable := hi.collectable (by rw [hsame.1, hfull]) hq'
  obtain ⟨⟨⟩, s₁, hrun, hcollected⟩ :=
    (Solver.ends_collect hcollectable (fun _ => hi.watched) hi.toClean hi.stored).exists_ok
  have haccounted := (hcollectable.ends_accounted (fun _ => hi.watched) hi.toClean .sparse).of_ok hrun
  have hthinned := h.thinned hw.store haccounted hinv.store.chain hq
    (fun o ho => (of_mem_removable (hchosen.removable o ho)).2.1) hleast
  have hthinned' : s.Thinned marked (s.leaving t start) (s.leavings start)
      { s₁ with limits.reduce := s₁.counters.conflicts + s₁.reduceDelta } := { hthinned with }
  rw [ends_of_ok hrun]
  refine ⟨hchosen, ⟨start, t, s₁, h, hrun, rfl⟩,
    ⟨_, _, hthinned', fun o ho hp => hthinned'.protected hchosen.removable ho hp⟩, ?_, ?_, fun l hl => ?_⟩
  · exact hcollected.trimmed.trail.trans hsame.1
  · exact (hcollected.relocated hi.toFrame).val.trans hsame.2
  · have htrail := hcollected.trimmed.trail.trans hsame.1
    exact level_unique hinv.trail (htrail ▸ hcollected.inv.trail) hl

/-- A reduction, exactly. -/
theorem ends_reduce_exact (h : s.Inv lags s.trail.size) (hfull : s.trail.propagated = s.trail.size) :
    Ends reduce s (fun _ s' => ∃ marked, s.Reduced marked s') fun _ _ => False := by
  have h₀ : Inv lags (s.count fun c => { c with reductions := c.reductions + 1 }) s.trail.size :=
    { h with
      toFrame := { h.toFrame with }
      toWired := { h.toWired with }
      toClean := { h.toClean with } }
  have hc := h.store.chain
  have hchoose := (ends_choose h₀).and (ends_choose_surveyed h₀)
  unfold reduce
  simp only [ends_bind, ends_modify, ends_get, ends_pure] at hchoose ⊢
  refine hchoose.imp (fun _ s₁ h₁ => h₁.imp (fun x s₂ h₂ => h₂.imp (fun _ s₃ h₃ => ?_)
    fun _ _ hf => hf.1) fun _ _ hf => hf.1) fun _ _ hf => hf.1
  obtain ⟨⟨hw, hstart, hfound⟩, hsurvey⟩ := h₃
  have hsurvey : s.Surveyed x s₃ := by
    refine { hsurvey with eq := ?_ }
    obtain ⟨st, c, he⟩ := hsurvey.eq
    exact ⟨st, c, he⟩
  have htarget : s₃.reduceTarget = s.reduceTarget := by
    obtain ⟨st, c, rfl⟩ := hsurvey.eq
    rfl
  have hchosen := chosen_take hc hsurvey.found
  rw [htarget]
  generalize hcs : (x.2.mergeSort Candidate.worse).take (s.reduceTarget (x.2.mergeSort Candidate.worse).length) = cs
    at hchosen
  have hcur : ∀ c ∈ cs, s₃.store.Current c.reference ∧ (s₃.store.flagsAt c.reference.offset).redundant = true := by
    intro c hm
    rw [← hcs] at hm
    obtain ⟨hcur, hredundant⟩ := hfound c (List.mem_mergeSort.1 (List.mem_of_mem_take hm))
    exact ⟨hw.store.current hcur, (hw.flags _ hcur.2).1.trans hredundant⟩
  refine ((ends_markAll hw.store.chain hcur).and
    (ends_markAll_exact hw.store.chain (fun c hm => (hcur c hm).1) hchosen.nodup)).imp (fun start' s₄ h₄ => ?_)
    fun _ _ hf => hf.1
  obtain ⟨⟨hw', hstart'⟩, ⟨st, rfl, hrewritten⟩, hle, hleast⟩ := h₄
  have hmarked := marked_of_surveyed hsurvey h.unpinned hchosen.removable hrewritten
  have hw : Weeded s { s₃ with store := st } := by
    have hwhole := hw.trans hw'
    obtain ⟨st, q, c, he⟩ := hwhole.eq
    exact { hwhole with eq := ⟨st, q, c, he⟩ }
  have hq : s.store.Stop start' := by
    rcases hstart' with rfl | ⟨r, hr, rfl⟩
    · exact hstart.stop fun r hr => Store.mem_references.1 hr
    · obtain ⟨c, hm, rfl⟩ := List.mem_map.1 hr
      exact .inr (.inl (hsurvey.offsets ▸ (hcur c hm).1.2))
  refine (hchosen.ends_collect hmarked hw h hfull hq fun o ho hgone => ?_).imp (fun _ _ hs => ⟨_, hs⟩)
    fun _ _ hf => hf
  rcases hgone with hg | hin
  · exact Nat.le_trans hle (hsurvey.least o ho hg)
  · obtain ⟨c, hm, rfl⟩ := List.mem_map.1 hin
    exact hleast c hm

variable {C : Settings} {hooks : Hooks ε} {limits : Limits} {stopped : Bool} {outside : ε}

/-- After propagation came to its end, and as long as nothing was assigned since, a reduction may be made at any level.
It succeeds, and removes the worst candidates, as many as it is to, and no other clause but garbage and clauses that are
satisfied at the root. -/
theorem reduce_removes_worst (h : Reached C hooks limits stopped outside (.quiet, s)) :
    ∃ marked s', reduce s = .ok () s' ∧ s.Reduced marked s' := by
  obtain ⟨hinv, hfull⟩ := Reached.stands h
  obtain ⟨⟨⟩, s', hrun, marked, hreduced⟩ := (ends_reduce_exact hinv hfull).exists_ok
  exact ⟨marked, s', hrun, hreduced⟩

/-- Two clauses from outside have no credit, and three quarters of two are one.  The clause with the greater glue is
marked and gone; the other one stays, and so does the clause that was added. -/
theorem reduce_removes_worst_two : ∃ (s s' : Solver Unit) (left : List Nat) (rest : Nat → List Literal),
    Reached {} {} {} false () (.quiet, s) ∧ s.store.offsets = [0, 9, 18] ∧ s.removable = [9, 18] ∧
      s.store.glueAt 9 = 4 ∧ s.store.glueAt 18 = 3 ∧ reduce s = .ok () s' ∧ s.Reduced [9] s' ∧
      s.Thinned [9] left rest s' ∧ 0 ∈ left ∧ 9 ∉ left ∧ 18 ∈ left := by
  obtain ⟨s₀, s₁, ⟨⟩, s, h, hfirst, hsecond, htest⟩ := exists_called (fresh {} {} {} false ()) [.clause [1, 2, 3, 4, 5]]
    (importClause [1, 2, 3, -4, 5] 4) (importClause [1, 2, -3, 4, 5] 3)
    (fun s₀ s₁ s => s₀.inconsistent = false ∧ s₀.trail.level = 0 ∧ s₁.inconsistent = false ∧ s₁.trail.level = 0 ∧
      s.inconsistent = false ∧ s.trail.propagated = s.trail.size ∧ s.store.offsets = [0, 9, 18] ∧
      (∀ o ∈ s.store.offsets, ((s.store.forgetUses 9).forgetUses 18).flagsAt o = { s.store.flagsAt o with used := 0 }) ∧
      removable { s with store := (s.store.forgetUses 9).forgetUses 18 } = [9, 18] ∧
      ((s.store.forgetUses 9).forgetUses 18).glueAt 9 = 4 ∧ ((s.store.forgetUses 9).forgetUses 18).glueAt 18 = 3 ∧
      ((UInt64.ofNat 2).toFloat * s.settings.keep.reduceFraction.value).toUInt64.toNat = 1 ∧
      (s.store.flagsAt 0).redundant = false ∧ (∀ o ∈ s.store.offsets, (s.store.flagsAt o).garbage = false) ∧
      ∀ o ∈ s.store.offsets, ∀ l ∈ ((s.store.forgetUses 9).forgetUses 18).lits o, s.assignment.fixed l ≠ .tt)
    (by decide +kernel)
  obtain ⟨hi₀, h0, hi₁, h0', hi, hfull, hoffsets, hflags, hremovable, hglue, hglue', hfraction, hirredundant, hgarbage,
    hopen⟩ := of_decide_eq_true htest
  have hmoment : ∀ {S : Solver Unit}, S.inconsistent = false → S.moment = .underway := by
    intro S hS
    unfold moment
    rw [hS]
    rfl
  have hreached : Reached {} {} {} false () (.quiet, s) :=
    (hmoment hi ▸ (hmoment hi₁ ▸ (h.tail (.settle hi₀)).tail (.importClause h0 hfirst)).tail
      (.importClause h0' hsecond)).tail (.propagate (propagate_full hfull))
  have hc : s.store.Chain 0 := (Reached.stands hreached).1.store.chain
  have hfirst : Store.Alike s.store (s.store.forgetUses 9) := (Store.alike_setFlagsAt hc (by simp [hoffsets]) _).1
  have hsecond : Store.Alike (s.store.forgetUses 9) ((s.store.forgetUses 9).forgetUses 18) :=
    (Store.alike_setFlagsAt hfirst.chain (by simp [hfirst.offsets, hoffsets]) _).1
  have hmark : Reached {} {} {} false () (.quiet, { s with store := (s.store.forgetUses 9).forgetUses 18 }) :=
    hreached.tail (.mark (hfirst.trans hsecond) fun o ho => by rw [hflags o ho]; exact ⟨rfl, rfl⟩)
  have hplaces : ((s.store.forgetUses 9).forgetUses 18).offsets = [0, 9, 18] :=
    (hfirst.trans hsecond).offsets.trans hoffsets
  obtain ⟨marked, s', hrun, hreduced⟩ := reduce_removes_worst hmark
  -- one is marked, and not the better one
  obtain ⟨o, rfl⟩ : ∃ o, marked = [o] := by
    rw [← List.length_eq_one_iff, hreduced.chosen.length, hremovable]
    exact congrArg (min · 2) hfraction
  obtain rfl : o = 9 := by
    have hmem := hreduced.chosen.removable o (List.mem_singleton_self o)
    rw [hremovable, List.mem_pair] at hmem
    refine hmem.resolve_right fun heq => ?_
    subst heq
    have hworse := hreduced.chosen.worst 18 (List.mem_singleton_self _) 9 (by simp [hremovable]) (by decide)
    simp only [AsBad, hglue, hglue'] at hworse
    omega
  obtain ⟨left, rest, hthinned, hkept⟩ := hreduced.thinned
  have hstays : ∀ o ∈ s.store.offsets, ¬ ((((s.store.forgetUses 9).forgetUses 18).flagsAt o).garbage = true ∨
      ∃ l ∈ ((s.store.forgetUses 9).forgetUses 18).lits o, s.assignment.fixed l = .tt) := by
    rintro o ho (hg | ⟨l, hl, ht⟩)
    · rw [hflags o ho] at hg
      exact Bool.false_ne_true ((hgarbage o ho).symm.trans hg)
    · exact hopen o ho l hl ht
  refine ⟨_, s', left, rest, hmark, hplaces, hremovable, hglue, hglue', hrun, hreduced, hthinned, ?_,
    fun hin => (hthinned.gone 9 hin).1 (List.mem_singleton_self 9), ?_⟩
  · have hzero : 0 ∈ s.store.offsets := by simp [hoffsets]
    refine (hkept 0 (by simp [hplaces]) (.inl ?_)).resolve_right fun hlost => hstays 0 hzero hlost.2
    exact (congrArg Flags.redundant (hflags 0 hzero)).trans hirredundant
  · by_contra hout
    rcases hthinned.lost 18 (by simp [hplaces]) hout with hin | hlost
    · exact absurd hin (by decide)
    · exact hstays 18 (by simp [hoffsets]) hlost.2

end Solver

end ClauseLearning
