import ClauseLearning.Proofs.Pinning
import ClauseLearning.Proofs.Storing
import ClauseLearning.Proofs.Store.Sweep

/-!
# Reasons during a sweep

A clause that a sweep moves takes the literal whose reason it is along: the literal gets the new reference
as its reason, or the other literal of what has become a binary clause.  A literal whose clause was not
visited yet, or is not going to move, keeps the reference of the old epoch until it is carried over.

* `Assignment.Rehomed` — other reasons in the same assignment.
* `Remains` — the reason of a literal is what is left of a clause.
* `Solver.Rehomes` — what is so of reasons while clauses are gone through.
* `Rehomes.skip`, `Rehomes.append`, `Rehomes.rehome` — what a visit does to them.
-/

namespace ClauseLearning

/-! ## Other reasons -/

/-- Other reasons in the same assignment. -/
structure Assignment.Rehomed (a a' : Assignment) : Prop where
  /-- The values are the same. -/
  values : a'.values = a.values
  /-- There are as many records. -/
  size : a'.records.size = a.records.size
  /-- The records differ in the reasons only. -/
  record : ∀ v, ∃ reason, a'.record v = { a.record v with reason }

namespace Assignment.Rehomed

variable {a a' a'' : Assignment}

theorem refl (a : Assignment) : Rehomed a a := ⟨rfl, rfl, fun v => ⟨(a.record v).reason, rfl⟩⟩

theorem trans (h : Rehomed a a') (h' : Rehomed a' a'') : Rehomed a a'' := by
  refine ⟨h'.values.trans h.values, h'.size.trans h.size, fun v => ?_⟩
  obtain ⟨r, hr⟩ := h.record v
  obtain ⟨r', hr'⟩ := h'.record v
  exact ⟨r', by rw [hr', hr]⟩

theorem value_eq (h : Rehomed a a') : a'.value = a.value := by
  funext l
  simp only [Assignment.value, h.values]

theorem level_eq (h : Rehomed a a') : a'.level = a.level := by
  funext l
  obtain ⟨r, hr⟩ := h.record l.var
  simp only [Assignment.level, hr]

theorem fixed_eq (h : Rehomed a a') : a'.fixed = a.fixed := by
  funext l
  simp only [Assignment.fixed, h.value_eq, h.level_eq]

theorem sized {n : Nat} (h : Rehomed a a') (hs : a.Sized n) : a'.Sized n :=
  ⟨by rw [h.values, hs.values], by rw [h.size, hs.records], by rw [h.value_eq]; exact hs.opposite⟩

theorem guard {t : Trail} {p : Nat} {late : Prop} {x b y d : Literal} {c : List Literal}
    (h : Rehomed a a') (hg : Guard t a p late x b y d c) : Guard t a' p late x b y d c :=
  hg.imp (fun _ _ hf => ⟨hf, congrFun h.level_eq _⟩)
    (fun _ _ _ m _ _ => ⟨congrFun h.value_eq m, congrFun h.level_eq m⟩) id fun _ hm => hm

theorem watchable {late : Prop} {c : List Literal} (h : Rehomed a a') :
    a'.Watchable late c ↔ a.Watchable late c := by
  simp only [Watchable, Assignment.Meets, h.value_eq, h.level_eq, h.fixed_eq]

/-- The reason of a literal is replaced. -/
theorem setReason {n : Nat} (hs : a.Sized n) {l : Literal} (hl : l.var < n) (reason : Reason) :
    Rehomed a (a.setReason l reason) := by
  refine ⟨rfl, by simp [Assignment.setReason, Assignment.modify], fun v => ?_⟩
  rw [Assignment.setReason, record_modify hs hl]
  split
  · next he =>
    rw [he]
    exact ⟨reason, rfl⟩
  · exact ⟨(a.record v).reason, rfl⟩

end Assignment.Rehomed

theorem Assignment.reason_setReason {a : Assignment} {n : Nat} (hs : a.Sized n) {l : Literal}
    (hl : l.var < n) (reason : Reason) (m : Literal) :
    (a.setReason l reason).reason m = if m.var = l.var then reason else a.reason m := by
  rw [Assignment.setReason, Assignment.reason, record_modify hs hl]
  split <;> rfl

/-- The reason of a literal is what is left of a clause. -/
def Remains (a : Assignment) (c : List Literal) (t : Store) (l : Literal) : Reason → Prop
  | .large r => r.offset ∈ t.offsets ∧ Trims a c (t.lits r.offset)
  | .binary m => Trims a c [l, m]
  | _ => False

/-- What is left stays while clauses stay, but for the order of their literals. -/
theorem Remains.imp {a : Assignment} {c : List Literal} {t t' : Store} {l : Literal} {reason : Reason}
    (h : Remains a c t l reason) (ht : ∀ o ∈ t.offsets, o ∈ t'.offsets ∧ (t'.lits o).Perm (t.lits o)) :
    Remains a c t' l reason := by
  cases reason with
  | large r => exact ⟨(ht _ h.1).1, h.2.perm (ht _ h.1).2⟩
  | binary m => exact h
  | decision => exact h.elim
  | unit => exact h.elim

namespace Solver

variable {ε : Type} {S : Solver ε} {start o : Nat} {done : List Nat} {t t' : Store} {a : Assignment}

/-- Reasons while the clauses from a position on are gone through.  The literals whose reason was not moved
have the reason that they had before. -/
structure Rehomes (S : Solver ε) (start : Nat) (done : List Nat) (t : Store) (a : Assignment) : Prop where
  /-- Nothing but reasons has changed. -/
  rehomed : S.assignment.Rehomed a
  /-- A clause that was not moved is the reason as before. -/
  same : ∀ l ∈ S.trail.literals, ∀ r, S.assignment.reason l = .large r →
    (r.offset ∈ done → r.offset < start) → a.reason l = .large r
  /-- All other reasons are good in the new store. -/
  grounded : ∀ i < S.trail.size, (∀ r, S.assignment.reason (S.trail.at' i) = .large r →
    r.offset ∈ done ∧ start ≤ r.offset) → Grounded S.trail a t i
  /-- A binary clause which is a reason was one before, or it is left of a clause. -/
  reasons : ∀ l ∈ S.trail.literals, ∀ m, a.reason l = .binary m → S.assignment.reason l = .binary m ∨
    ∃ o ∈ S.store.offsets, Trims S.assignment (S.store.lits o) [l, m]
  /-- What is left of a clause which was gone through, or is not, is the reason in its place. -/
  remains : ∀ l ∈ S.trail.literals, ∀ r, S.assignment.reason l = .large r → r.offset ∈ done →
    Remains S.assignment (S.store.lits r.offset) t l (a.reason l)
  /-- Other reasons stay. -/
  others : ∀ l ∈ S.trail.literals, (∀ r, S.assignment.reason l ≠ .large r) →
    a.reason l = S.assignment.reason l
  /-- Pinned clauses are reasons. -/
  pinned : ∀ o ∈ t.offsets, (t.flagsAt o).reason = true → ∃ l ∈ S.trail.literals,
    a.reason l = .large ⟨o, t.epoch⟩ ∨ o < start ∧ a.reason l = .large ⟨o, S.store.epoch⟩

namespace Rehomes

section

variable (hg : ∀ i < S.trail.size, Grounded S.trail S.assignment S.store i)
include hg

/-- A clause which is a reason is there, and its first literal is the one that it is the reason of. -/
theorem large {l : Literal} {r : Reference} (hl : l ∈ S.trail.literals)
    (hr : S.assignment.reason l = .large r) :
    S.store.Current r ∧ S.IsReason r.offset ∧ ∃ rest, S.store.lits r.offset = l :: rest := by
  obtain ⟨i, hi, rfl⟩ := Trail.exists_at' hl
  obtain ⟨-, hcur, rest, hlits, -⟩ := (hg i hi).large hr
  refine ⟨hcur, ⟨_, hl, ?_⟩, rest, hlits⟩
  rw [hr, ← hcur.1]

/-- A clause which is no reason may be gone through. -/
theorem skip (h : Rehomes S start done t a) (hn : ¬ S.IsReason o) :
    Rehomes S start (done ++ [o]) t a := by
  have hne : ∀ l ∈ S.trail.literals, ∀ r, S.assignment.reason l = .large r → r.offset ≠ o := by
    rintro l hl r hr rfl
    exact hn (large hg hl hr).2.1
  have hdone : ∀ l ∈ S.trail.literals, ∀ r, S.assignment.reason l = .large r →
      r.offset ∈ done ++ [o] → r.offset ∈ done := fun l hl r hr hm =>
    (List.mem_append.1 hm).resolve_right fun hm => hne l hl r hr (List.mem_singleton.1 hm)
  refine { h with
    same := fun l hl r hr hd => h.same l hl r hr fun hm => hd (List.mem_append_left _ hm)
    grounded := fun i hi hd => h.grounded i hi fun r hr => ?_
    remains := fun l hl r hr hd => h.remains l hl r hr (hdone l hl r hr hd) }
  obtain ⟨hm, hle⟩ := hd r hr
  exact ⟨hdone _ (Trail.at'_mem hi) r hr hm, hle⟩

end

/-- A clause is added that is not pinned. -/
theorem append {ls : List Literal} {f : Flags} (h : Rehomes S start done t a)
    (hc : t.Chain 0) (ha : Store.Appended ls f t t') (hr : f.reason = false) :
    Rehomes S start done t' a :=
  { h with
    grounded := fun i hi hd => (h.grounded i hi hd).imp fun r rest _ hcur hlits =>
      ⟨ha.current hcur, rest, (ha.lits_old hc hcur.2).trans hlits, fun _ hm => hm⟩
    remains := fun l hl r hr hd => (h.remains l hl r hr hd).imp fun o ho =>
      ⟨ha.mem_offsets.2 (.inl ho), by rw [ha.lits_old hc ho]⟩
    pinned := fun o ho hp => by
      rcases ha.mem_offsets.1 ho with ho | rfl
      · rw [ha.flagsAt_old hc ho] at hp
        rw [ha.epoch]
        exact h.pinned o ho hp
      · rw [ha.flags] at hp
        exact absurd (hr.symm.trans hp) (by simp) }

section Rehome

variable {i : Nat} (hg : ∀ i < S.trail.size, Grounded S.trail S.assignment S.store i) (hi : i < S.trail.size)
  (hr : S.assignment.reason (S.trail.at' i) = .large ⟨o, S.store.epoch⟩)
include hg hi hr

/-- A clause is the reason of its first literal only. -/
theorem eq_of_reason {l : Literal} {r : Reference} (hl : l ∈ S.trail.literals) (hlr : S.assignment.reason l = .large r)
    (ho : r.offset = o) : l = S.trail.at' i := by
  obtain ⟨-, -, rest, hlits⟩ := large hg hl hlr
  obtain ⟨-, -, rest', hlits'⟩ := large hg (Trail.at'_mem hi) hr
  rw [ho, hlits', List.cons.injEq] at hlits
  exact hlits.1.symm

/-- A pinned clause is gone through, and the literal whose reason it is gets a new reason. -/
theorem rehome {reason : Reason} (h : Rehomes S start done t a) (hf : S.Frame) (he : t.epoch ≠ S.store.epoch)
    (he' : t'.epoch = t.epoch) (ho : start ≤ o) (hd : o ∉ done)
    (hst : ∀ r, t.Current r → t'.Current r ∧ t'.lits r.offset = t.lits r.offset)
    (hground : Grounded S.trail (a.setReason (S.trail.at' i) reason) t' i)
    (hleft : Remains S.assignment (S.store.lits o) t' (S.trail.at' i) reason)
    (hoff : o ∈ S.store.offsets)
    (hpin : ∀ o' ∈ t'.offsets, (t'.flagsAt o').reason = true →
      o' ∈ t.offsets ∧ (t.flagsAt o').reason = true ∨ reason = .large ⟨o', t.epoch⟩) :
    Rehomes S start (done ++ [o]) t' (a.setReason (S.trail.at' i) reason) := by
  have hmem := Trail.at'_mem hi
  have hs := h.rehomed.sized hf.sized
  have hvar : (S.trail.at' i).var < S.numbering.size := (hf.trail.usable _ hmem).1
  have hrehomed := Assignment.Rehomed.setReason hs hvar reason
  -- the variable of a literal on the trail is that of this one only if the literal is
  have hreason : ∀ l ∈ S.trail.literals, (a.setReason (S.trail.at' i) reason).reason l =
      if l = S.trail.at' i then reason else a.reason l := by
    intro l hl
    obtain ⟨j, hj, rfl⟩ := Trail.exists_at' hl
    have hiff : (S.trail.at' j).var = (S.trail.at' i).var ↔ S.trail.at' j = S.trail.at' i :=
      ⟨fun hv => by rw [hf.trail.at'_inj hj hi hv], congrArg Literal.var⟩
    rw [Assignment.reason_setReason hs hvar]
    simp only [hiff]
  have hold : a.reason (S.trail.at' i) = .large ⟨o, S.store.epoch⟩ :=
    h.same _ hmem _ hr fun hm => absurd hm hd
  have hdone : ∀ l ∈ S.trail.literals, l ≠ S.trail.at' i → ∀ r, S.assignment.reason l = .large r →
      r.offset ∈ done ++ [o] → r.offset ∈ done := fun l hl hne r hlr hm =>
    (List.mem_append.1 hm).resolve_right fun hm =>
      hne (eq_of_reason hg hi hr hl hlr (List.mem_singleton.1 hm))
  exact {
    rehomed := h.rehomed.trans hrehomed
    same := by
      intro l hl r hlr hdone
      rw [hreason l hl, if_neg]
      · exact h.same l hl r hlr fun hm => hdone (List.mem_append_left _ hm)
      · rintro rfl
        obtain rfl := Reason.large.inj (hr.symm.trans hlr)
        have hlt : o < start := hdone (List.mem_append_right _ (List.mem_cons_self ..))
        omega
    grounded := by
      intro j hj hd'
      have hmemj := Trail.at'_mem hj
      by_cases hji : S.trail.at' j = S.trail.at' i
      · rw [hf.trail.at'_inj hj hi (congrArg Literal.var hji)]
        exact hground
      · have hgj := h.grounded j hj fun r hjr => ⟨hdone _ hmemj hji r hjr (hd' r hjr).1, (hd' r hjr).2⟩
        refine (hgj.imp fun r rest _ hcur hlits => ?_).congr (by rw [hreason _ hmemj, if_neg hji])
          (by rw [hrehomed.level_eq])
        obtain ⟨hcur', hlits'⟩ := hst r hcur
        exact ⟨hcur', rest, hlits'.trans hlits, fun _ hm => hm⟩
    reasons := by
      intro l hl m hm
      rw [hreason l hl] at hm
      split at hm
      · next hli =>
        rw [hm] at hleft
        exact .inr ⟨o, hoff, hli ▸ hleft⟩
      · exact h.reasons l hl m hm
    remains := by
      intro l hl r hlr hm
      rw [hreason l hl]
      split
      · next hli =>
        rw [hli] at hlr ⊢
        obtain rfl := Reason.large.inj (hr.symm.trans hlr)
        exact hleft
      · next hli =>
        refine (h.remains l hl r hlr (hdone l hl hli r hlr hm)).imp fun o' ho' => ?_
        obtain ⟨hcur', hlits'⟩ := hst ⟨o', t.epoch⟩ ⟨rfl, ho'⟩
        exact ⟨hcur'.2, by rw [hlits']⟩
    others := by
      intro l hl hn
      rw [hreason l hl, if_neg]
      · exact h.others l hl hn
      · rintro rfl
        exact hn _ hr
    pinned := by
      intro o' ho' hp
      rw [he']
      rcases hpin o' ho' hp with ⟨hin, hp⟩ | hlarge
      · obtain ⟨l, hl, hlr⟩ := h.pinned o' hin hp
        refine ⟨l, hl, ?_⟩
        rw [hreason l hl, if_neg]
        · exact hlr
        · rintro rfl
          rw [hold] at hlr
          rcases hlr with hlr | ⟨hlt, hlr⟩
          · exact he (congrArg Reference.epoch (Reason.large.inj hlr)).symm
          · have hoo : o = o' := congrArg Reference.offset (Reason.large.inj hlr)
            omega
      · exact ⟨_, hmem, .inl (by rw [hreason _ hmem, if_pos rfl, hlarge])⟩ }

end Rehome

end Rehomes

end Solver

end ClauseLearning
