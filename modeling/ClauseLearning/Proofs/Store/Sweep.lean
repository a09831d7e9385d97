import ClauseLearning.Proofs.Store.InPlace

/-!
# Sweeps of the clause store

A sweep goes over the clauses from some position on, while the words before that position stay.  The walk
over a store splits at every clause into the walk over the words before it and the walk from there on, and a
sweep follows the second part clause by clause.

* `Store.cut` — the words before a position, with `Chain.split`.
* `Store.Seam` — no clause lies across a position.
* `Store.nextEpoch_ne` — references of the old epoch are stale after a sweep.
* `Store.Visits` — what a visit of a clause does, as far as a predicate goes.
* `Store.sweep_induct` — what every visit keeps is kept by a sweep.
-/

namespace ClauseLearning

namespace Store

variable {s : Store} {p q e : Nat}

/-! ## The words before a position -/

/-- The words before a position, in an epoch. -/
def cut (s : Store) (q e : Nat) : Store := { words := s.words.take q, epoch := e }

theorem size_cut (h : q ≤ s.words.size) (e : Nat) : (s.cut q e).words.size = q := by
  simp only [cut, Array.take_eq_extract, Array.size_extract]
  omega

theorem word_cut {i : Nat} (h : i < q) (e : Nat) : (s.cut q e).word i = s.word i := by
  simp only [word, cut, Array.getD_eq_getD_getElem?, Array.take_eq_extract, Array.getElem?_extract]
  by_cases hs : i < s.words.size
  · rw [if_pos (by omega), Nat.zero_add]
  · rw [if_neg (by omega), Array.getElem?_eq_none (by omega)]

/-- Where the walk does not lie across a position, it splits into the walk over the words before it and the
walk from there on. -/
theorem Chain.split (h : s.Chain p) (hpq : p ≤ q) (hq : q ≤ s.words.size)
    (hclear : ∀ o ∈ s.offsetsFrom p, o < q → o + headerWords + s.sizeAt o ≤ q) (e : Nat) :
    s.Chain q ∧ (s.cut q e).Chain p ∧
      s.offsetsFrom p = (s.cut q e).offsetsFrom p ++ s.offsetsFrom q := by
  have hsize := size_cut hq e
  have hstop : ∀ {p}, s.Chain p → p = q → s.Chain q ∧ (s.cut q e).Chain p ∧
      s.offsetsFrom p = (s.cut q e).offsetsFrom p ++ s.offsetsFrom q := by
    rintro p hp rfl
    have hend := Chain.done (s := s.cut p e)
    rw [hsize] at hend
    exact ⟨hp, hend, by rw [offsetsFrom_done (s := s.cut p e) (Nat.le_of_eq hsize), List.nil_append]⟩
  induction h with
  | done => exact hstop .done (Nat.le_antisymm hpq hq)
  | @gap p inside pad next ih =>
    by_cases hp : p = q
    · exact hstop (.gap inside pad next) hp
    · rw [offsetsFrom_gap inside pad] at hclear ⊢
      obtain ⟨hc, hcut, hoff⟩ := ih (by omega) hclear
      have hpad := (word_cut (s := s) (show p < q by omega) e).trans pad
      have hin : p < (s.cut q e).words.size := by omega
      exact ⟨hc, .gap hin hpad hcut, by rw [offsetsFrom_gap hin hpad, hoff]⟩
  | @clause p size three fits next ih =>
    by_cases hp : p = q
    · exact hstop (.clause size three fits next) hp
    · rw [offsetsFrom_clause (by omega) size] at hclear ⊢
      obtain ⟨hc, hcut, hoff⟩ := ih (hclear p (List.mem_cons_self ..) (by omega))
        fun o ho => hclear o (List.mem_cons_of_mem _ ho)
      have hw : (s.cut q e).word p = s.word p := word_cut (by omega) e
      have hat : (s.cut q e).sizeAt p = s.sizeAt p := hw
      have hin : p < (s.cut q e).words.size := by omega
      have hle := hclear p (List.mem_cons_self ..) (by omega)
      refine ⟨hc, .clause (by rw [hw]; exact size) (by rw [hat]; exact three) (by rw [hat, hsize]; exact hle)
        (by rw [hat]; exact hcut), ?_⟩
      rw [offsetsFrom_clause hin (by rw [hw]; exact size), hat, hoff]
      rfl

/-- A position that no clause lies across. -/
structure Seam (s : Store) (q : Nat) : Prop where
  /-- The position is not beyond the end. -/
  inside : q ≤ s.words.size
  /-- A clause that begins before the position ends before it. -/
  clear : ∀ o ∈ s.offsets, o < q → o + headerWords + s.sizeAt o ≤ q

instance (s : Store) (q : Nat) : Decidable (s.Seam q) :=
  decidable_of_iff (q ≤ s.words.size ∧ ∀ o ∈ s.offsets, o < q → o + headerWords + s.sizeAt o ≤ q)
    ⟨fun h => ⟨h.1, h.2⟩, fun h => ⟨h.inside, h.clear⟩⟩

section Seam

variable (h : s.Chain 0) (hq : s.Seam q)
include h hq

theorem Seam.chain : s.Chain q := (h.split (Nat.zero_le q) hq.inside hq.clear 0).1

theorem Seam.chain_cut (e : Nat) : (s.cut q e).Chain 0 := (h.split (Nat.zero_le q) hq.inside hq.clear e).2.1

theorem Seam.offsets (e : Nat) : s.offsets = (s.cut q e).offsets ++ s.offsetsFrom q :=
  (h.split (Nat.zero_le q) hq.inside hq.clear e).2.2

/-- A clause before the position ends before it. -/
theorem Seam.fits {o : Nat} (ho : o ∈ (s.cut q e).offsets) : o + headerWords + s.sizeAt o ≤ q := by
  have hlt := ((hq.chain_cut h e).mem ho).2.inside
  rw [size_cut hq.inside] at hlt
  exact hq.clear o (by rw [hq.offsets h e]; exact List.mem_append_left _ ho) hlt

/-- The walk from a position on comes across the clauses from there on. -/
theorem Seam.mem_offsetsFrom {o : Nat} : o ∈ s.offsetsFrom q ↔ o ∈ s.offsets ∧ q ≤ o := by
  rw [hq.offsets h 0, List.mem_append]
  constructor
  · exact fun ho => ⟨.inr ho, ((hq.chain h).mem ho).1⟩
  · rintro ⟨ho | ho, hle⟩
    · have := hq.fits h ho
      simp only [headerWords] at this
      omega
    · exact ho

/-- The walk over the words before a position comes across the clauses before it. -/
theorem Seam.mem_cut {o : Nat} : o ∈ (s.cut q e).offsets ↔ o ∈ s.offsets ∧ o < q := by
  constructor
  · intro ho
    have := hq.fits h ho
    simp only [headerWords] at this
    exact ⟨by rw [hq.offsets h e]; exact List.mem_append_left _ ho, by omega⟩
  · rintro ⟨ho, hlt⟩
    rw [hq.offsets h e, List.mem_append] at ho
    refine ho.resolve_right fun ho => ?_
    have := ((hq.chain h).mem ho).1
    omega

end Seam

/-- Where a walk may be split: at the beginning, at a clause, or at the end. -/
def Stop (s : Store) (q : Nat) : Prop := q = 0 ∨ q ∈ s.offsets ∨ q = s.words.size

/-- No clause lies across the beginning, the first word of a clause, or the end. -/
theorem Stop.seam (h : s.Chain 0) (hq : s.Stop q) : s.Seam q := by
  rcases hq with rfl | hq | rfl
  · exact ⟨Nat.zero_le _, fun o _ hlt => absurd hlt (Nat.not_lt_zero o)⟩
  · exact ⟨Nat.le_of_lt (h.mem hq).2.inside, fun o ho hlt => h.apart ho hq hlt⟩
  · exact ⟨Nat.le_refl _, fun o ho _ => (h.mem ho).2.fits⟩

section Stop

variable (h : s.Chain 0) (hq : s.Stop q)
include h hq

theorem Stop.le : q ≤ s.words.size := (hq.seam h).inside

theorem Stop.chain : s.Chain q := (hq.seam h).chain h

theorem Stop.chain_cut (e : Nat) : (s.cut q e).Chain 0 := (hq.seam h).chain_cut h e

theorem Stop.offsets (e : Nat) : s.offsets = (s.cut q e).offsets ++ s.offsetsFrom q :=
  (hq.seam h).offsets h e

/-- A clause before the position ends before it. -/
theorem Stop.fits {o : Nat} (ho : o ∈ (s.cut q e).offsets) : o + headerWords + s.sizeAt o ≤ q :=
  (hq.seam h).fits h ho

/-- The walk from a position on comes across the clauses from there on. -/
theorem Stop.mem_offsetsFrom {o : Nat} : o ∈ s.offsetsFrom q ↔ o ∈ s.offsets ∧ q ≤ o :=
  (hq.seam h).mem_offsetsFrom h

/-- The walk over the words before a position comes across the clauses before it. -/
theorem Stop.mem_cut {o : Nat} : o ∈ (s.cut q e).offsets ↔ o ∈ s.offsets ∧ o < q :=
  (hq.seam h).mem_cut h

end Stop

/-! ## Epochs -/

/-- The epoch after a sweep is another one. -/
theorem nextEpoch_ne (e : Nat) : nextEpoch e ≠ e := by
  simp only [nextEpoch, lowWord, greatestWord]
  omega

/-! ## The sweep -/

@[simp] theorem flags_settled (c : Record) : c.settled.flags = { c.flags with shrunken := false } := rfl

/-- What a visit of a clause does, as far as a predicate goes.  The predicate is about the clauses gone
through, the store as it is then, and what is handed on. -/
def Visits {σ : Type} (s : Store) (rule : SweepRule σ) (P : List Nat → Store → σ → Prop) (done : List Nat)
    (o : Nat) (t : Store) (x : σ) : Prop :=
  match rule x ⟨o, s.epoch⟩ ⟨t.words.size, nextEpoch s.epoch⟩ (s.recordAt o) with
  | (none, x') => P (done ++ [o]) t x'
  | (some c, x') => P (done ++ [o]) (t.append c.settled) x'

variable {σ : Type} {rule : SweepRule σ} {P Q : List Nat → Store → σ → Prop} {done all : List Nat}
  {kept : Array Nat} {x : σ}

theorem Visits.and {o : Nat} {t : Store} (hP : s.Visits rule P done o t x) (hQ : s.Visits rule Q done o t x) :
    s.Visits rule (fun done t x => P done t x ∧ Q done t x) done o t x := by
  unfold Visits at hP hQ ⊢
  split at hP
  · next hrule =>
    rw [hrule] at hQ
    exact ⟨hP, hQ⟩
  · next hrule =>
    rw [hrule] at hQ
    exact ⟨hP, hQ⟩

/-- What every visit keeps is kept by a sweep. -/
theorem sweepFrom_induct (hp : s.Chain p)
    (step : ∀ done o rest t x, all = done ++ o :: rest → o ∈ s.offsetsFrom p → P done t x →
      s.Visits rule P done o t x)
    (hall : all = done ++ s.offsetsFrom p)
    (h : P done { words := kept, epoch := nextEpoch s.epoch } x) :
    P all { words := (s.sweepFrom rule p kept x).1, epoch := nextEpoch s.epoch }
      (s.sweepFrom rule p kept x).2 := by
  induction hp generalizing done kept x with
  | done =>
    rw [offsetsFrom_done (Nat.le_refl _), List.append_nil] at hall
    rw [hall, sweepFrom, if_neg (Nat.lt_irrefl _)]
    exact h
  | gap inside pad _ ih =>
    rw [offsetsFrom_gap inside pad] at step hall
    rw [sweepFrom, if_pos inside, if_pos pad]
    exact ih step hall h
  | @clause p size three fits next ih =>
    rw [offsetsFrom_clause (by omega) size] at step hall
    rw [sweepFrom, if_pos (by omega), if_neg size]
    have hstep := step done p _ _ x hall (List.mem_cons_self ..) h
    have hnext : ∀ {kept x}, P (done ++ [p]) { words := kept, epoch := nextEpoch s.epoch } x →
        P all { words := (s.sweepFrom rule (p + headerWords + s.sizeAt p) kept x).1
                epoch := nextEpoch s.epoch }
          (s.sweepFrom rule (p + headerWords + s.sizeAt p) kept x).2 := fun h' =>
      ih (fun d o r t x hd ho => step d o r t x hd (List.mem_cons_of_mem _ ho))
        (by rw [hall, List.append_assoc]; rfl) h'
    simp only [Visits] at hstep ⊢
    split
    · next x' hrule =>
      rw [hrule] at hstep
      exact hnext hstep
    · next c x' hrule =>
      rw [hrule] at hstep
      exact hnext hstep

/-- What holds before a sweep and is kept by every visit holds after the sweep. -/
theorem sweep_induct (hrule : rule.Fits) (hc : s.Chain 0) (hq : s.Stop q)
    (step : ∀ done o t x, o ∈ s.offsets → q ≤ o → o ∉ done → P done t x → s.Visits rule P done o t x)
    (h : P (s.cut q (nextEpoch s.epoch)).offsets (s.cut q (nextEpoch s.epoch)) x) :
    ∃ t x' garbage, P s.offsets t x' ∧
      s.sweep q rule x = ({ t with garbage }, ⟨q, s.epoch, nextEpoch s.epoch⟩, x') := by
  have hmin : min q s.words.size = q := Nat.min_eq_left (hq.le hc)
  have hnodup : s.offsets.Nodup := hc.nodup
  have := sweepFrom_induct (hq.chain hc) (fun done o rest t x hd ho hP => by
    obtain ⟨ho, hle⟩ := (hq.mem_offsetsFrom hc).1 ho
    rw [hd] at hnodup
    have hnot : o ∉ done := fun hm =>
      (List.nodup_append.1 hnodup).2.2 o hm o (List.mem_cons_self ..) rfl
    exact step done o t x ho hle hnot hP) (hq.offsets hc (nextEpoch s.epoch)) h
  rw [sweep_eq_gather hrule (by rw [hmin]; exact hq.chain hc)]
  simp only [gather, hmin]
  exact ⟨_, _, _, this, rfl⟩

end Store

end ClauseLearning
