import ClauseLearning.Proofs.Analysis
import ClauseLearning.Proofs.Sweeping

/-!
# References and watches after a sweep

After a sweep the references to clauses that did not move are carried over, and all others are gone from the
watches.  The clauses from the position of the sweep on are then watched one by one, on their two best
literals.  A clause that is a reason keeps its first literal, since that is the only one that is not false.

* `Solver.Rewiring` — the invariant while clauses are watched afresh.
* `Solver.retag_eq`, `Solver.rewiring_carried` — references are carried over.
* `Solver.Reordered` — clauses with their literals in another order, and `Solver.Rewatched` some of them watched.
* `Solver.Rewiring.rewatch`, `Solver.ends_rewatch` — one clause is watched on its two best literals, and every clause.
-/

namespace ClauseLearning

namespace Solver

variable {ε : Type} {lags : Prop} {s S : Solver ε} {start o : Nat} {on : Nat → Prop}

/-- The clauses are wired, but only some clauses of the store are watched. -/
structure Rewiring (lags : Prop) (on : Nat → Prop) (s : Solver ε) : Prop where
  /-- The tables fit together. -/
  frame : s.Frame
  /-- The walk over the store is good. -/
  chain : s.store.Chain 0
  /-- Every clause is fit to be watched. -/
  fits : ∀ o ∈ s.store.offsets,
    Fits s.numbering.Usable s.assignment (lags ∧ (s.store.flagsAt o).redundant = true) (s.store.lits o)
  /-- The binary clauses have both their watches. -/
  paired : Watches.Paired s.numbering.Usable s.watches.view
  /-- Some clauses of the store have both their watches. -/
  watched : s.store.WatchedOn on s.watches.view
  /-- Every assigned literal has a reason. -/
  grounded : ∀ i < s.trail.size, Grounded s.trail s.assignment s.store i
  /-- A binary clause that is a reason is there. -/
  reasons : ∀ l ∈ s.trail.literals, ∀ o, s.assignment.reason l = .binary o →
    ∃ r y, .binary o r y ∈ s.watches.view l
  /-- The clauses that are watched are guarded. -/
  guarded : Guarded lags s.trail s.assignment s.store s.watches.view s.trail.size

/-! ## References -/

section Retag

variable {t : Store} {x : Assignment × Watches} {mode : CollectMode}

theorem view_map (w : Watches) (f : Watch → Watch) (l : Literal) :
    Watches.view ⟨w.lists.map fun list => list.map f⟩ l = (w.view l).map f := by
  simp only [Watches.view, Watches.of_eq, Array.getElem?_map]
  cases w.lists[l.code]? <;> simp

/-- The reason with the reference of the new epoch. -/
def carriedReason (t : Store.Relocation) : Reason → Reason
  | .large r => .large (carry t r)
  | reason => reason

theorem carry_eq (t : Store.Relocation) (r : Reference) :
    carry t r = if r.epoch = t.oldEpoch ∧ r.offset < t.start then { r with epoch := t.newEpoch } else r := by
  unfold carry Store.Relocation.retag
  split <;> rfl

theorem carryReason_eq (t : Store.Relocation) (r : Assigned) :
    carryReason t r = { r with reason := carriedReason t r.reason } := by
  obtain ⟨level, reason, analyzed, removable, poisoned⟩ := r
  cases reason <;> rfl

/-- The reasons of all literals above the root are carried over. -/
theorem rehomed_carry (t : Store.Relocation) (hne : t.newEpoch ≠ t.oldEpoch) (a : Assignment)
    (ls : List Literal) :
    a.Rehomed (ls.foldl (fun a l => a.modify l.var (carryReason t)) a) ∧
      ∀ l, (ls.foldl (fun a l => a.modify l.var (carryReason t)) a).reason l =
        if l.var ∈ ls.map Literal.var then carriedReason t (a.reason l) else a.reason l := by
  have hfold : ls.foldl (fun a l => a.modify l.var (carryReason t)) a =
      (ls.map Literal.var).foldl (fun a v => a.modify v (carryReason t)) a := by
    rw [List.foldl_map]
  obtain ⟨h1, h2, h3⟩ := a.record_foldl_modify (f := carryReason t) rfl (fun r => by
    simp only [carryReason_eq]
    cases r.reason with
    | large r =>
      simp only [carriedReason, carry_eq]
      by_cases hr : r.epoch = t.oldEpoch ∧ r.offset < t.start
      · simp [hr, hne]
      · simp [hr]
    | decision => rfl
    | unit => rfl
    | binary => rfl) (ls.map Literal.var)
  rw [hfold]
  refine ⟨⟨h1, h2, fun v => ?_⟩, fun l => ?_⟩
  · rw [h3]
    split
    · exact ⟨_, carryReason_eq t _⟩
    · exact ⟨(a.record v).reason, rfl⟩
  · simp only [Assignment.reason, h3]
    split
    · rw [carryReason_eq]
    · rfl

/-- Carrying over the reasons above the root carries over all of them, as no root literal has a clause of the store as
its reason. -/
theorem Sweeping.reason_carried (hS : S.Collectable lags start) (h : Sweeping lags S start S.store.offsets t x)
    {l : Literal} (hl : l ∈ S.trail.literals) (hroot : S.assignment.level l = 0) :
    x.1.reason l = carriedReason ⟨start, S.store.epoch, t.epoch⟩ (x.1.reason l) := by
  obtain ⟨i, hi, rfl⟩ := Trail.exists_at' hl
  cases hr : x.1.reason (S.trail.at' i) with
  | large r =>
    have hgr := h.rehomes.grounded i hi fun r hr => by
      have := ((hS.grounded i hi).large hr).1
      omega
    have hlevel := (hgr.large hr).1
    rw [h.rehomes.rehomed.level_eq] at hlevel
    omega
  | decision => rfl
  | unit => rfl
  | binary => rfl

/-- Where references are not carried over, there are none to carry: no clause of the store is watched, or none is
before the position. -/
theorem Sweeping.watch_carried (h : Sweeping lags S start S.store.offsets t x)
    (hm : mode = .dense → ∀ l, ∀ w ∈ S.watches.view l, w.isBinary = true) (hc : ¬ (mode = .sparse ∧ 0 < start))
    {l : Literal} {w : Watch} (hw : w ∈ x.2.view l) : carryWatch ⟨start, S.store.epoch, t.epoch⟩ w = w := by
  cases w with
  | binary => rfl
  | large b r =>
    cases mode with
    | dense =>
      have hlarge := congrArg (Watch.large b r ∈ ·) (h.gathers.larges l)
      have hw' : .large b r ∈ S.watches.view l := by
        simpa [List.mem_filter, Watch.isBinary, hw] using hlarge
      exact absurd (hm rfl l _ hw') (by simp [Watch.isBinary])
    | sparse =>
      have h0 : start = 0 := by
        have : ¬ 0 < start := fun hlt => hc ⟨rfl, hlt⟩
        omega
      simp [carryWatch, carry_eq, h0]

/-- The state after the references were carried over. -/
theorem retag_eq (hS : S.Collectable lags start) (h : Sweeping lags S start S.store.offsets t x)
    (hm : mode = .dense → ∀ l, ∀ w ∈ S.watches.view l, w.isBinary = true) :
    ∃ a w, retag ⟨start, S.store.epoch, t.epoch⟩ mode
        { S with store := t, assignment := x.1, watches := x.2 } =
        { S with store := t, assignment := a, watches := w } ∧
      S.assignment.Rehomed a ∧
      (∀ l ∈ S.trail.literals,
        a.reason l = carriedReason ⟨start, S.store.epoch, t.epoch⟩ (x.1.reason l)) ∧
      w.lists.size = x.2.lists.size ∧
      ∀ l, w.view l = (x.2.view l).map (carryWatch ⟨start, S.store.epoch, t.epoch⟩) := by
  have hne : t.epoch ≠ S.store.epoch := by
    rw [h.moves.epoch]
    exact Store.nextEpoch_ne _
  obtain ⟨h1, h2⟩ := rehomed_carry ⟨start, S.store.epoch, t.epoch⟩ hne x.1 (S.trail.above 0)
  have hreason : ∀ l ∈ S.trail.literals, ((S.trail.above 0).foldl
      (fun a l => a.modify l.var (carryReason ⟨start, S.store.epoch, t.epoch⟩)) x.1).reason l =
        carriedReason ⟨start, S.store.epoch, t.epoch⟩ (x.1.reason l) := fun l hl => by
    rw [h2]
    split
    · rfl
    · next hn =>
      have hlev : ¬ 1 ≤ S.assignment.level l := fun hlev =>
        hn (List.mem_map_of_mem (hS.frame.trail.mem_above.2 ⟨hl, hlev⟩))
      exact h.reason_carried hS hl (by omega)
  unfold retag
  by_cases hc : mode = .sparse ∧ 0 < start
  · simp only [if_pos hc]
    exact ⟨_, _, rfl, h.rehomes.rehomed.trans h1, hreason, by simp, fun l => view_map _ _ l⟩
  · simp only [if_neg hc]
    refine ⟨_, _, rfl, h.rehomes.rehomed.trans h1, hreason, rfl, fun l => ?_⟩
    rw [List.map_congr_left fun w hw => h.watch_carried hm hc hw, List.map_id']

section Carried

variable {a : Assignment} {w : Watches} {q : Nat} (hS : S.Collectable lags start)
  (h : Sweeping lags S start S.store.offsets t x) (ha : S.assignment.Rehomed a)
  (hr : ∀ l ∈ S.trail.literals,
    a.reason l = carriedReason ⟨start, S.store.epoch, t.epoch⟩ (x.1.reason l))
  (hview : ∀ l, w.view l = (x.2.view l).map (carryWatch ⟨start, S.store.epoch, t.epoch⟩))
include hS h ha hr hview

omit hS h ha hr in
theorem mem_binary_carried {l m : Literal} {r y : Bool} :
    .binary m r y ∈ w.view l ↔ .binary m r y ∈ x.2.view l := by
  rw [hview, List.mem_map]
  constructor
  · rintro ⟨u, hu, he⟩
    cases u with
    | binary => exact he ▸ hu
    | large => simp [carryWatch] at he
  · exact fun hm => ⟨_, hm, rfl⟩

omit hS h ha hr in
theorem filter_isBinary_carried (l : Literal) : (w.view l).filter Watch.isBinary = (x.2.view l).filter Watch.isBinary := by
  have hcarry : (Watch.isBinary ∘ carryWatch ⟨start, S.store.epoch, t.epoch⟩) = Watch.isBinary := by
    funext u
    cases u <;> rfl
  rw [hview, List.filter_map, hcarry]
  refine (List.map_congr_left fun u hu => ?_).trans (List.map_id _)
  cases u with
  | binary => rfl
  | large => simp [Watch.isBinary] at hu

omit hS ha hr in
/-- A watch on a clause of the store is one that was there, with the reference carried over. -/
theorem mem_large_carried (hq : q ≤ start) (hw : S.store.WatchedOn (· < q) S.watches.view) {l b : Literal}
    {r : Reference} (hm : .large b r ∈ w.view l) : ∃ r', .large b r' ∈ S.watches.view l ∧ S.store.Current r' ∧
      r'.offset < q ∧ r = ⟨r'.offset, t.epoch⟩ := by
  rw [hview, List.mem_map] at hm
  obtain ⟨u, hu, he⟩ := hm
  cases u with
  | binary => simp [carryWatch] at he
  | large b' r' =>
    obtain ⟨rfl, rfl⟩ := Watch.large.inj he
    have hu : .large b' r' ∈ S.watches.view l := by
      have := congrArg (Watch.large b' r' ∈ ·) (h.gathers.larges l)
      simpa [List.mem_filter, Watch.isBinary, hu] using this
    obtain ⟨h1, h2, -⟩ := (hw.mem_iff l r').1 (List.mem_filterMap.2 ⟨_, hu, rfl⟩)
    exact ⟨r', hu, h1, h2, by rw [carry_eq, if_pos ⟨h1.1, Nat.lt_of_lt_of_le h2 hq⟩]⟩

omit hS ha hr in
/-- The references to watched clauses are those from before, carried over. -/
theorem refs_carried (l : Literal) : (w.view l).filterMap Watch.ref? =
    ((S.watches.view l).filterMap Watch.ref?).map (carry ⟨start, S.store.epoch, t.epoch⟩) := by
  have hlarge : ∀ ws : List Watch,
      (ws.filter fun u => !u.isBinary).filterMap Watch.ref? = ws.filterMap Watch.ref? := fun ws => by
    rw [List.filterMap_filter]
    congr 1
    funext u
    cases u <;> rfl
  have hrefs : (x.2.view l).filterMap Watch.ref? = (S.watches.view l).filterMap Watch.ref? := by
    rw [← hlarge, h.gathers.larges, hlarge]
  rw [hview, ← hrefs, List.filterMap_map, List.map_filterMap]
  congr 1
  funext u
  cases u <;> rfl

omit hS h ha hr hview in
/-- A reference to a watched clause that did not move has the new epoch then. -/
theorem carry_watched (hq : q ≤ start) (hw : S.store.WatchedOn (· < q) S.watches.view) {l : Literal} {r : Reference}
    (hm : r ∈ (S.watches.view l).filterMap Watch.ref?) : r.offset ∈ S.store.offsets ∧ r.offset < q ∧
      carry ⟨start, S.store.epoch, t.epoch⟩ r = ⟨r.offset, t.epoch⟩ := by
  obtain ⟨h1, h2, -⟩ := (hw.mem_iff l r).1 hm
  refine ⟨h1.2, h2, ?_⟩
  rw [carry_eq, if_pos ⟨h1.1, Nat.lt_of_lt_of_le h2 hq⟩]

omit ha hr hview in
/-- The watched literals of a clause that did not move. -/
theorem watched_carried {o : Nat} (ho : o ∈ S.store.offsets) (hlt : o < start) :
    t.literalAt o 0 = S.store.literalAt o 0 ∧ t.literalAt o 1 = S.store.literalAt o 1 := by
  have h3 := (hS.chain.mem ho).2.three
  obtain ⟨-, -, -, hl⟩ := h.moves.early_same hS.chain hS.stop ho hlt
  exact ⟨hl 0 (by omega), hl 1 (by omega)⟩

omit ha hr in
/-- The clauses that did not move are watched as before. -/
theorem watchedOn_carried (hq : q ≤ start) (hw : S.store.WatchedOn (· < q) S.watches.view) :
    t.WatchedOn (· < q) w.view := by
  refine ⟨fun l => ?_, fun l r => ?_, fun l b r hm => ?_⟩
  · rw [refs_carried h hview]
    refine (hw.nodup l).map_on fun r hr' r' hr'' he => ?_
    obtain ⟨-, -, h1⟩ := carry_watched (t := t) hq hw hr'
    obtain ⟨-, -, h2⟩ := carry_watched (t := t) hq hw hr''
    rw [h1, h2] at he
    have hcur := ((hw.mem_iff l r).1 hr').1
    have hcur' := ((hw.mem_iff l r').1 hr'').1
    exact hcur'.ext hcur (Reference.mk.inj he).1
  · rw [refs_carried h hview, List.mem_map]
    constructor
    · rintro ⟨r', hr', rfl⟩
      obtain ⟨ho, hlt, he⟩ := carry_watched (t := t) hq hw hr'
      obtain ⟨h0, h1⟩ := watched_carried hS h ho (Nat.lt_of_lt_of_le hlt hq)
      rw [he]
      refine ⟨⟨rfl, (h.moves.early _ (Nat.lt_of_lt_of_le hlt hq)).2 ho⟩, hlt, ?_⟩
      simp only
      rw [h0, h1]
      exact ((hw.mem_iff l r').1 hr').2.2
    · rintro ⟨hcur, hlt, hl⟩
      have ho := (h.moves.early _ (Nat.lt_of_lt_of_le hlt hq)).1 hcur.2
      obtain ⟨h0, h1⟩ := watched_carried hS h ho (Nat.lt_of_lt_of_le hlt hq)
      rw [h0, h1] at hl
      have hm : (⟨r.offset, S.store.epoch⟩ : Reference) ∈ (S.watches.view l).filterMap Watch.ref? :=
        (hw.mem_iff l _).2 ⟨⟨rfl, ho⟩, hlt, hl⟩
      refine ⟨_, hm, ?_⟩
      rw [(carry_watched (t := t) hq hw hm).2.2, ← hcur.1]
  · obtain ⟨r', hm', hcur, hlt, rfl⟩ := mem_large_carried h hview hq hw hm
    simp only
    rw [(h.moves.early_same hS.chain hS.stop hcur.2 (Nat.lt_of_lt_of_le hlt hq)).2.1]
    exact hw.blocking l b r' hm'

omit hview in
/-- Every reason is good after references were carried over. -/
theorem grounded_carried {i : Nat} (hi : i < S.trail.size) : Grounded S.trail a t i := by
  have hne : t.epoch ≠ S.store.epoch := by
    rw [h.moves.epoch]
    exact Store.nextEpoch_ne _
  have hreason := hr _ (Trail.at'_mem hi)
  by_cases hmoved : ∀ r, S.assignment.reason (S.trail.at' i) = .large r → start ≤ r.offset
  · have hgr := h.rehomes.grounded i hi fun r hr' => ⟨((hS.grounded i hi).large hr').2.1.2, hmoved r hr'⟩
    refine hgr.congr ?_ (by rw [ha.level_eq, h.rehomes.rehomed.level_eq])
    rw [hreason]
    -- a reference of the new epoch is not carried over
    cases hx : x.1.reason (S.trail.at' i) with
    | large r =>
      have hcur := (hgr.large hx).2.1
      simp only [carriedReason, carry_eq]
      rw [if_neg]
      rintro ⟨he, -⟩
      exact hne (hcur.1.symm.trans he)
    | decision => rfl
    | unit => rfl
    | binary => rfl
  · simp only [not_forall, Nat.not_le] at hmoved
    obtain ⟨r, hr', hlt⟩ := hmoved
    obtain ⟨h1, hcur, rest, hlits, hrest⟩ := (hS.grounded i hi).large hr'
    have hx := h.rehomes.same _ (Trail.at'_mem hi) r hr' fun _ => hlt
    rw [hx] at hreason
    simp only [carriedReason, carry_eq, if_pos (show r.epoch = S.store.epoch ∧ r.offset < start from
      ⟨hcur.1, hlt⟩)] at hreason
    unfold Grounded
    rw [hreason]
    have hforced := (hS.grounded i hi).forced h1 (by simp [hr'])
    refine ⟨by rwa [Forced, ha.level_eq], ⟨rfl, (h.moves.early _ hlt).2 hcur.2⟩, rest, ?_, hrest⟩
    rw [(h.moves.early_same hS.chain hS.stop hcur.2 hlt).2.1, hlits]

omit hS h ha hview in
/-- A binary clause is a reason as before. -/
theorem reason_carried {l m : Literal} (hl : l ∈ S.trail.literals) (hm : a.reason l = .binary m) :
    x.1.reason l = .binary m := by
  have := (hr l hl).symm.trans hm
  cases hx : x.1.reason l with
  | binary => rwa [hx] at this
  | decision => simp [hx, carriedReason] at this
  | unit => simp [hx, carriedReason] at this
  | large => simp [hx, carriedReason] at this

omit ha hview in
/-- What is left of a clause that was a reason is one, and other reasons stay. -/
theorem remains_carried {l : Literal} (hl : l ∈ S.trail.literals) :
    (∀ r, S.assignment.reason l = .large r →
      Remains S.assignment (S.store.lits r.offset) t l (a.reason l)) ∧
    ((∀ r, S.assignment.reason l ≠ .large r) → a.reason l = S.assignment.reason l) := by
  rw [hr l hl]
  refine ⟨fun r hlr => ?_, fun hn => ?_⟩
  · have hx := h.rehomes.remains l hl r hlr (Rehomes.large hS.grounded hl hlr).1.2
    cases hxr : x.1.reason l with
    | large r' =>
      rw [hxr] at hx
      have hoff : (carry ⟨start, S.store.epoch, t.epoch⟩ r').offset = r'.offset := by
        rw [carry_eq]
        split <;> rfl
      simpa only [carriedReason, Remains, hoff] using hx
    | binary m => rwa [hxr] at hx
    | decision => rw [hxr] at hx; exact hx.elim
    | unit => rw [hxr] at hx; exact hx.elim
  · rw [h.rehomes.others l hl hn]
    cases hs : S.assignment.reason l with
    | large r => exact absurd hs (hn r)
    | binary => rfl
    | decision => rfl
    | unit => rfl

/-- What holds once references were carried over. -/
theorem rewiring_carried (hlists : w.lists.size = x.2.lists.size) (hq : q ≤ start)
    (hw : S.store.WatchedOn (· < q) S.watches.view) :
    Rewiring lags (· < q) { S with store := t, assignment := a, watches := w } where
  frame :=
    { hS.frame with
      sized := ha.sized hS.frame.sized
      lists := hlists.trans (h.gathers.lists.trans hS.frame.lists)
      trail := hS.frame.trail.congr (fun l => by rw [ha.value_eq]) fun l => by rw [ha.level_eq]
      covers := hS.frame.covers.mono fun v hv => ⟨hv.1, by
        have := hv.2
        simp only [Assignment.valueOf, ha.value_eq] at this
        exact this⟩ }
  chain := h.moves.chain
  fits o ho :=
    let hf := (h.moves.moved o ho).1
    ⟨hf.nodup, hf.usable, ha.watchable.2 hf.watchable⟩
  paired := h.gathers.paired.congr (filter_isBinary_carried hview)
  watched := watchedOn_carried hS h hview hq hw
  grounded i hi := grounded_carried hS h ha hr hi
  reasons l hl o ho := by
    obtain ⟨r, y, hm⟩ := h.stored l hl o (reason_carried hr hl ho)
    exact ⟨r, y, (mem_binary_carried hview).2 hm⟩
  guarded := by
    refine ⟨fun l m r y hm => ha.guard ?_, fun r l b m d hl hm hne => ha.guard ?_⟩
    · rcases h.gathers.binaries l m r y ((mem_binary_carried hview).1 hm) with hm | ⟨hf, -⟩
      · exact hS.binary l m r y hm
      · exact hf.watchable.guard_pair hS.frame.trail hS.frame.sized
    · obtain ⟨r', hl', hcur, hlt, rfl⟩ := mem_large_carried h hview hq hw hl
      obtain ⟨r'', hm', hcur', -, he⟩ := mem_large_carried h hview hq hw hm
      have hlt := Nat.lt_of_lt_of_le hlt hq
      obtain rfl := hcur'.ext hcur (Reference.mk.inj he).1
      obtain ⟨-, hlits, hflags, -⟩ := h.moves.early_same hS.chain hS.stop hcur.2 hlt
      simp only
      rw [hlits, hflags]
      exact hS.large r' l b m d hl' hm' hne hcur hlt

/-- What is known once references were carried over. -/
theorem refines_carried : Refines S { S with store := t, assignment := a, watches := w } := by
  have hf := hS.frame
  refine ⟨rfl, rfl, rfl, rfl, rfl, rfl, rfl, id, fun v hv => ?_, fun v hv => ?_⟩
  · have hfalse := hf.makesTrue_of_fixed hv.root
    refine ⟨hv.consistent, fun l hl h0 => ?_, fun o ho => ?_, fun l o r y hm => ?_,
      fun l hl o ho => ?_, hv.derived⟩
    · rw [ha.level_eq] at h0
      exact hv.root l hl h0
    · obtain ⟨-, o', ho', ht⟩ := h.moves.moved o ho
      exact (ht.satisfies hfalse).2 (hv.large o' ho')
    · exact h.gathers.satisfies hf hv ((mem_binary_carried hview).1 hm)
    · have hx := reason_carried hr hl ho
      rcases h.rehomes.reasons l hl o hx with hb | ⟨o', ho', ht⟩
      · exact hv.reasons l hl o hb
      · exact (ht.satisfies hfalse).2 (hv.large o' ho')
  · exact h.gathers.base hf (fun l hl h0 => hv.root l hl (by rwa [ha.level_eq])) hv.large
      fun l m y hm => hv.binary l m y ((mem_binary_carried hview).2 hm)

omit hS ha hview in
/-- A clause that is pinned is a reason. -/
theorem isReason_carried (ho : o ∈ t.offsets) (hp : (t.flagsAt o).reason = true) :
    IsReason { S with store := t, assignment := a, watches := w } o := by
  obtain ⟨l, hl, h'⟩ := h.rehomes.pinned o ho hp
  refine ⟨l, hl, ?_⟩
  simp only
  rw [hr l hl]
  have hne : t.epoch ≠ S.store.epoch := by
    rw [h.moves.epoch]
    exact Store.nextEpoch_ne _
  rcases h' with h' | ⟨hlt, h'⟩
  · simp [h', carriedReason, carry_eq, hne]
  · simp [h', carriedReason, carry_eq, hlt]

end Carried

end Retag

/-! ## Watches -/

/-- The literals of clauses are in another order, and nothing else of them has changed. -/
structure Reordered (st st' : Store) : Prop where
  /-- The clauses. -/
  offsets : st'.offsets = st.offsets
  /-- The epoch. -/
  epoch : st'.epoch = st.epoch
  /-- Their flags. -/
  flags : ∀ o ∈ st.offsets, st'.flagsAt o = st.flagsAt o
  /-- Their glue. -/
  glue : ∀ o ∈ st.offsets, st'.glueAt o = st.glueAt o
  /-- Their literals. -/
  perm : ∀ o ∈ st.offsets, (st'.lits o).Perm (st.lits o)

theorem Reordered.trans {st st' st'' : Store} (h : Reordered st st') (h' : Reordered st' st'') :
    Reordered st st'' where
  offsets := h'.offsets.trans h.offsets
  epoch := h'.epoch.trans h.epoch
  flags o ho := (h'.flags o (h.offsets ▸ ho)).trans (h.flags o ho)
  glue o ho := (h'.glue o (h.offsets ▸ ho)).trans (h.glue o ho)
  perm o ho := (h'.perm o (h.offsets ▸ ho)).trans (h.perm o ho)

/-- One clause is reordered. -/
theorem reordered_permuted {st st' : Store} (hc : st.Chain 0) (ho : o ∈ st.offsets)
    (hp : Store.Permuted o st st') : Reordered st st' where
  offsets := hp.offsets hc ho
  epoch := hp.epoch
  flags _ ho' := hp.flagsAt_eq hp.flags hc ho ho'
  glue o' ho' := by
    by_cases hne : o' = o
    · rw [hne, hp.glue]
    · exact hp.word_other hc ho ho' hne (Nat.le_succ o') (by simp only [Store.headerWords]; omega)
  perm o' ho' := by
    by_cases hne : o' = o
    · rw [hne]
      exact hp.perm
    · rw [hp.lits_other hc ho ho' hne]

/-- Some clauses are watched afresh.  Their literals are in another order, and binary clauses stay. -/
structure Rewatched (target : Nat → Prop) (s s' : Solver ε) : Prop where
  /-- Nothing else has changed. -/
  eq : ∃ store watches, s' = { s with store, watches }
  /-- The clauses. -/
  reordered : Reordered s.store s'.store
  /-- Other clauses are as they were. -/
  others : ∀ o ∈ s.store.offsets, ¬ target o → s'.store.recordAt o = s.store.recordAt o
  /-- There are as many lists. -/
  lists : s'.watches.lists.size = s.watches.lists.size
  /-- The watches of binary clauses. -/
  binary : ∀ l, (s'.watches.view l).filter Watch.isBinary = (s.watches.view l).filter Watch.isBinary

theorem Rewatched.refl (target : Nat → Prop) (s : Solver ε) : Rewatched target s s :=
  ⟨⟨_, _, rfl⟩, ⟨rfl, rfl, fun _ _ => rfl, fun _ _ => rfl, fun _ _ => .refl _⟩, fun _ _ _ => rfl, rfl, fun _ => rfl⟩

theorem Rewatched.trans {target target' : Nat → Prop} {s s' s'' : Solver ε} (h : Rewatched target s s')
    (h' : Rewatched target' s' s'') : Rewatched (fun o => target o ∨ target' o) s s'' := by
  obtain ⟨_, _, rfl⟩ := h.eq
  obtain ⟨_, _, rfl⟩ := h'.eq
  refine ⟨⟨_, _, rfl⟩, h.reordered.trans h'.reordered, fun o ho hn => ?_, h'.lists.trans h.lists,
    fun l => (h'.binary l).trans (h.binary l)⟩
  have ho' := h.reordered.offsets.symm ▸ ho
  exact (h'.others o ho' fun ht => hn (.inr ht)).trans (h.others o ho fun ht => hn (.inl ht))

theorem bestFrom_eq (s : Solver ε) (o best i n : Nat) :
    s.bestFrom o best i n =
      argMaxFrom (fun j => s.assignment.watchRank (s.store.literalAt o j)) best i n := by
  induction n generalizing best i with
  | zero => rfl
  | succ n ih => rw [bestFrom, argMaxFrom, ih]

/-- A best literal from a position on is moved to that position. -/
theorem moveBest_spec {i : Nat} (ho : s.store.HasAt o) (hi : i < s.store.sizeAt o) :
    ∃ st', moveBest o (s.store.sizeAt o) i s = { s with store := st' } ∧
      Store.Permuted o s.store st' ∧ (∀ j < i, st'.literalAt o j = s.store.literalAt o j) ∧
      (∀ j, i ≤ j → j < s.store.sizeAt o → s.assignment.watchRank (st'.literalAt o j) ≤
        s.assignment.watchRank (st'.literalAt o i)) ∧
      ((∀ j, i < j → j < s.store.sizeAt o → s.assignment.watchRank (s.store.literalAt o j) <
        s.assignment.watchRank (s.store.literalAt o i)) →
          st'.literalAt o i = s.store.literalAt o i) := by
  have hspec := argMaxFrom_spec (fun j => s.assignment.watchRank (s.store.literalAt o j)) i (i + 1)
    (s.store.sizeAt o - (i + 1))
  unfold moveBest
  rw [bestFrom_eq]
  generalize argMaxFrom (fun j => s.assignment.watchRank (s.store.literalAt o j)) i (i + 1)
    (s.store.sizeAt o - (i + 1)) = best at hspec
  obtain ⟨hrange, hbest, hall⟩ := hspec
  have hb : i ≤ best ∧ best < s.store.sizeAt o := by omega
  have hlit := fun k => Store.literalAt_swapAt (k := k) ho.fits hi hb.2
  refine ⟨_, rfl, Store.permuted_swapAt ho.fits hi hb.2, fun j hj => ?_, fun j hij hj => ?_, fun hs => ?_⟩
  · rw [hlit, if_neg (by omega), if_neg (by omega)]
  · rw [hlit i, if_pos rfl, hlit j]
    split
    · exact Nat.le_refl _
    · split
      · exact hbest
      · exact hall j (by omega) (by omega)
  · rw [hlit, if_pos rfl]
    by_cases he : best = i
    · rw [he]
    · have := hs best (by omega) hb.2
      omega

/-- The two best literals of a clause are moved to the front. -/
theorem moveBest_twice (h3 : 3 ≤ s.store.sizeAt o) (ho : s.store.HasAt o) :
    ∃ st', moveBest o (s.store.sizeAt o) 1 (moveBest o (s.store.sizeAt o) 0 s) = { s with store := st' } ∧
      Store.Permuted o s.store st' ∧
      (∀ m ∈ st'.lits o, s.assignment.watchRank m ≤ s.assignment.watchRank (st'.literalAt o 0)) ∧
      (∀ m ∈ st'.lits o, m ≠ st'.literalAt o 0 →
        s.assignment.watchRank m ≤ s.assignment.watchRank (st'.literalAt o 1)) ∧
      ((∀ j, 0 < j → j < s.store.sizeAt o → s.assignment.watchRank (s.store.literalAt o j) <
        s.assignment.watchRank (s.store.literalAt o 0)) →
          st'.literalAt o 0 = s.store.literalAt o 0) := by
  obtain ⟨st₁, he₁, hp₁, -, hmax₁, hfirst⟩ := moveBest_spec (i := 0) ho (by omega)
  have hsize : st₁.sizeAt o = s.store.sizeAt o := hp₁.sizeAt_self
  have ho₁ : st₁.HasAt o := by
    have hf := ho.fits
    refine ⟨?_, by rw [hsize]; exact h3, by rw [hsize, hp₁.size]; exact hf, ?_⟩
    · rw [hp₁.outside o (.inl (Nat.le_refl _))]
      exact ho.size
    · rw [hsize]
      exact (ho.next.beyond (Nat.le_refl _) hp₁.size fun i hi => hp₁.outside i (.inr hi)).1
  rw [he₁, ← hsize]
  obtain ⟨st₂, he₂, hp₂, hkeep, hmax₂, -⟩ :=
    moveBest_spec (s := { s with store := st₁ }) (i := 1) ho₁ (by simp only; omega)
  have h0 : st₂.literalAt o 0 = st₁.literalAt o 0 := hkeep 0 (by omega)
  have hsize₂ : st₂.sizeAt o = st₁.sizeAt o := hp₂.sizeAt_self
  refine ⟨st₂, he₂, hp₁.trans hp₂, fun m hm => ?_, fun m hm hne => ?_, fun hs => ?_⟩
  · have hm₁ : m ∈ st₁.lits o := hp₂.mem_lits.1 hm
    obtain ⟨j, hj, rfl⟩ := Store.mem_lits.1 hm₁
    rw [h0]
    exact hmax₁ j (Nat.zero_le _) (by omega)
  · obtain ⟨j, hj, rfl⟩ := Store.mem_lits.1 hm
    refine hmax₂ j ?_ (show j < st₁.sizeAt o by omega)
    rcases Nat.eq_zero_or_pos j with rfl | hpos
    · exact absurd rfl hne
    · exact hpos
  · rw [h0]
    exact hfirst (by rwa [hsize] at hs)

/-- A clause of which the literals are in another order is watched on the two that come first now. -/
theorem Frame.rewatched {st' : Store} (hf : s.Frame) (hc : s.store.Chain 0) (ho : o ∈ s.store.offsets)
    (hn : ((s.store.lits o).map Literal.var).Nodup) (hu : ∀ l ∈ s.store.lits o, s.numbering.Usable l.var)
    (hp : Store.Permuted o s.store st') :
    Rewatched (· = o) s { s with
      store := st'
      watches := s.watches.addLarge ⟨o, s.store.epoch⟩ (st'.literalAt o 0) (st'.literalAt o 1) } := by
  have h3 : 3 ≤ st'.sizeAt o := hp.sizeAt_self ▸ (hc.mem ho).2.three
  have hlits := Store.lits_eq_cons_cons (s := st') (o := o) (by omega)
  have hlt : ∀ {l}, l ∈ st'.lits o → l.code < s.watches.lists.size := by
    intro l hl
    exact hf.code_lt (hu l (hp.mem_lits.1 hl))
  have hne : st'.literalAt o 0 ≠ st'.literalAt o 1 := by
    intro he
    have hnodup := (hp.perm.map Literal.var).nodup_iff.2 hn
    rw [hlits] at hnodup
    simp [he] at hnodup
  have hview := Watches.view_addLarge (w := s.watches) ⟨o, s.store.epoch⟩
    (hlt (Store.literalAt_mem (i := 0) (by omega))) (hlt (Store.literalAt_mem (i := 1) (by omega))) hne
  exact ⟨⟨_, _, rfl⟩, reordered_permuted hc ho hp, fun o' ho' hother => hp.recordAt_other hc ho ho' hother,
    Watches.size_addLarge .., filter_isBinary_added hview⟩

/-- A clause that is a reason has its first literal alone on top. -/
theorem Rewiring.first_best (h : s.Rewiring lags on) {l : Literal} (hl : l ∈ s.trail.literals)
    (hr : s.assignment.reason l = .large ⟨o, s.store.epoch⟩) {j : Nat}
    (hj : 0 < j) (hj' : j < s.store.sizeAt o) :
    s.assignment.watchRank (s.store.literalAt o j) < s.assignment.watchRank (s.store.literalAt o 0) := by
  obtain ⟨i, hi, rfl⟩ := Trail.exists_at' hl
  obtain ⟨-, -, rest, hlits, hrest⟩ := (h.grounded i hi).large hr
  simp only at hlits
  have hlit : ∀ k < s.store.sizeAt o, (s.trail.at' i :: rest)[k]? = some (s.store.literalAt o k) :=
    fun k hk => by rw [← hlits, Store.getElem?_lits, if_pos hk]
  have h0 : s.store.literalAt o 0 = s.trail.at' i := by
    have := hlit 0 (by omega)
    simpa using this.symm
  have hm : s.store.literalAt o j ∈ rest := by
    have := hlit j hj'
    obtain ⟨j, rfl⟩ : ∃ k, j = k + 1 := ⟨j - 1, by omega⟩
    rw [List.getElem?_cons_succ] at this
    exact List.mem_of_getElem? this
  have hff := h.frame.val_ff.2 (Trail.mem_of_mem_upTo (hrest _ hm))
  have htt := h.frame.val_tt.2 (Trail.at'_mem hi)
  have h1 := Assignment.le_watchRank (a := s.assignment) (l := s.trail.at' i) (by
    rw [val] at htt
    rw [htt]
    simp)
  have h2 := h.frame.level_le_greatest (l := s.store.literalAt o j) (by rw [val] at hff; rw [hff]; decide)
  rw [Assignment.watchRank_of_ff hff, h0]
  omega

section Rewatch

variable {st' : Store} (h : s.Rewiring lags on) (ho : o ∈ s.store.offsets) (hp : Store.Permuted o s.store st')
include h ho hp

/-- Every clause is fit to be watched still. -/
theorem Rewiring.fits_permuted {o' : Nat} (ho' : o' ∈ s.store.offsets) : Fits s.numbering.Usable s.assignment
    (lags ∧ (st'.flagsAt o').redundant = true) (st'.lits o') := by
  rw [hp.flagsAt_eq hp.flags h.chain ho ho']
  by_cases he : o' = o
  · subst he
    exact (Trims.of_perm (a := s.assignment) hp.perm).fits (h.fits o' ho')
  · rw [hp.lits_other h.chain ho ho' he]
    exact h.fits o' ho'

/-- The two literals that come first, and the others. -/
theorem Rewiring.lits_permuted :
    st'.lits o = st'.literalAt o 0 :: st'.literalAt o 1 :: (st'.lits o).drop 2 ∧
      st'.literalAt o 0 ≠ st'.literalAt o 1 := by
  have h3 := (h.chain.mem ho).2.three
  have hsize := hp.sizeAt_self
  have hlits : st'.lits o = st'.literalAt o 0 :: st'.literalAt o 1 :: (st'.lits o).drop 2 :=
    Store.lits_eq_cons_cons (by omega)
  refine ⟨hlits, fun he => ?_⟩
  have hnodup := (h.fits_permuted ho hp ho).nodup
  rw [hlits] at hnodup
  simp [he] at hnodup

/-- The watches with those on the two literals that come first. -/
theorem Rewiring.view_rewatched (l : Literal) :
    (s.watches.addLarge ⟨o, s.store.epoch⟩ (st'.literalAt o 0) (st'.literalAt o 1)).view l =
      if l = st'.literalAt o 0 then s.watches.view l ++ [.large (st'.literalAt o 1) ⟨o, s.store.epoch⟩]
      else if l = st'.literalAt o 1 then s.watches.view l ++ [.large (st'.literalAt o 0) ⟨o, s.store.epoch⟩]
      else s.watches.view l := by
  have h3 := (h.chain.mem ho).2.three
  have hsize := hp.sizeAt_self
  have husable := (h.fits_permuted ho hp ho).usable
  exact Watches.view_addLarge _ (h.frame.code_lt (husable _ (Store.literalAt_mem (by omega))))
    (h.frame.code_lt (husable _ (Store.literalAt_mem (by omega)))) (h.lits_permuted ho hp).2 l

/-- A reason keeps its first literal if that is the best one. -/
theorem Rewiring.grounded_permuted
    (hfirst : (∀ j, 0 < j → j < s.store.sizeAt o → s.assignment.watchRank (s.store.literalAt o j) <
      s.assignment.watchRank (s.store.literalAt o 0)) → st'.literalAt o 0 = s.store.literalAt o 0)
    {i : Nat} (hi : i < s.trail.size) : Grounded s.trail s.assignment st' i := by
  have h3 := (h.chain.mem ho).2.three
  refine (h.grounded i hi).imp fun r rest hr hcur hl =>
    ⟨(Store.current_iff hp.epoch (hp.offsets h.chain ho) r).2 hcur, ?_⟩
  by_cases hro : r.offset = o
  · have hlarge : s.assignment.reason (s.trail.at' i) = .large ⟨o, s.store.epoch⟩ := by
      rw [hr, ← hro, ← hcur.1]
    have h0 := hfirst fun j hj hj' => h.first_best (Trail.at'_mem hi) hlarge hj hj'
    rw [hro] at hl ⊢
    have hl0 : s.store.literalAt o 0 = s.trail.at' i := by
      have := Store.getElem?_lits s.store o 0
      rw [hl, if_pos (by omega)] at this
      simpa using this.symm
    have hlits := (h.lits_permuted ho hp).1
    have hperm := hp.perm
    rw [hlits, hl, h0, hl0] at hperm
    exact ⟨_, hlits.trans (by rw [h0, hl0]), fun m hm => hperm.cons_inv.mem_iff.1 hm⟩
  · exact ⟨rest, by rw [hp.lits_other h.chain ho hcur.2 hro, hl], fun _ hm => hm⟩

variable (hn : ¬ on o)
include hn

/-- The clauses that are watched, and the one which is now. -/
theorem Rewiring.watched_rewatched : st'.WatchedOn (fun o' => on o' ∨ o' = o)
    (s.watches.addLarge ⟨o, s.store.epoch⟩ (st'.literalAt o 0) (st'.literalAt o 1)).view := by
  have hcur := Store.current_iff hp.epoch (hp.offsets h.chain ho)
  obtain ⟨hlits, hne⟩ := h.lits_permuted ho hp
  refine (h.watched.congr (fun r _ => hcur r) fun o' ho' hon => ?_).add
    ((hcur ⟨o, s.store.epoch⟩).2 ⟨rfl, ho⟩) hn hlits hne (h.view_rewatched ho hp)
  have hother : o' ≠ o := by
    rintro rfl
    exact hn hon
  have h3 := (h.chain.mem ho').2.three
  exact ⟨hp.lits_other h.chain ho ho' hother, hp.literalAt_other h.chain ho ho' hother (by omega),
    hp.literalAt_other h.chain ho ho' hother (by omega)⟩

/-- They are guarded, if the two literals guard the clause. -/
theorem Rewiring.guarded_rewatched
    (hguards : Guard s.trail s.assignment s.trail.size (lags ∧ (s.store.flagsAt o).redundant = true)
      (st'.literalAt o 0) (st'.literalAt o 1) (st'.literalAt o 1) (st'.literalAt o 0) (st'.lits o)) :
    Guarded lags s.trail s.assignment st'
      (s.watches.addLarge ⟨o, s.store.epoch⟩ (st'.literalAt o 0) (st'.literalAt o 1)).view s.trail.size := by
  have hmem : ∀ {l b r}, .large b r ∈ s.watches.view l → r.offset ∈ s.store.offsets ∧ r.offset ≠ o := by
    intro l b r hm
    obtain ⟨hcur, hon, -⟩ := (h.watched.mem_iff l r).1 (List.mem_filterMap.2 ⟨_, hm, rfl⟩)
    exact ⟨hcur.2, fun he => hn (he ▸ hon)⟩
  refine (h.guarded.of_store fun l b r hm => ?_).add (h.view_rewatched ho hp) (fun l b hm => (hmem hm).2 rfl) ?_
  · obtain ⟨hr, hne⟩ := hmem hm
    exact ⟨hp.lits_other h.chain ho hr hne, hp.flagsAt_other h.chain ho hr hne⟩
  · simp only
    rwa [hp.flags]

end Rewatch

/-- One clause is watched on its two best literals. -/
theorem Rewiring.rewatch (h : s.Rewiring lags on) (ho : o ∈ s.store.offsets) (hn : ¬ on o) :
    ∃ st' w, { moveBest o (s.store.sizeAt o) 1 (moveBest o (s.store.sizeAt o) 0 s) with
        watches := (moveBest o (s.store.sizeAt o) 1 (moveBest o (s.store.sizeAt o) 0 s)).watches.addLarge
          ⟨o, s.store.epoch⟩
          ((moveBest o (s.store.sizeAt o) 1 (moveBest o (s.store.sizeAt o) 0 s)).store.literalAt o 0)
          ((moveBest o (s.store.sizeAt o) 1 (moveBest o (s.store.sizeAt o) 0 s)).store.literalAt o 1) } =
        { s with store := st', watches := w } ∧
      Rewatched (· = o) s { s with store := st', watches := w } ∧
      Rewiring lags (fun o' => on o' ∨ o' = o) { s with store := st', watches := w } ∧
      Refines s { s with store := st', watches := w } := by
  have hc := h.chain
  have hat := (hc.mem ho).2
  obtain ⟨st', he, hp, hbest, hsecond, hfirst⟩ := moveBest_twice hat.three hat
  have hfit := h.fits_permuted ho hp ho
  rw [hp.flags] at hfit
  have hbin := filter_isBinary_added (h.view_rewatched ho hp)
  have hguards := Assignment.guards_of_best hfit.watchable (fun l hv => h.frame.level_le_greatest hv) hbest hsecond
  refine ⟨st', s.watches.addLarge ⟨o, s.store.epoch⟩ (st'.literalAt o 0) (st'.literalAt o 1), by rw [he],
    h.frame.rewatched hc ho (h.fits o ho).nodup (h.fits o ho).usable hp, ?_, refines_permute hc hp ho hbin⟩
  exact {
    frame := { h.frame with lists := by rw [Watches.size_addLarge, h.frame.lists] }
    chain := hp.chain hc ho
    fits := fun o' ho' => h.fits_permuted ho hp (hp.offsets hc ho ▸ ho')
    paired := h.paired.congr hbin
    watched := h.watched_rewatched ho hp hn
    grounded := fun i hi => h.grounded_permuted ho hp hfirst hi
    reasons := fun l hl m hm => by
      obtain ⟨r, y, hw⟩ := h.reasons l hl m hm
      exact ⟨r, y, (mem_of_isBinary (hbin l)).2 hw⟩
    guarded := h.guarded_rewatched ho hp hn (hguards.guard h.frame.trail h.frame.sized) }

/-- Clauses are watched one after another. -/
theorem ends_rewatchAll {rs : List Reference} (h : s.Rewiring lags on)
    (hr : ∀ r ∈ rs, s.store.Current r ∧ ¬ on r.offset) (hn : (rs.map Reference.offset).Nodup) :
    Ends (rewatchAll rs) s
      (fun _ s' => Rewatched (· ∈ rs.map Reference.offset) s s' ∧
        Rewiring lags (fun o => on o ∨ o ∈ rs.map Reference.offset) s' ∧ Refines s s')
      fun _ _ => False := by
  induction rs generalizing s on with
  | nil =>
    refine (ends_pure _).2 ⟨.refl _ s, ?_, .refl s⟩
    simpa using h
  | cons r rs ih =>
    obtain ⟨hcur, hnot⟩ := hr r (List.mem_cons_self ..)
    rw [List.map_cons, List.nodup_cons] at hn
    unfold rewatchAll
    simp only [ends_bind, ends_onStore, Store.ends_locate h.chain hcur, ends_modify]
    obtain ⟨st', w, he, hp, hw, href⟩ := h.rewatch hcur.2 hnot
    have hr' : (⟨r.offset, s.store.epoch⟩ : Reference) = r := by rw [← hcur.1]
    rw [hr'] at he
    rw [he]
    refine (ih hw (fun r' hm => ?_) hn.2).imp (fun _ s' hs' => ?_) fun _ _ hf => hf
    · obtain ⟨h1, h2⟩ := hr r' (List.mem_cons_of_mem _ hm)
      refine ⟨(Store.current_iff hp.reordered.epoch hp.reordered.offsets r').2 h1, ?_⟩
      rintro (h' | h')
      · exact h2 h'
      · exact hn.1 (h' ▸ List.mem_map_of_mem hm)
    · obtain ⟨hp', hw', href'⟩ := hs'
      refine ⟨?_, ?_, href.trans href'⟩
      · simpa only [List.map_cons, List.mem_cons] using hp.trans hp'
      have : (fun o => (on o ∨ o = r.offset) ∨ o ∈ rs.map Reference.offset) =
          fun o => on o ∨ o ∈ (r :: rs).map Reference.offset := by
        funext o
        simp [or_assoc]
      rwa [this] at hw'

/-- The clauses from a position on are watched. -/
theorem ends_rewatch (h : s.Rewiring lags (· < start)) (hq : s.store.Stop start) :
    Ends (Solver.rewatch start) s
      (fun _ s' => Rewatched (· ∈ s.store.offsetsFrom start) s s' ∧
        Rewiring lags (fun _ => True) s' ∧ Refines s s')
      fun _ _ => False := by
  have hc := h.chain
  have hmem := fun o => hq.mem_offsetsFrom hc (o := o)
  have hmap : (s.store.referencesFrom start).map Reference.offset = s.store.offsetsFrom start := by
    rw [Store.referencesFrom, List.map_map]
    exact List.map_id _
  unfold Solver.rewatch
  simp only [ends_bind, ends_get]
  refine (ends_rewatchAll h (fun r hr => ?_) (by rw [hmap]; exact (hq.chain hc).nodup)).imp
    (fun _ s' hs' => ?_) fun _ _ hf => hf
  · obtain ⟨o, ho, rfl⟩ := List.mem_map.1 hr
    obtain ⟨h1, h2⟩ := (hmem o).1 ho
    exact ⟨⟨rfl, h1⟩, Nat.not_lt.2 h2⟩
  · obtain ⟨hp, hw, href⟩ := hs'
    rw [hmap] at hp hw
    refine ⟨hp, ?_, href⟩
    have hon : ∀ o ∈ s'.store.offsets, o < start ∨ o ∈ s.store.offsetsFrom start := fun o ho => by
      rw [hmem]
      by_cases hlt : o < start
      · exact .inl hlt
      · exact .inr ⟨hp.reordered.offsets ▸ ho, Nat.not_lt.1 hlt⟩
    exact { hw with watched := (hw.watched.all hon).some fun _ _ => trivial }

end Solver

end ClauseLearning
