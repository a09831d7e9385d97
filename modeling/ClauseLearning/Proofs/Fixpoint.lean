import ClauseLearning.Proofs.Trial

/-!
# The watches after propagation

After propagation without a conflict, no clause is watched by two false literals.  This stays so while garbage is
collected, and when levels are taken back.

Propagation is complete for irredundant clauses: each that is not satisfied has two unassigned literals.  For learnt
clauses it is complete in prompt runs.  If going back stops above the jump level of a learnt clause, a conflict on a
level between the two may take back its first literal while all others stay false, and nothing propagates it again.

* `Solver.Stored` — the clauses that a solver stores.
* `Solver.Upkeep` — what may be done between two propagations without a decision.
* `Solver.watches_hold` — no clause is watched by two false literals.
* `Solver.Complete`, `Solver.propagation_complete` — how far propagation is complete.
-/

namespace ClauseLearning

namespace Solver

variable {ε : Type} {lags : Prop} {s s' : Solver ε} {c : List Literal} {redundant : Bool}

/-- A clause is in the store or among the watches. -/
inductive Stored (s : Solver ε) : List Literal → Bool → Prop
  /-- A clause in the store, garbage included. -/
  | large {r : Reference} : r ∈ s.store.references →
      Stored s (s.store.lits r.offset) (s.store.flagsAt r.offset).redundant
  /-- A binary clause. -/
  | binary {l o : Literal} {redundant hyper : Bool} : .binary o redundant hyper ∈ s.watches.view l →
      Stored s [l, o] redundant

/-- Two watched literals of a clause. -/
structure WatchedBy (lags : Prop) (s : Solver ε) (c : List Literal) (redundant : Bool) (x y : Literal) : Prop where
  /-- They are literals of the clause. -/
  mem : x ∈ c ∧ y ∈ c
  /-- They are different. -/
  ne : x ≠ y
  /-- They guard the clause, with literals of the clause as blocking literals. -/
  guard : ∃ b d, b ∈ c ∧ d ∈ c ∧ Guard s.trail s.assignment s.trail.size (lags ∧ redundant = true) x b y d c

theorem Inv.watchedBy_large {p : Nat} (h : s.Inv lags p) (hp : p = s.trail.size) {r : Reference}
    (hr : r ∈ s.store.references) :
    WatchedBy lags s (s.store.lits r.offset) (s.store.flagsAt r.offset).redundant
      (s.store.literalAt r.offset 0) (s.store.literalAt r.offset 1) := by
  subst hp
  have hcur := Store.mem_references.1 hr
  obtain ⟨b, d, hb, hd⟩ := h.watched.exists_pair hcur
  have h3 := (h.store.hasAt hcur.2).three
  have hne := h.store.literalAt_ne hcur.2
  exact ⟨⟨Store.literalAt_mem (by omega), Store.literalAt_mem (by omega)⟩, hne, b, d, h.watched.blocking _ b _ hb,
    h.watched.blocking _ d _ hd, h.guarded.large _ _ b _ d hb hd hne⟩

theorem Inv.watchedBy_binary {p : Nat} (h : s.Inv lags p) (hp : p = s.trail.size) {l o : Literal} {r y : Bool}
    (hm : .binary o r y ∈ s.watches.view l) : WatchedBy lags s [l, o] r l o := by
  subst hp
  have hu := h.paired.usable _ _ _ _ hm
  exact ⟨by simp, fun he => hu.2.2 (by rw [he]), o, l, by simp, by simp, h.guarded.binary _ _ _ _ hm⟩

/-- Every stored clause is watched by two of its literals. -/
theorem Inv.watchedBy (h : s.Inv lags s.trail.size) (hc : s.Stored c redundant) :
    ∃ x y, WatchedBy lags s c redundant x y := by
  cases hc with
  | large hr => exact ⟨_, _, h.watchedBy_large rfl hr⟩
  | binary hm => exact ⟨_, _, h.watchedBy_binary rfl hm⟩

namespace WatchedBy

variable {x y : Literal} (hw : WatchedBy lags s c redundant x y) (hf : s.Frame)
include hw hf

/-- One of two watched literals is not false. -/
theorem val_ne : s.val x ≠ .ff ∨ s.val y ≠ .ff := by
  obtain ⟨b, d, -, -, hg⟩ := hw.guard
  by_cases hx : s.val x = .ff
  · exact .inr (hg.value_ne hf.trail hf.sized hx)
  · exact .inl hx

/-- Unless the clause may be late, both are unassigned if it is not satisfied. -/
theorem unassigned (hn : ∀ l ∈ c, s.val l ≠ .tt) (hlate : ¬ (lags ∧ redundant = true)) :
    s.val x = .unassigned ∧ s.val y = .unassigned := by
  obtain ⟨b, d, hb, hd, hg⟩ := hw.guard
  -- a watched literal that is false shows that the clause is satisfied
  have hback : ∀ {u b w}, Backed s.trail s.assignment s.trail.size (lags ∧ redundant = true) u b w c →
      u ∈ c → b ∈ c → w ∈ c → s.val u = .unassigned := by
    intro u b w hback hu hb hw
    cases hv : s.val u with
    | tt => exact absurd hv (hn u hu)
    | unassigned => rfl
    | ff =>
      rcases hback ((fallen_size hf.trail hf.sized).2 hv) with ⟨z, hz, htt, -⟩ | ⟨hl, -⟩
      · simp only [List.mem_cons, List.not_mem_nil, or_false] at hz
        rcases hz with rfl | rfl
        · exact absurd htt (hn _ hb)
        · exact absurd htt (hn _ hw)
      · exact absurd hl hlate
  exact ⟨hback hg.left hw.mem.1 hb hw.mem.2, hback hg.right hw.mem.2 hd hw.mem.1⟩

end WatchedBy

/-! ## No clause is watched by two false literals -/

/-- What may be done after propagation without deciding anything. -/
inductive Upkeep : Solver ε → Solver ε → Prop
  /-- Learnt clauses are thrown away. -/
  | reduce {s s' : Solver ε} : reduce s = .ok () s' → Upkeep s s'
  /-- Clauses are simplified. -/
  | simplify {s s' : Solver ε} : simplify s = .ok () s' → Upkeep s s'
  /-- Garbage is collected from a clause on, or from the end of the store on. -/
  | collect {s s' : Solver ε} {start : Nat} : s.store.Stop start → collect start .sparse s = .ok () s' → Upkeep s s'
  /-- Garbage is collected at the root, and everything is watched afresh. -/
  | collectAll {s s' : Solver ε} : s.trail.level = 0 → Solver.collect 0 .dense s = .ok () s' → Upkeep s s'
  /-- All levels are taken back, and the mode is changed. -/
  | switchMode {s : Solver ε} : Upkeep s s.switchMode
  /-- All levels are taken back. -/
  | restart {s : Solver ε} : Upkeep s s.restart
  /-- Saved phases are reset. -/
  | rephase {s : Solver ε} : Upkeep s s.rephase.2

/-- Upkeep leaves everything propagated. -/
theorem Upkeep.quiet (h : Upkeep s s') (hq : s.Quiet lags) : s'.Quiet lags := by
  cases h with
  | reduce he => exact (((ends_reduce hq.inv hq.full).of_ok he).quiet hq).1
  | simplify he =>
    by_cases h0 : s.trail.level = 0
    · exact (((ends_simplify hq.inv hq.full h0 hq.consistent).of_ok he).quiet hq).1
    · have hthrow : Ends Solver.simplify s (fun _ _ => False) fun _ _ => True := by
        rw [Solver.simplify, ends_bind, ends_get, ends_ite]
        exact ⟨fun _ => trivial, fun hn => absurd h0 hn⟩
      exact (hthrow.of_ok he).elim
  | collect hstop he =>
    have hc := (ends_collect (hq.inv.collectable hq.full hstop) (fun _ => hq.inv.watched)
      hq.inv.toClean hq.inv.stored).of_ok he
    exact (hc.trimmed.quiet hq).1
  | collectAll h0 he =>
    have hc := (ends_collect (hq.inv.collectable hq.full (.inl rfl)) (fun hn => absurd rfl hn)
      hq.inv.toClean hq.inv.stored).of_ok he
    exact (hc.trimmed.quiet hq).1
  | switchMode => exact ((hq.inv.switchMode hq.full).quiet hq).1
  | restart => exact ((hq.inv.restart hq.full).quiet hq).1
  | rephase => exact (hq.aside (aside_rephase s)).1

/-- What holds of the watches after propagation: no clause is watched by two false literals, and no clause is false. -/
structure WatchesHold (s : Solver ε) : Prop where
  /-- One of the first two literals of a clause in the store is not false. -/
  large : ∀ r ∈ s.store.references,
    s.val (s.store.literalAt r.offset 0) ≠ .ff ∨ s.val (s.store.literalAt r.offset 1) ≠ .ff
  /-- One of the literals of a binary clause is not false. -/
  binary : ∀ l o r h, .binary o r h ∈ s.watches.view l → s.val l ≠ .ff ∨ s.val o ≠ .ff
  /-- No stored clause is false. -/
  stored : ∀ c r, s.Stored c r → ∃ l ∈ c, s.val l ≠ .ff

theorem Quiet.watchesHold (h : s.Quiet lags) : s.WatchesHold where
  large _ hr := (h.inv.watchedBy_large rfl hr).val_ne h.inv.toFrame
  binary _ _ _ _ hm := (h.inv.watchedBy_binary rfl hm).val_ne h.inv.toFrame
  stored c r hc := by
    obtain ⟨x, y, hw⟩ := h.inv.watchedBy hc
    rcases hw.val_ne h.inv.toFrame with hv | hv
    · exact ⟨x, hw.mem.1, hv⟩
    · exact ⟨y, hw.mem.2, hv⟩

variable {C : Settings} {hooks : Hooks ε} {limits : Limits} {stopped prompt : Bool} {outside : ε}
  {calls : List Call} {s₀ : Solver ε}

/-- After propagation without a conflict, and after any upkeep that follows, no clause is watched by two false
literals. -/
theorem watches_hold (hload : calls.forM Call.run (fresh C hooks limits stopped outside) = .ok () s₀)
    (hrun : Run false (.loaded, s₀) (.propagated, s)) (hkeep : Relation.ReflTransGen Upkeep s s') :
    s'.WatchesHold := by
  have hq : s.Quiet (false = false) := (hrun.at (loaded_run hload)).1
  suffices hq' : s'.Quiet (false = false) from hq'.watchesHold
  induction hkeep with
  | refl => exact hq
  | tail _ hstep ih => exact hstep.quiet ih

/-! ## Propagation is complete -/

/-- A clause is satisfied, or two of its literals are unassigned. -/
def Complete (s : Solver ε) (c : List Literal) : Prop :=
  (∃ l ∈ c, s.val l = .tt) ∨ 2 ≤ (c.filter fun l => s.val l = .unassigned).length

instance (s : Solver ε) (c : List Literal) : Decidable (s.Complete c) :=
  inferInstanceAs (Decidable (_ ∨ _))

theorem WatchedBy.complete {x y : Literal} (hw : WatchedBy lags s c redundant x y) (hf : s.Frame)
    (hlate : ¬ (lags ∧ redundant = true)) : s.Complete c := by
  by_cases hn : ∃ l ∈ c, s.val l = .tt
  · exact .inl hn
  · have hu := hw.unassigned hf (fun l hl ht => hn ⟨l, hl, ht⟩) hlate
    have hsub : [x, y] ⊆ c.filter fun l => s.val l = .unassigned := by
      simp [hw.mem, hu]
    exact .inr (List.Nodup.subperm (by simp [hw.ne]) hsub).length_le

/-- After propagation without a conflict, every irredundant clause is satisfied or has two unassigned literals.  In a
prompt run that holds of learnt clauses too.  In any case no stored clause is false. -/
theorem propagation_complete (hload : calls.forM Call.run (fresh C hooks limits stopped outside) = .ok () s₀)
    (hrun : Run prompt (.loaded, s₀) (.propagated, s)) (hc : s.Stored c redundant) :
    (redundant = false ∨ prompt = true → s.Complete c) ∧ ∃ l ∈ c, s.val l ≠ .ff := by
  have hq : s.Quiet (prompt = false) := (hrun.at (loaded_run hload)).1
  obtain ⟨x, y, hw⟩ := hq.inv.watchedBy hc
  refine ⟨fun hn => hw.complete hq.inv.toFrame fun hl => ?_, hq.watchesHold.stored c redundant hc⟩
  rcases hn with hr | hp
  · rw [hr] at hl
    simp at hl
  · rw [hp] at hl
    simp at hl

/-- Settings under which only the highest level is taken back if the jump level is any lower. -/
def chronological : Settings := { chronoLevels := .number 0 0 greatestWord }

/-- Four clauses on five variables.  Deciding 5, 4 and 3 leads to a conflict, from which it is learnt that 5 and 3
exclude one another.  The next conflict is between the levels of 5 and of 3. -/
def lateCalls : List Call :=
  [.clause [-5, -3, 1], .clause [-5, -3, -1], .clause [3, -4, 2], .clause [3, -4, -2]]

/-- A run on these clauses comes to where the learnt clause waits, next to the clauses that were added. -/
theorem late_run : ∃ s₀ s : Solver Unit,
    lateCalls.forM Call.run (fresh chronological {} {} false ()) = .ok () s₀ ∧
      Run false (.loaded, s₀) (.propagated, s) ∧
      (s.Stored [⟨5⟩, ⟨9⟩] true ∧ ¬ s.Complete [⟨5⟩, ⟨9⟩]) ∧ ∃ c, s.Stored c false := by
  obtain ⟨s₀, place, s, hload, hrun, htest⟩ := exists_trial (fresh chronological {} {} false ()) lateCalls 5
    (fun place s => place = .propagated ∧ (.binary ⟨9⟩ true false ∈ s.watches.view ⟨5⟩ ∧
      ¬ s.Complete [⟨5⟩, ⟨9⟩]) ∧ ∃ r ∈ s.store.references, (s.store.flagsAt r.offset).redundant = false)
    (by decide +kernel)
  obtain ⟨rfl, ⟨hm, hc⟩, r, hr, hflag⟩ := of_decide_eq_true htest
  have hlarge := Stored.large hr
  rw [hflag] at hlarge
  exact ⟨s₀, s, hload, hrun, ⟨.binary hm, hc⟩, _, hlarge⟩

/-- Going back one level at a time may leave a learnt clause with one unassigned literal, and all others false. -/
theorem propagation_incomplete : ∃ (s₀ s : Solver Unit) (c : List Literal),
    lateCalls.forM Call.run (fresh chronological {} {} false ()) = .ok () s₀ ∧
      Run false (.loaded, s₀) (.propagated, s) ∧ s.Stored c true ∧ ¬ s.Complete c := by
  obtain ⟨s₀, s, hload, hrun, ⟨hc, hn⟩, -⟩ := late_run
  exact ⟨s₀, s, _, hload, hrun, hc, hn⟩

/-- On the same run, the clauses that were added are complete. -/
theorem propagation_complete_late : ∃ (s₀ s : Solver Unit) (c : List Literal),
    lateCalls.forM Call.run (fresh chronological {} {} false ()) = .ok () s₀ ∧
      Run false (.loaded, s₀) (.propagated, s) ∧ s.Stored c false ∧ s.Complete c ∧ ∃ l ∈ c, s.val l ≠ .ff := by
  obtain ⟨s₀, s, hload, hrun, -, c, hc⟩ := late_run
  have h := propagation_complete hload hrun hc
  exact ⟨s₀, s, c, hload, hrun, hc, h.1 (.inl rfl), h.2⟩

/-- On the same run, the watches hold, and they still do after a restart. -/
theorem watches_hold_late : ∃ s₀ s : Solver Unit,
    lateCalls.forM Call.run (fresh chronological {} {} false ()) = .ok () s₀ ∧
      Run false (.loaded, s₀) (.propagated, s) ∧ Relation.ReflTransGen Upkeep s s.restart ∧ s.restart.WatchesHold := by
  obtain ⟨s₀, s, hload, hrun, -⟩ := late_run
  have hkeep : Relation.ReflTransGen Upkeep s s.restart := .single .restart
  exact ⟨s₀, s, hload, hrun, hkeep, watches_hold hload hrun hkeep⟩

end Solver

end ClauseLearning
