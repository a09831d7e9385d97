import ClauseLearning.Formula
import ClauseLearning.Proofs.Order.Orders
import ClauseLearning.Proofs.Store.Edit
import ClauseLearning.Proofs.Watches

/-!
# The invariant of a solver

What holds of a solver between any two procedures, in three parts: the tables fit together, the watches
are right, and no mark is left behind.  Beside it there is what the clauses of a solver mean.

A watched literal that became false and whose watches were gone through stays watched only if its clause is
satisfied anyway: its blocking literal or the other watched literal is true, on a level no higher, so that this
survives when levels are taken back.  A learnt clause is an exception where going back stopped above the level
on which it is a unit.  Then it may wait for its first literal, with all others false.  Since one of the two
blocking literals is always the other watched literal, two watched literals never are both false in the end.

* `Backed`, `Guard` — a clause with two watched literals, after so many literals of the trail were propagated.
* `Forced`, `Grounded` — the literal at a position of the trail is no decision, or has a reason for being there.
* `Store.Good`, `Store.Watched`, `Store.WatchedOn` — the clauses of the store and the watches on them.
* `Solver.Frame`, `Solver.Wired`, `Solver.Clean` — the parts of the invariant `Solver.Inv`.
* `Solver.Settled`, `Solver.Intact` — the invariant where there may have been a refutation, or wherever.
* `Solver.Holds`, `Solver.Base` — a valuation satisfies all that is known, or the part that is never dropped.
* `Solver.Aside` — a step that does not matter here.
* `Solver.Refines`, `Solver.Stores` — a step that loses nothing, and adds nothing, or one clause only, that
  does not follow.
-/

namespace ClauseLearning

/-- Whether a variable is known and not eliminated. -/
def Numbering.Usable (m : Numbering) (v : Nat) : Prop := v < m.size ∧ m.isEliminated v = false

/-! ## Guards -/

/-- Some literal of a clause is true, on a level that is at most `k`. -/
def Assignment.Meets (a : Assignment) (k : Nat) (c : List Literal) : Prop :=
  ∃ l ∈ c, a.value l = .tt ∧ a.level l ≤ k

/-- A literal became false, and this was propagated. -/
def Fallen (t : Trail) (p : Nat) (l : Literal) : Prop := -l ∈ t.upTo p

/-- The watch of a clause `c` by the literal `x`, with the blocking literal `b`, next to the other watched
literal `y`.  If `x` has fallen, then `b` or `y` is true on a level no higher.  Only a clause that may be `late`
may have waited for `y` since then: all its other literals are false on such levels, and above the root. -/
def Backed (t : Trail) (a : Assignment) (p : Nat) (late : Prop) (x b y : Literal) (c : List Literal) : Prop :=
  Fallen t p x → a.Meets (a.level x) [b, y] ∨
    late ∧ a.level x ≠ 0 ∧ ¬ Fallen t p y ∧ ∀ m ∈ c, m ≠ y → a.value m = .ff ∧ a.level m ≤ a.level x

/-- A clause with two watched literals `x` and `y`, whose watches have the blocking literals `b` and `d`. -/
structure Guard (t : Trail) (a : Assignment) (p : Nat) (late : Prop) (x b y d : Literal)
    (c : List Literal) : Prop where
  /-- One of the watches has the other watched literal as its blocking literal. -/
  crossed : b = y ∨ d = x
  /-- The watch of the one literal. -/
  left : Backed t a p late x b y c
  /-- The watch of the other one. -/
  right : Backed t a p late y d x c

section Guard

variable {t t' : Trail} {a a' : Assignment} {p p' : Nat} {x b y d m : Literal} {c c' : List Literal}
  {late late' : Prop}

theorem Assignment.Meets.mono {k k' : Nat} (h : a.Meets k c) (hk : k ≤ k') (hc : ∀ l ∈ c, l ∈ c') :
    a.Meets k' c' :=
  let ⟨l, hl, ht, hle⟩ := h
  ⟨l, hc l hl, ht, Nat.le_trans hle hk⟩

/-- A watch stays backed where what has fallen had fallen before, and what is assigned below it stays so. -/
theorem Backed.imp (h : Backed t a p late x b y c)
    (hx : Fallen t' p' x → Fallen t p x ∧ a'.level x = a.level x)
    (hy : Fallen t' p' x → Fallen t' p' y → Fallen t p y)
    (hkeep : Fallen t' p' x → ∀ m, a.value m ≠ .unassigned → a.level m ≤ a.level x →
      a'.value m = a.value m ∧ a'.level m = a.level m)
    (hlate : late → late') (hc : ∀ m ∈ c', m ∈ c) : Backed t' a' p' late' x b y c' := by
  intro hfall
  obtain ⟨hfx, hlx⟩ := hx hfall
  rw [hlx]
  rcases h hfx with ⟨m, hm, ht, hle⟩ | ⟨hl, h0, hny, hall⟩
  · obtain ⟨hv, hlm⟩ := hkeep hfall m (by rw [ht]; decide) hle
    exact .inl ⟨m, hm, hv.trans ht, hlm ▸ hle⟩
  · refine .inr ⟨hlate hl, h0, fun hfy => hny (hy hfall hfy), fun m hm hne => ?_⟩
    obtain ⟨hv, hle⟩ := hall m (hc m hm) hne
    obtain ⟨hv', hlm⟩ := hkeep hfall m (by rw [hv]; decide) hle
    exact ⟨hv'.trans hv, hlm ▸ hle⟩

/-- The watch of a literal that has not fallen is backed. -/
theorem Backed.of_not_fallen (h : ¬ Fallen t p x) : Backed t a p late x b y c := fun hf => absurd hf h

theorem Guard.symm (h : Guard t a p late x b y d c) : Guard t a p late y d x b c :=
  ⟨h.crossed.symm, h.right, h.left⟩

/-- A guard survives where what has fallen had fallen before, and what is assigned below it stays so. -/
theorem Guard.imp (h : Guard t a p late x b y d c)
    (hf : ∀ l, l = x ∨ l = y → Fallen t' p' l → Fallen t p l ∧ a'.level l = a.level l)
    (hkeep : ∀ l, l = x ∨ l = y → Fallen t' p' l → ∀ m, a.value m ≠ .unassigned →
      a.level m ≤ a.level l → a'.value m = a.value m ∧ a'.level m = a.level m)
    (hlate : late → late') (hc : ∀ m ∈ c', m ∈ c) : Guard t' a' p' late' x b y d c' :=
  ⟨h.crossed,
    h.left.imp (hf x (.inl rfl)) (fun _ hy => (hf y (.inr rfl) hy).1) (hkeep x (.inl rfl)) hlate hc,
    h.right.imp (hf y (.inr rfl)) (fun _ hx => (hf x (.inl rfl) hx).1) (hkeep y (.inr rfl)) hlate hc⟩

theorem Guard.of_mem (h : Guard t a p late x b y d c) (hc : ∀ l ∈ c', l ∈ c) :
    Guard t a p late x b y d c' :=
  h.imp (fun _ _ hf => ⟨hf, rfl⟩) (fun _ _ _ _ _ _ => ⟨rfl, rfl⟩) id hc

theorem Guard.mono (h : Guard t a p late x b y d c) (hlate : late → late') :
    Guard t a p late' x b y d c :=
  h.imp (fun _ _ hf => ⟨hf, rfl⟩) (fun _ _ _ _ _ _ => ⟨rfl, rfl⟩) hlate fun _ hm => hm

/-- A clause of which no watched literal has fallen is guarded. -/
theorem Guard.of_not_fallen (hx : ¬ Fallen t p x) (hy : ¬ Fallen t p y) (hc : b = y ∨ d = x) :
    Guard t a p late x b y d c :=
  ⟨hc, .of_not_fallen hx, .of_not_fallen hy⟩

/-- Nothing has fallen before the first literal was propagated. -/
theorem Guard.zero : Guard t a 0 late x y y x c :=
  .of_not_fallen (fun h => by simp [Fallen, Trail.upTo] at h) (fun h => by simp [Fallen, Trail.upTo] at h)
    (.inl rfl)

/-- Two watched literals never fall both. -/
theorem Guard.not_both (h : Guard t a p late x b y d c) (ht : ∀ m, a.value m = .tt → ¬ Fallen t p m)
    (hx : Fallen t p x) : ¬ Fallen t p y := by
  intro hy
  rcases h.crossed with rfl | rfl
  · rcases h.left hx with ⟨m, hm, htt, -⟩ | ⟨-, -, hn, -⟩
    · have hmb : m = b := by simpa using hm
      exact ht b (hmb ▸ htt) hy
    · exact hn hy
  · rcases h.right hy with ⟨m, hm, htt, -⟩ | ⟨-, -, hn, -⟩
    · have hmd : m = d := by simpa using hm
      exact ht d (hmd ▸ htt) hx
    · exact hn hx

/-- Where a clause may not be late, a watched literal falls only if the clause is satisfied. -/
theorem Guard.meets (h : Guard t a p late x b y d c) (hx : Fallen t p x) (hb : b ∈ c) (hy : y ∈ c)
    (hl : late → a.level x = 0) : a.Meets (a.level x) c := by
  rcases h.left hx with hm | ⟨hlate, h0, -⟩
  · exact hm.mono (Nat.le_refl _) (by simp [hb, hy])
  · exact absurd (hl hlate) h0

end Guard

/-- The literal at a position of the trail stands behind the decision of its level. -/
def Forced (t : Trail) (a : Assignment) (i : Nat) : Prop :=
  1 ≤ a.level (t.at' i) ∧ t.levelStart (a.level (t.at' i)) < i

/-- The literal at a position of the trail has a reason for being there.  The other literals of a clause
which is a reason became false before.  In a binary clause that is above the root, so that no such clause is ever
settled at the root. -/
def Grounded (t : Trail) (a : Assignment) (st : Store) (i : Nat) : Prop :=
  match a.reason (t.at' i) with
  | .decision => 1 ≤ a.level (t.at' i) ∧ t.levelStart (a.level (t.at' i)) = i
  | .unit => a.level (t.at' i) = 0
  | .binary o => Forced t a i ∧ -o ∈ t.upTo i ∧ 1 ≤ a.level o
  | .large r => Forced t a i ∧ st.Current r ∧
      ∃ rest, st.lits r.offset = t.at' i :: rest ∧ ∀ m ∈ rest, -m ∈ t.upTo i

namespace Grounded

variable {t : Trail} {a : Assignment} {st : Store} {i : Nat} (h : Grounded t a st i)
include h

theorem decision (hr : a.reason (t.at' i) = .decision) :
    1 ≤ a.level (t.at' i) ∧ t.levelStart (a.level (t.at' i)) = i := by
  unfold Grounded at h
  rwa [hr] at h

theorem unit (hr : a.reason (t.at' i) = .unit) : a.level (t.at' i) = 0 := by
  unfold Grounded at h
  rwa [hr] at h

theorem binary {o : Literal} (hr : a.reason (t.at' i) = .binary o) :
    1 ≤ a.level (t.at' i) ∧ -o ∈ t.upTo i ∧ 1 ≤ a.level o := by
  unfold Grounded at h
  rw [hr] at h
  exact ⟨h.1.1, h.2⟩

theorem large {r : Reference} (hr : a.reason (t.at' i) = .large r) :
    1 ≤ a.level (t.at' i) ∧ st.Current r ∧
      ∃ rest, st.lits r.offset = t.at' i :: rest ∧ ∀ m ∈ rest, -m ∈ t.upTo i := by
  unfold Grounded at h
  rw [hr] at h
  exact ⟨h.1.1, h.2⟩

/-- Above the root, what is no decision stands behind one. -/
theorem forced (hl : 1 ≤ a.level (t.at' i)) (hr : a.reason (t.at' i) ≠ .decision) : Forced t a i := by
  unfold Grounded at h
  split at h <;> rename_i he
  · exact absurd he hr
  · omega
  · exact h.1
  · exact h.1

/-- At the root a literal is there as a unit. -/
theorem unit_of_root (h0 : a.level (t.at' i) = 0) : a.reason (t.at' i) = .unit := by
  cases hr : a.reason (t.at' i) with
  | unit => rfl
  | decision =>
    have hpos := (h.decision hr).1
    omega
  | binary o =>
    have hpos := (h.binary hr).1
    omega
  | large r =>
    have hpos := (h.large hr).1
    omega

/-- Where reasons and levels stay, so does the reason for being there. -/
theorem congr {a' : Assignment} (hr : a'.reason (t.at' i) = a.reason (t.at' i))
    (hl : a'.level = a.level) : Grounded t a' st i := by
  unfold Grounded Forced at *
  rwa [hr, hl]

/-- The clause which is the reason may change as long as it keeps its first literal and gets no other. -/
theorem imp {st' : Store} (hst : ∀ r rest, a.reason (t.at' i) = .large r → st.Current r →
      st.lits r.offset = t.at' i :: rest →
        st'.Current r ∧ ∃ rest', st'.lits r.offset = t.at' i :: rest' ∧ ∀ m ∈ rest', m ∈ rest) :
    Grounded t a st' i := by
  unfold Grounded at *
  split <;> rename_i he <;> rw [he] at h
  · exact h
  · exact h
  · exact h
  · obtain ⟨h1, hcur, rest, hlits, hrest⟩ := h
    obtain ⟨hcur', rest', hlits', hsub⟩ := hst _ rest he hcur hlits
    exact ⟨h1, hcur', rest', hlits', fun m hm => hrest m (hsub m hm)⟩

/-- In a store with the same clauses the reason stays. -/
theorem alike {st' : Store} (ha : Store.Alike st st') : Grounded t a st' i :=
  h.imp fun _ rest _ hcur hlits => ⟨ha.current hcur, rest, (ha.lits _ hcur.2).trans hlits, fun _ hm => hm⟩

end Grounded

/-- Where nothing is decided, every literal is there as a unit. -/
theorem Trail.Matches.reason_unit {usable : Nat → Prop} {t : Trail} {a : Assignment} {st : Store} {l : Literal}
    (h : t.Matches usable a) (hg : ∀ i < t.size, Grounded t a st i) (h0 : t.level = 0) (hl : l ∈ t.literals) :
    a.reason l = .unit := by
  obtain ⟨i, hi, rfl⟩ := Trail.exists_at' hl
  have hle := h.level_le hi
  exact (hg i hi).unit_of_root (by omega)

/-! ## The store and the watches -/

namespace Store

/-- The walk over a store is good, and each clause is on different variables which are usable. -/
structure Good (usable : Nat → Prop) (s : Store) : Prop where
  /-- The walk is good. -/
  chain : s.Chain 0
  /-- No variable is twice in a clause. -/
  nodup : ∀ o ∈ s.offsets, ((s.lits o).map Literal.var).Nodup
  /-- Every variable is usable. -/
  usable : ∀ o ∈ s.offsets, ∀ l ∈ s.lits o, usable l.var

/-- Each clause of a store is watched by its first two literals, and nothing else is watched. -/
structure Watched (s : Store) (view : Literal → List Watch) : Prop where
  /-- No clause is watched twice by one literal. -/
  nodup : ∀ l, ((view l).filterMap Watch.ref?).Nodup
  /-- What is watched. -/
  mem_iff : ∀ l r, r ∈ (view l).filterMap Watch.ref? ↔
    s.Current r ∧ (s.literalAt r.offset 0 = l ∨ s.literalAt r.offset 1 = l)
  /-- A blocking literal is one of the clause. -/
  blocking : ∀ l b r, .large b r ∈ view l → b ∈ s.lits r.offset

/-- Some of the clauses of a store are watched by their first two literals, and nothing else is. -/
structure WatchedOn (on : Nat → Prop) (s : Store) (view : Literal → List Watch) : Prop where
  /-- No clause is watched twice by one literal. -/
  nodup : ∀ l, ((view l).filterMap Watch.ref?).Nodup
  /-- What is watched. -/
  mem_iff : ∀ l r, r ∈ (view l).filterMap Watch.ref? ↔
    s.Current r ∧ on r.offset ∧ (s.literalAt r.offset 0 = l ∨ s.literalAt r.offset 1 = l)
  /-- A blocking literal is one of the clause. -/
  blocking : ∀ l b r, .large b r ∈ view l → b ∈ s.lits r.offset

end Store

/-- Every clause is guarded, after `p` literals of the trail were propagated.  If the solver `lags`, a redundant
clause may be late. -/
structure Guarded (lags : Prop) (t : Trail) (a : Assignment) (st : Store) (view : Literal → List Watch)
    (p : Nat) : Prop where
  /-- The binary clauses. -/
  binary : ∀ l o r h, .binary o r h ∈ view l → Guard t a p (lags ∧ r = true) l o o l [l, o]
  /-- The clauses of the store. -/
  large : ∀ r x b y d, .large b r ∈ view x → .large d r ∈ view y → x ≠ y →
    Guard t a p (lags ∧ (st.flagsAt r.offset).redundant = true) x b y d (st.lits r.offset)

/-- Guards do not depend on how far propagation has come, but through what was gone through. -/
theorem Guarded.of_literals {lags : Prop} {t t' : Trail} {a : Assignment} {st : Store}
    {view : Literal → List Watch} {p : Nat} (h : Guarded lags t a st view p)
    (ht : t'.literals = t.literals) : Guarded lags t' a st view p := by
  have hup : ∀ l, Fallen t' p l → Fallen t p l := fun l hl => by
    rwa [Fallen, Trail.upTo, ht] at hl
  exact
    ⟨fun l o r y hm => (h.binary l o r y hm).imp (fun m _ hf => ⟨hup m hf, rfl⟩)
        (fun _ _ _ _ _ _ => ⟨rfl, rfl⟩) id fun _ hm => hm,
      fun r x b y d hx hy hne => (h.large r x b y d hx hy hne).imp (fun m _ hf => ⟨hup m hf, rfl⟩)
        (fun _ _ _ _ _ _ => ⟨rfl, rfl⟩) id fun _ hm => hm⟩

/-- What is guarded after more literals were propagated was guarded before. -/
theorem Guarded.anti {lags : Prop} {t : Trail} {a : Assignment} {st : Store}
    {view : Literal → List Watch} {p q : Nat} (h : Guarded lags t a st view p) (hq : q ≤ p) :
    Guarded lags t a st view q := by
  have hup : ∀ l, Fallen t q l → Fallen t p l := fun l hl => Trail.upTo_mono hq hl
  -- a literal that was not propagated then was not propagated before
  have hback : ∀ {late : Prop} {x b y d c}, Guard t a p late x b y d c → Guard t a q late x b y d c :=
    fun hg => hg.imp (fun m _ hf => ⟨hup m hf, rfl⟩) (fun _ _ _ _ _ _ => ⟨rfl, rfl⟩) id fun _ hm => hm
  exact ⟨fun l o r y hm => hback (h.binary l o r y hm),
    fun r x b y d hx hy hne => hback (h.large r x b y d hx hy hne)⟩

namespace Solver

variable {ε : Type} {lags : Prop}

/-- Whether a variable may be decided. -/
def Free (s : Solver ε) (v : Nat) : Prop :=
  s.numbering.Usable v ∧ s.assignment.valueOf v = .unassigned

/-- The tables fit together. -/
structure Frame (s : Solver ε) : Prop where
  /-- The assignment has room for every variable. -/
  sized : s.assignment.Sized s.numbering.size
  /-- There are not too many variables. -/
  few : s.numbering.size ≤ Numbering.greatestExternal
  /-- There is a list of watches for each literal. -/
  lists : s.watches.lists.size = 2 * s.numbering.size
  /-- The trail and the assignment agree. -/
  trail : s.trail.Matches s.numbering.Usable s.assignment
  /-- The orders are in shape. -/
  orders : s.orders.Valid s.numbering.size s.numbering.Usable
  /-- What may be decided is found. -/
  covers : s.orders.Covers s.Free
  /-- The count of variables that are not eliminated. -/
  active : s.active = ((List.range s.numbering.size).filter
    fun v => !s.numbering.isEliminated v).length
  /-- A unit is learnt at the root. -/
  iterating : s.iterating = true → s.trail.level = 0

/-- The clauses are watched, and the watches of the first `p` literals were gone through.  The solver `lags` if
going back may have stopped above the level on which a learnt clause was a unit. -/
structure Wired (lags : Prop) (s : Solver ε) (p : Nat) : Prop where
  /-- The store is good. -/
  store : s.store.Good s.numbering.Usable
  /-- The binary clauses have both their watches. -/
  paired : Watches.Paired s.numbering.Usable s.watches.view
  /-- The clauses of the store have both their watches. -/
  watched : s.store.Watched s.watches.view
  /-- Every assigned literal has a reason. -/
  grounded : ∀ i < s.trail.size, Grounded s.trail s.assignment s.store i
  /-- A binary clause that is a reason is there, or is still to be stored. -/
  reasons : ∀ l ∈ s.trail.literals, ∀ o, s.assignment.reason l = .binary o →
    (∃ r h, .binary o r h ∈ s.watches.view l) ∨ (o, l) ∈ s.derived
  /-- Every clause is guarded. -/
  guarded : Guarded lags s.trail s.assignment s.store s.watches.view p
  /-- The recent clauses are there, and are redundant. -/
  recent : ∀ r ∈ s.recent.toList, s.store.Current r ∧ (s.store.flagsAt r.offset).redundant = true

/-- No mark is left behind. -/
structure Clean (s : Solver ε) : Prop where
  /-- No literal is marked. -/
  marks : s.marks = Array.replicate (2 * s.numbering.size) false
  /-- No variable is marked. -/
  records : ∀ v, (s.assignment.record v).analyzed = false ∧
    (s.assignment.record v).removable = false ∧ (s.assignment.record v).poisoned = false
  /-- No clause is pinned. -/
  unpinned : ∀ o ∈ s.store.offsets, (s.store.flagsAt o).reason = false

/-- What holds between any two procedures, after the watches of `p` literals were gone through. -/
structure Inv (lags : Prop) (s : Solver ε) (p : Nat) : Prop extends Frame s, Wired lags s p, Clean s where
  /-- No derived clause is left to be stored. -/
  stored : s.derived = #[]

/-- What holds after the watches of more literals were gone through held before. -/
theorem Inv.anti {s : Solver ε} {p q : Nat} (h : s.Inv lags p) (hq : q ≤ p) : s.Inv lags q :=
  { h with guarded := h.guarded.anti hq }

/-- The invariant between procedures: what was propagated is gone through.  After a refutation that may not be so. -/
def Settled (lags : Prop) (s : Solver ε) : Prop :=
  ∃ p, s.Inv lags p ∧ (s.inconsistent = false → p = s.trail.propagated)

/-- The invariant, however far propagation has come. -/
def Intact (lags : Prop) (s : Solver ε) : Prop := ∃ p, s.Inv lags p

theorem Inv.intact {s : Solver ε} {p : Nat} (h : s.Inv lags p) : s.Intact lags := ⟨p, h⟩

theorem Settled.intact {s : Solver ε} (h : s.Settled lags) : s.Intact lags := let ⟨p, hp, _⟩ := h; ⟨p, hp⟩

theorem Intact.frame {s : Solver ε} (h : s.Intact lags) : s.Frame := let ⟨_, hp⟩ := h; hp.toFrame

/-! ## What is known -/

/-- A valuation satisfies all that a solver holds to be true. -/
structure Holds (s : Solver ε) (v : Valuation) : Prop where
  /-- It was not found that there is no model. -/
  consistent : s.inconsistent = false
  /-- Literals assigned at the root. -/
  root : ∀ l ∈ s.trail.literals, s.assignment.level l = 0 → v.makesTrue l = true
  /-- Clauses of the store, garbage included. -/
  large : ∀ o ∈ s.store.offsets, v.Satisfies (s.store.lits o)
  /-- Binary clauses. -/
  binary : ∀ l o r h, .binary o r h ∈ s.watches.view l → v.Satisfies [l, o]
  /-- Binary clauses that are reasons, whether they are still watched or not. -/
  reasons : ∀ l ∈ s.trail.literals, ∀ o, s.assignment.reason l = .binary o → v.Satisfies [l, o]
  /-- Binary clauses that are still to be stored. -/
  derived : ∀ x ∈ s.derived, v.Satisfies [x.1, x.2]

/-- A valuation satisfies what a solver never drops: the literals assigned at the root, and the clauses
which are neither redundant nor garbage. -/
structure Base (s : Solver ε) (v : Valuation) : Prop where
  /-- Literals assigned at the root. -/
  root : ∀ l ∈ s.trail.literals, s.assignment.level l = 0 → v.makesTrue l = true
  /-- Clauses of the store. -/
  large : ∀ o ∈ s.store.offsets, (s.store.flagsAt o).redundant = false →
    (s.store.flagsAt o).garbage = false → v.Satisfies (s.store.lits o)
  /-- Binary clauses. -/
  binary : ∀ l o h, .binary o false h ∈ s.watches.view l → v.Satisfies [l, o]

/-- A step inside of the search: what is known afterwards follows from what was known before, and nothing
is lost that is never to be dropped. -/
structure Refines (s s' : Solver ε) : Prop where
  /-- The settings stay. -/
  settings : s'.settings = s.settings
  /-- The hooks stay. -/
  hooks : s'.hooks = s.hooks
  /-- Nothing outside is touched. -/
  outside : s'.outside = s.outside
  /-- No variable becomes known or is eliminated. -/
  numbering : s'.numbering = s.numbering
  /-- Nothing is put on the extension stack. -/
  extension : s'.extension = s.extension
  /-- The status stays. -/
  status : s'.status = s.status
  /-- No clause is begun. -/
  pending : s'.pending = s.pending
  /-- A refutation stays. -/
  inconsistent : s.inconsistent = true → s'.inconsistent = true
  /-- What is known afterwards was known before. -/
  holds : ∀ v, s.Holds v → s'.Holds v
  /-- What is never dropped is not dropped. -/
  base : ∀ v, s'.Base v → s.Base v

namespace Refines

variable {s s' s'' : Solver ε}

theorem refl (s : Solver ε) : Refines s s :=
  ⟨rfl, rfl, rfl, rfl, rfl, rfl, rfl, id, fun _ => id, fun _ => id⟩

theorem trans (h : Refines s s') (h' : Refines s' s'') : Refines s s'' :=
  ⟨h'.settings.trans h.settings, h'.hooks.trans h.hooks, h'.outside.trans h.outside,
    h'.numbering.trans h.numbering, h'.extension.trans h.extension, h'.status.trans h.status,
    h'.pending.trans h.pending, h'.inconsistent ∘ h.inconsistent,
    fun v hv => h'.holds v (h.holds v hv), fun v hv => h.base v (h'.base v hv)⟩

end Refines

/-- Nothing has changed but what the invariant is not about. -/
def Aside (s s' : Solver ε) : Prop :=
  ∃ counters limits phases fastGlue slowGlue reluctant random unflushed,
    s' = { s with counters, limits, phases, fastGlue, slowGlue, reluctant, random, unflushed }

namespace Aside

variable {s s' : Solver ε} {p : Nat} (h : Aside s s')
include h

theorem inv (hi : s.Inv lags p) : s'.Inv lags p := by
  obtain ⟨_, _, _, _, _, _, _, _, rfl⟩ := h
  exact
    { hi with
      toFrame := { hi.toFrame with }
      toWired := { hi.toWired with }
      toClean := { hi.toClean with } }

theorem refines : Refines s s' := by
  obtain ⟨_, _, _, _, _, _, _, _, rfl⟩ := h
  exact ⟨rfl, rfl, rfl, rfl, rfl, rfl, rfl, id, fun _ hv => { hv with }, fun _ hv => { hv with }⟩

theorem trail : s'.trail = s.trail := by
  obtain ⟨_, _, _, _, _, _, _, _, rfl⟩ := h
  rfl

theorem learned : s'.learned = s.learned := by
  obtain ⟨_, _, _, _, _, _, _, _, rfl⟩ := h
  rfl

theorem inconsistent : s'.inconsistent = s.inconsistent := by
  obtain ⟨_, _, _, _, _, _, _, _, rfl⟩ := h
  rfl

end Aside

/-- A step after which a clause may be known that was not before: what is known afterwards follows from the
clause and what was known before. -/
structure Stores (c : List Literal) (s s' : Solver ε) : Prop where
  /-- The settings stay. -/
  settings : s'.settings = s.settings
  /-- The hooks stay. -/
  hooks : s'.hooks = s.hooks
  /-- Nothing outside is touched. -/
  outside : s'.outside = s.outside
  /-- No variable becomes known or is eliminated. -/
  numbering : s'.numbering = s.numbering
  /-- Nothing is put on the extension stack. -/
  extension : s'.extension = s.extension
  /-- The status stays. -/
  status : s'.status = s.status
  /-- No clause is begun. -/
  pending : s'.pending = s.pending
  /-- A refutation stays. -/
  inconsistent : s.inconsistent = true → s'.inconsistent = true
  /-- What is known afterwards. -/
  holds : ∀ v, v.Satisfies c → s.Holds v → s'.Holds v
  /-- What is never dropped is not dropped. -/
  base : ∀ v, s'.Base v → s.Base v

theorem Refines.stores {s s' : Solver ε} (h : Refines s s') (c : List Literal) : Stores c s s' :=
  { h with holds := fun v _ hv => h.holds v hv }

theorem Stores.trans {c : List Literal} {s s' s'' : Solver ε} (h : Stores c s s')
    (h' : Stores c s' s'') : Stores c s s'' :=
  ⟨h'.settings.trans h.settings, h'.hooks.trans h.hooks, h'.outside.trans h.outside,
    h'.numbering.trans h.numbering, h'.extension.trans h.extension, h'.status.trans h.status,
    h'.pending.trans h.pending, h'.inconsistent ∘ h.inconsistent,
    fun v hc hv => h'.holds v hc (h.holds v hc hv), fun v hv => h.base v (h'.base v hv)⟩

end Solver

end ClauseLearning
