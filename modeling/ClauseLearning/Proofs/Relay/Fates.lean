import ClauseLearning.Sharing.Relay
import Mathlib.Data.List.Pairwise

/-!
# What becomes of exported clauses

Every clause that was accepted for export has a *fate*: where it is, or what has become of it.  A list of clauses
with their fates, in the order in which they were accepted, is changed in one place at a time, when a clause goes
from one place to the next.

* `Fate` — what has become of a clause.
* `having` — the clauses with some fate, in order.
* `exists_first` — the first clause with some fate, where its list is known.
* `InOrder` — of clauses of one engine and one size, those that were accepted first have come furthest.
* `InOrder.advance`, `having_advanced` — the first clause with some fate gets the next one.
-/

namespace ClauseLearning

/-- What has become of a clause that was accepted for export. -/
inductive Fate where
  /-- It waits to be taken by the sharer. -/
  | waiting
  /-- The sharer has taken it, and has not put it into the pool yet. -/
  | taken
  /-- The sharer has it in the pool, or has selected it and not yet handed it to all. -/
  | stored
  /-- There was no room for it. -/
  | dropped
  /-- It was handed to all engines but its own. -/
  | distributed
deriving DecidableEq, Repr

/-- How far a clause still has to go. -/
def Fate.rank : Fate → Nat
  | waiting => 3
  | taken => 2
  | stored => 1
  | distributed => 0
  | dropped => 0

/-- Clauses with their fates. -/
abbrev Fates := List (SharedClause × Fate)

variable {f g : Fate} {q : SharedClause → Bool} {es l r : Fates} {c : SharedClause}

/-- The clauses that have some fate and pass a test, in order. -/
def having (f : Fate) (q : SharedClause → Bool) (es : Fates) : List SharedClause :=
  (es.filter fun e => e.2 = f ∧ q e.1).map Prod.fst

/-- Whether a clause is from some engine. -/
def SharedClause.isFrom (id : Nat) (c : SharedClause) : Bool := c.source = id

/-- Whether a clause is from some engine and has some size. -/
def SharedClause.isOf (id size : Nat) (c : SharedClause) : Bool := c.source = id ∧ c.size = size

/-- Any clause. -/
def anyClause (_ : SharedClause) : Bool := true

theorem SharedClause.size_of_isOf {id size : Nat} (h : c.isOf id size = true) : c.size = size :=
  (of_decide_eq_true h).2

theorem SharedClause.isOf_self (c : SharedClause) : c.isOf c.source c.size = true := by simp [isOf]

@[simp] theorem having_append : having f q (l ++ r) = having f q l ++ having f q r := by simp [having]

theorem having_cons (e : SharedClause × Fate) :
    having f q (e :: es) = (if e.2 = f ∧ q e.1 then [e.1] else []) ++ having f q es := by
  by_cases h : e.2 = f ∧ q e.1 <;> simp [having, h]

theorem mem_having : c ∈ having f q es ↔ (c, f) ∈ es ∧ q c = true := by
  simp only [having, List.mem_map, List.mem_filter, decide_eq_true_eq]
  constructor
  · rintro ⟨⟨c', f'⟩, ⟨hmem, rfl, hq⟩, rfl⟩
    exact ⟨hmem, hq⟩
  · rintro ⟨hmem, hq⟩
    exact ⟨(c, f), ⟨hmem, rfl, hq⟩, rfl⟩

/-- The first clause with some fate that passes a test. -/
theorem exists_first {rest : List SharedClause} (h : having f q es = c :: rest) :
    ∃ l r, es = l ++ (c, f) :: r ∧ having f q l = [] ∧ having f q r = rest ∧ q c = true := by
  induction es with
  | nil => cases h
  | cons e es ih =>
    rw [having_cons] at h
    by_cases he : e.2 = f ∧ q e.1
    · rw [if_pos he] at h
      obtain ⟨rfl, hrest⟩ := List.cons.inj h
      exact ⟨[], es, by rw [← he.1]; rfl, rfl, hrest, he.2⟩
    · rw [if_neg he] at h
      obtain ⟨l, r, rfl, hl, hr, hq⟩ := ih h
      exact ⟨e :: l, r, rfl, by rw [having_cons, if_neg he, hl]; rfl, hr, hq⟩

/-! ## The order of clauses -/

/-- Of two clauses of one engine and one size, neither of them dropped, the one that was accepted first has come at
least as far. -/
def Before (a b : SharedClause × Fate) : Prop :=
  a.1.source = b.1.source → a.1.size = b.1.size → a.2 = .dropped ∨ b.2 = .dropped ∨ a.2.rank ≤ b.2.rank

/-- Of clauses of one engine and one size, those that were accepted first have come furthest. -/
def InOrder (es : Fates) : Prop := es.Pairwise Before

/-- A clause that waits has not come further than any. -/
theorem before_waiting (a : SharedClause × Fate) {b : SharedClause × Fate} (hb : b.2 = .waiting) : Before a b := by
  intro _ _
  obtain ⟨c, f⟩ := a
  cases f <;> simp [hb, Fate.rank]

/-- Clauses that are accepted wait. -/
theorem InOrder.accept (h : InOrder es) {new : Fates} (hnew : ∀ e ∈ new, e.2 = .waiting) : InOrder (es ++ new) :=
  List.pairwise_append.2 ⟨h, List.pairwise_of_forall_mem_list fun a _ b hb => before_waiting a (hnew b hb),
    fun a _ b hb => before_waiting a (hnew b hb)⟩

/-- The first clause with some fate gets the next one, or is dropped. -/
theorem InOrder.advance (h : InOrder (l ++ (c, f) :: r)) (hl : having f q l = [])
    (hq : ∀ x : SharedClause, x.source = c.source → x.size = c.size → q x = true)
    (hf : f ≠ .dropped) (hg : g = .dropped ∨ g.rank + 1 = f.rank) : InOrder (l ++ (c, g) :: r) := by
  rw [InOrder, List.pairwise_append, List.pairwise_cons] at h ⊢
  obtain ⟨h1, ⟨h2, h3⟩, h4⟩ := h
  refine ⟨h1, ⟨fun b hb hs hz => ?_, h3⟩, fun a ha b hb => ?_⟩
  · rcases hg with rfl | hg
    · exact .inl rfl
    · refine .inr ((h2 b hb hs hz).elim (fun he => absurd he hf) (Or.imp_right fun hle => ?_))
      show g.rank ≤ _
      have : f.rank ≤ b.2.rank := hle
      omega
  · rcases List.mem_cons.1 hb with rfl | hb
    · intro hs hz
      rcases hg with rfl | hg
      · exact .inr (.inl rfl)
      · refine (h4 a ha _ (List.mem_cons_self ..) hs hz).imp_right (Or.inr ∘ fun he => ?_)
        have hle : a.2.rank ≤ f.rank := he.resolve_left hf
        -- a clause before the first one with its fate has come further
        have hne : a.2 ≠ f := fun haf => by
          have hmem : a.1 ∈ having f q l := mem_having.2 ⟨haf ▸ ha, hq a.1 hs hz⟩
          rw [hl] at hmem
          cases hmem
        show a.2.rank ≤ g.rank
        have hrank : a.2.rank ≠ f.rank := fun heq => by
          obtain ⟨x, a2⟩ := a
          cases a2 <;> cases f <;> simp_all [Fate.rank]
        omega
    · exact h4 a ha b (List.mem_cons_of_mem _ hb)

/-- What has come further than a clause, of the same engine and size, was accepted before it. -/
theorem InOrder.having_after (h : InOrder (l ++ (c, f) :: r)) (hf : f ≠ .dropped) (hg : g ≠ .dropped)
    (hlt : g.rank < f.rank) : having g (·.isOf c.source c.size) r = [] := by
  rw [InOrder, List.pairwise_append, List.pairwise_cons] at h
  rw [List.eq_nil_iff_forall_not_mem]
  intro x hx
  obtain ⟨hmem, hof⟩ := mem_having.1 hx
  simp only [SharedClause.isOf, decide_eq_true_eq] at hof
  rcases h.2.1.1 _ hmem hof.1.symm hof.2.symm with he | he | he
  · exact hf he
  · exact hg he
  · have : f.rank ≤ g.rank := he
    omega

/-! ## One clause gets another fate -/

/-- Clauses that have neither the old fate nor the new one are as they were. -/
theorem having_other {k : Fate} (hf : k ≠ f) (hg : k ≠ g) :
    having k q (l ++ (c, g) :: r) = having k q (l ++ (c, f) :: r) := by
  simp only [having_append, having_cons]
  rw [if_neg fun h => hg h.1.symm, if_neg fun h => hf h.1.symm]

/-- Clauses found by a test that the clause does not pass are as they were. -/
theorem having_untouched {k : Fate} (hq : q c = false) :
    having k q (l ++ (c, g) :: r) = having k q (l ++ (c, f) :: r) := by
  simp only [having_append, having_cons]
  rw [if_neg fun h => by rw [hq] at h; exact absurd h.2 (by decide),
    if_neg fun h => by rw [hq] at h; exact absurd h.2 (by decide)]

/-- The clause has the old fate no longer. -/
theorem having_left (hfg : f ≠ g) (hl : having f q l = []) :
    having f q (l ++ (c, g) :: r) = having f q r := by
  rw [having_append, having_cons, hl, if_neg fun h => hfg h.1.symm]
  rfl

/-- The clause is the last one with the new fate, if those have come further. -/
theorem having_entered (hfg : f ≠ g) (hq : q c = true) (hr : having g q r = []) :
    having g q (l ++ (c, g) :: r) = having g q (l ++ (c, f) :: r) ++ [c] := by
  simp only [having_append, having_cons, hr]
  rw [if_pos ⟨trivial, hq⟩, if_neg fun h => hfg h.1]
  simp

/-- There is one clause more with the new fate. -/
theorem length_having_entered (hfg : f ≠ g) (hq : q c = true) :
    (having g q (l ++ (c, g) :: r)).length = (having g q (l ++ (c, f) :: r)).length + 1 := by
  simp only [having_append, having_cons, List.length_append]
  rw [if_pos ⟨trivial, hq⟩, if_neg fun h => hfg h.1]
  simp only [List.length_cons, List.length_nil]
  omega

/-- The clauses are the same. -/
theorem map_fst_moved : (l ++ (c, g) :: r).map Prod.fst = (l ++ (c, f) :: r).map Prod.fst := by simp

end ClauseLearning
