import ClauseLearning.Sharing.Clause

/-!
# Hooks

The only ways in which a solver deals with anything outside of it while it searches: it may ask
whether to stop, offer a clause it has learnt, and ask for units and clauses that others have
learnt.  What is outside is a value of some type, and each hook is a function on it.

* `Source` — something that can be asked for elements until it has no more.
* `Hooks` — the hooks of a solver, each of which may be missing.
* `Part` — a part of a whole, with `Part.lift` for functions on it.
* `Hooks.through` — the hooks of a part, as hooks of the whole.
-/

namespace ClauseLearning

/-- A function on a state of type `ε` which hands out elements, and comes to an end. -/
structure Source (ε α : Type) where
  /-- The next element, if there is one now. -/
  next : ε → Option α × ε
  /-- A bound on how many elements can be handed out in a row. -/
  size : ε → Nat
  /-- Each element takes from the bound. -/
  size_lt : ∀ {e e' : ε} {a : α}, next e = (some a, e') → size e' < size e

/-- Functions on what is outside of a solver, whose state is of the type `ε`. -/
structure Hooks (ε : Type) where
  /-- Asks whether to stop. -/
  terminate : Option (ε → Bool × ε) := none
  /-- Offers a learnt clause with its glue.  The answer is whether it was accepted. -/
  exportClause : Option (List Int → Nat → ε → Bool × ε) := none
  /-- Hands out units. -/
  units : Option (Source ε Int) := none
  /-- Hands out clauses. -/
  clauses : Option (Source ε SharedClause) := none
deriving Inhabited

/-- A part of a whole which can be looked at and replaced. -/
structure Part (σ ε : Type) where
  /-- The part. -/
  get : σ → ε
  /-- The whole with another part. -/
  set : ε → σ → σ
  /-- The part of the whole with another part is that other part. -/
  get_set : ∀ (e : ε) (w : σ), get (set e w) = e

namespace Part

variable {ε σ α : Type}

/-- The whole, as a part of itself. -/
def whole : Part ε ε where
  get := id
  set e _ := e
  get_set _ _ := rfl

/-- The first component of a pair. -/
def first : Part (ε × α) ε where
  get := Prod.fst
  set e w := (e, w.2)
  get_set _ _ := rfl

/-- The second component of a pair. -/
def second : Part (α × ε) ε where
  get := Prod.snd
  set e w := (w.1, e)
  get_set _ _ := rfl

/-- Changes the part. -/
def modify (p : Part σ ε) (f : ε → ε) (w : σ) : σ := p.set (f (p.get w)) w

/-- A function on the part, as a function on the whole. -/
def lift (p : Part σ ε) (f : ε → α × ε) (w : σ) : α × σ :=
  let (a, e) := f (p.get w)
  (a, p.set e w)

/-- A source in the part, as one in the whole. -/
def source (p : Part σ ε) (s : Source ε α) : Source σ α where
  next := p.lift s.next
  size w := s.size (p.get w)
  size_lt := by
    intro w w' a h
    simp only [lift, Prod.mk.injEq] at h
    obtain ⟨ha, rfl⟩ := h
    rw [p.get_set]
    exact s.size_lt (Prod.ext ha rfl)

end Part

namespace Hooks

variable {ε σ : Type}

/-- The hooks of a part, as hooks of the whole. -/
def through (h : Hooks ε) (p : Part σ ε) : Hooks σ where
  terminate := h.terminate.map p.lift
  exportClause := h.exportClause.map fun f ls glue => p.lift (f ls glue)
  units := h.units.map p.source
  clauses := h.clauses.map p.source

end Hooks

end ClauseLearning
