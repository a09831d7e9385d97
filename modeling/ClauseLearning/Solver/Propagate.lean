import ClauseLearning.Solver.Assign

/-!
# Propagation

Each literal on the trail is propagated once, in order.  When a literal becomes true its negation
becomes false, and the watches of the negation are gone through.

* A binary clause forces its other literal, or is a conflict if that is false.
* A clause in the store whose blocking literal is true need not be read.  Otherwise the false
  literal is moved to position one.  If the literal at position zero is true, it becomes the
  blocking literal.  If some later literal is not false, it is watched instead; the search for it
  resumes where the last one ended, and wraps around.  Otherwise the literal at position zero is
  forced, or the clause is a conflict if that is false.

So the literal at position zero of a clause which is a reason is the one that it forces.

If the solver is told to, a clause that forces a literal on level one is replaced as its reason by
the binary clause that the decision of the level implies the literal.

* `Store.visit` — the visit of one clause.
* `Solver.propagateList` — the watches of one literal.
* `Solver.propagate` — every literal that was not propagated yet.
* `Solver.propagateRoot` — the same at the root.
-/

namespace ClauseLearning

/-- What became of a clause in which a watched literal is false. -/
inductive Visit where
  /-- The given literal, the other one that is watched, is true. -/
  | satisfied (other : Literal)
  /-- The first literal is watched in place of the false one, next to the second. -/
  | moved (replacement other : Literal)
  /-- The other watched literal is all that is left. -/
  | forced (other : Literal)
  /-- Every literal is false. -/
  | conflict
deriving DecidableEq, Repr, Inhabited

namespace Store

/-- The first of `n` positions from `i` on at which the clause at an offset has a literal that is not
false. -/
def findNotFalse (s : Store) (a : Assignment) (o i : Nat) : Nat → Option Nat
  | 0 => none
  | n + 1 => if a.value (s.literalAt o i) ≠ .ff then some i else s.findNotFalse a o (i + 1) n

/-- The position of a literal from position two on that is not false in the clause of size `n` at an
offset.  The search begins where the last one ended, and wraps around. -/
def findReplacement (s : Store) (a : Assignment) (o n : Nat) : Option Nat :=
  let resume := s.searchedAt o
  let start := if 2 ≤ resume ∧ resume < n then resume else 2
  s.findNotFalse a o start (n - start) <|> s.findNotFalse a o 2 (start - 2)

/-- Visits the clause at an offset, of size `n`, in which the false literal is at position one. -/
def visitAt (s : Store) (a : Assignment) (no : Literal) (o n : Nat) : Visit × Store :=
  let other := s.literalAt o 0
  let value := a.value other
  if value = .tt then (.satisfied other, s)
  else
    match s.findReplacement a o n with
    | some i =>
      let l := s.literalAt o i
      (.moved l other, ((s.setLiteralAt o 1 l).setLiteralAt o i no).setSearchedAt o i)
    | none => (if value = .ff then .conflict else .forced other, s)

/-- Visits a clause which is watched by the literal `no`, now false.  A clause which is not there or
does not have the literal in one of its first two positions should not have been watched. -/
def visit (a : Assignment) (no : Literal) (r : Reference) : StoreM Visit := fun s =>
  match s.size? r with
  | .error _ => .error .corruptWatch s
  | .ok n =>
    let o := r.offset
    let s := if s.literalAt o 0 = no then s.swapAt o 0 1 else s
    if s.literalAt o 1 = no then
      let (v, s) := s.visitAt a no o n
      .ok v s
    else .error .corruptWatch s

end Store

namespace Solver

variable {ε : Type}

/-- Makes a literal true which the clause of a reference forces. -/
def assignForced (s : Solver ε) (l : Literal) (r : Reference) : Solver ε :=
  if s.trail.level = 1 ∧ s.settings.keep.hyperBinaries.value then
    let no := -s.trail.decision 1
    let s := { s with derived := s.derived.push (no, l) }
    let s := s.count fun c => { c with hyperBinaries := c.hyperBinaries + 1 }
    s.assign l (.binary no)
  else s.assign l (.large r)

/-- Goes through watches of a literal `no` which has become false, up to the first fault.  The answer
is the fault, and the watches that stay in the list of the literal, those after a fault as they are. -/
def propagateList (no : Literal) : List Watch → Array Watch → Solver ε →
    (Option Fault × Array Watch) × Solver ε
  | [], kept, s => ((none, kept), s)
  | w :: rest, kept, s =>
    match w with
    | .binary other _ _ =>
      match s.val other with
      | .tt => propagateList no rest (kept.push w) s
      | .ff => ((some (.conflict (.binary no other)), kept.push w ++ rest), s)
      | .unassigned => propagateList no rest (kept.push w) (s.assign other (.binary no))
    | .large blocking r =>
      if s.val blocking = .tt then propagateList no rest (kept.push w) s
      else
        let assignment := s.assignment
        match onStore (Store.visit assignment no r) s with
        | .error e s => ((some e, kept.push w ++ rest), s)
        | .ok v s =>
          match v with
          | .satisfied other => propagateList no rest (kept.push (.large other r)) s
          | .moved replacement other =>
            propagateList no rest kept
              { s with watches := s.watches.add replacement (.large other r) }
          | .forced other => propagateList no rest (kept.push w) (s.assignForced other r)
          | .conflict => ((some (.conflict (.large r)), kept.push w ++ rest), s)

/-- Stores the binary clauses derived while the watches of a literal were gone through. -/
def storeDerived (s : Solver ε) : Solver ε :=
  { s with
    watches := s.derived.foldl (fun w (a, b) => w.addBinary a b true true) s.watches
    derived := #[] }

/-- Propagates one literal. -/
def propagateLiteral (l : Literal) : SolverM ε Unit := fun s =>
  let no := -l
  let list := s.watches.of no
  let s := { s with watches := s.watches.set no #[] }
  let ((fault, kept), s) := propagateList no list.toList #[] s
  let s := { s with watches := s.watches.restore no kept }
  let s := s.storeDerived
  match fault with
  | none => .ok () s
  | some e => .error e s

/-- Propagates at most `n` literals. -/
def propagateMany : Nat → SolverM ε Unit
  | 0 => throw .invalidState
  | n + 1 => do
    match (← get).trail.next? with
    | none => return ()
    | some (l, trail) =>
      modify fun s => { s with trail }
      modify fun s => s.count fun c => { c with propagations := c.propagations + 1 }
      propagateLiteral l
      propagateMany n

/-- How many literals can be propagated at most: those which wait, and one for each variable, since
no more can be assigned. -/
def propagationBound (s : Solver ε) : Nat :=
  s.trail.size - s.trail.propagated + s.assignment.size + 1

/-- Propagates every literal on the trail, up to the first conflict. -/
def propagate : SolverM ε Unit := do
  propagateMany (← get).propagationBound

/-- Propagates at the root, where a conflict means that there is no model.  The answer is whether there
was none. -/
def propagateRoot : SolverM ε Bool := fun s =>
  match propagate s with
  | .ok _ s => .ok true s
  | .error (.conflict _) s => .ok false s.refute
  | .error e s => .error e s

end Solver

end ClauseLearning
