import ClauseLearning.Proofs.Store.Amend
import ClauseLearning.Proofs.Store.Sweep
import Mathlib.Data.List.ReduceOption
import Mathlib.Data.List.Indexes
import Mathlib.Algebra.GroupWithZero.Nat

/-!
# A list of clauses, and a store that is used like one

A user of the store holds references, and everything is done through them.  A *ledger* says what such a user
should see without any words or offsets: it is the list of the clauses that were stored and not dropped, each
with the number under which it was stored, and it knows of every reference which clause it is to and how many
sweeps there had been when it was obtained.

* `Store.Op`, `Store.Answer` — what can be done, and what is answered.
* `Store.Verdict`, `Store.Judge` — what is decided about the clauses that a sweep visits.
* `Store.Client` — a store, the references to clauses that were obtained, and the relocations of its sweeps.
* `Store.Ledger` — the list of clauses, and what the references name.
* `Store.Legal` — every sweep begins at a position that no clause lies across.
-/

namespace ClauseLearning

namespace Store

/-! ## Operations -/

/-- What is decided about a clause that a sweep visits. -/
inductive Verdict where
  /-- Something is written to the clause, and then its first `n` literals are kept. -/
  | keep (edits : List Edit) (n : Nat)
  /-- The clause is dropped. -/
  | drop

/-- The verdicts of a sweep: on each visited clause, by how many were visited before. -/
abbrev Judge := Nat → Record → Verdict

/-- What can be done with a store.  Numbers `h` and `m` count the references and the relocations that were
obtained, in order. -/
inductive Op where
  /-- A clause is stored, and a reference to it obtained. -/
  | allocate (literals : Array Literal) (redundant : Bool) (glue : Nat)
  /-- A clause is looked at. -/
  | read (h : Nat)
  /-- References to all clauses are obtained. -/
  | references
  /-- A clause becomes garbage. -/
  | markGarbage (h : Nat)
  /-- A clause is cut to its first `n` literals where it is. -/
  | shrink (h n : Nat)
  /-- Something is written to a clause. -/
  | edit (h : Nat) (e : Edit)
  /-- Clauses are swept from a position on, before which there are `passed` clauses. -/
  | sweep (start passed : Nat) (judge : Judge)
  /-- A reference is carried over a sweep. -/
  | retag (h m : Nat)

/-- What is answered. -/
inductive Answer where
  /-- No such reference or relocation was obtained. -/
  | unknown
  /-- There was a fault. -/
  | refused (e : Fault)
  /-- It was done. -/
  | done
  /-- A clause is garbage, and whether it was not before. -/
  | marked (fresh : Bool)
  /-- A clause. -/
  | clause (c : Record)
  /-- What the references to all clauses are good for. -/
  | clauses (cs : List (Except Fault Record))
  /-- The reference cannot be carried over. -/
  | lost
deriving DecidableEq

/-- The answer to a look at a clause. -/
def Answer.ofRead : Except Fault Record → Answer
  | .ok c => clause c
  | .error e => refused e

/-! ## A store and its references -/

/-- A store with what was obtained from it. -/
structure Client where
  /-- The store. -/
  store : Store := {}
  /-- The references to clauses that were obtained. -/
  held : List Reference := []
  /-- The relocations of the sweeps, in order. -/
  moves : List Relocation := []

/-- How a sweep follows verdicts.  It counts the visited clauses, and gathers the new references of those
that are kept. -/
def Judge.visitor (judge : Judge) : Visitor (Nat × List Reference) := fun x _ new c =>
  match judge x.1 c with
  | .keep edits n => (some (edits.foldl (fun c e => e.apply c) c, n), x.1 + 1, x.2 ++ [new])
  | .drop => (none, x.1 + 1, x.2)

namespace Client

/-- Changes the store through a reference that was obtained. -/
def through {α : Type} (c : Client) (h : Nat) (x : Reference → StoreM α) (answer : α → Answer) : Answer × Client :=
  match c.held[h]? with
  | none => (.unknown, c)
  | some r =>
    match x r c.store with
    | .ok a s => (answer a, { c with store := s })
    | .error e s => (.refused e, { c with store := s })

/-- What an operation does, and what is answered. -/
def step (c : Client) : Op → Answer × Client
  | .allocate literals redundant glue =>
    match Store.allocate literals redundant glue c.store with
    | .ok r s => (.done, { c with store := s, held := c.held ++ [r] })
    | .error e s => (.refused e, { c with store := s })
  | .read h => (c.held[h]?.elim .unknown fun r => .ofRead (c.store.record? r), c)
  | .references =>
    (.clauses (c.store.references.map c.store.record?), { c with held := c.held ++ c.store.references })
  | .markGarbage h => c.through h Store.markGarbage .marked
  | .shrink h n => c.through h (fun r => Store.shrink r n) fun _ => .done
  | .edit h e => c.through h (fun r => e.run r) fun _ => .done
  | .sweep start _ judge =>
    let swept := c.store.compact start judge.visitor (0, [])
    (.done, { store := swept.1, held := c.held ++ swept.2.2.2, moves := c.moves ++ [swept.2.1] })
  | .retag h m =>
    match c.held[h]?, c.moves[m]? with
    | some r, some t =>
      match t.retag r with
      | some r => (.done, { c with held := c.held ++ [r] })
      | none => (.lost, c)
    | _, _ => (.unknown, c)

/-- What a list of operations does, and what is answered to each. -/
def run (c : Client) : List Op → List Answer × Client
  | [] => ([], c)
  | op :: ops => ((c.step op).1 :: ((c.step op).2.run ops).1, ((c.step op).2.run ops).2)

end Client

/-! ## The ledger -/

/-- A clause with the number under which it was stored. -/
structure Entry where
  /-- The number. -/
  token : Nat
  /-- The clause. -/
  clause : Record

/-- What a reference names. -/
structure Name where
  /-- The number of the clause. -/
  token : Nat
  /-- How many sweeps there were before the reference was obtained. -/
  age : Nat

/-- The clauses that were stored and not dropped, and what the references name. -/
structure Ledger where
  /-- The clauses, in the order in which they were stored. -/
  entries : List Entry := []
  /-- How many clauses were stored. -/
  issued : Nat := 0
  /-- How many words are taken. -/
  words : Nat := 0
  /-- What the references name that were obtained. -/
  held : List Name := []
  /-- For every sweep, in order, the numbers of the clauses before its start. -/
  stayed : List (List Nat) := []

/-- A clause as it is after a sweep that visits it as the `i`-th one, if it is kept.  Of what was written to it, at
least the first three literals are kept, and at most all.  It bears no mark of having been cut before, and the search
for a watch does not resume beyond its end. -/
def Judge.outcome (judge : Judge) (i : Nat) (c : Record) : Option Record :=
  match judge i c with
  | .keep edits n =>
    let n := max 3 (min n c.literals.size)
    let c := edits.foldl (fun c e => e.apply c) c
    some { c with
      flags := { c.flags with used := min c.flags.used 2, shrunken := false }
      searched := if n ≤ c.searched then 2 else c.searched
      literals := c.literals.take n }
  | .drop => none

/-- The clauses that are kept, with their numbers. -/
def Judge.kept (judge : Judge) (es : List Entry) : List Entry :=
  (es.mapIdx fun i e => (judge.outcome i e.clause).map fun c => { e with clause := c }).reduceOption

namespace Ledger

/-- How many sweeps there were. -/
def age (l : Ledger) : Nat := l.stayed.length

/-- The clause that a reference names, unless there was a sweep since. -/
def clause? (l : Ledger) (n : Name) : Except Fault Record :=
  if n.age ≠ l.age then .error .staleReference
  else
    match l.entries.find? fun e => e.token = n.token with
    | some e => .ok e.clause
    | none => .error .invalidReference

/-- Another clause is kept under a number. -/
def amend (l : Ledger) (token : Nat) (c : Record) : Ledger :=
  { l with entries := l.entries.map fun e => if e.token = token then { e with clause := c } else e }

/-- Makes another clause of the one that a reference names. -/
def through (l : Ledger) (h : Nat) (x : Record → Except Fault (Answer × Record)) : Answer × Ledger :=
  match l.held[h]? with
  | none => (.unknown, l)
  | some n =>
    match (l.clause? n).bind x with
    | .error e => (.refused e, l)
    | .ok y => (y.1, l.amend n.token y.2)

/-- What an operation does, and what is answered. -/
def step (l : Ledger) : Op → Answer × Ledger
  | .allocate literals redundant glue =>
    if literals.size < 3 then (.refused .tooShort, l)
    else if 2 ^ 32 - 1 ≤ l.words + 4 + literals.size then (.refused .exhausted, l)
    else
      (.done, { l with
        entries := l.entries ++ [⟨l.issued, { glue, flags := { redundant }, searched := 2, literals }⟩]
        issued := l.issued + 1
        words := l.words + 4 + literals.size
        held := l.held ++ [⟨l.issued, l.age⟩] })
  | .read h => (l.held[h]?.elim .unknown fun n => .ofRead (l.clause? n), l)
  | .references =>
    (.clauses (l.entries.map fun e => .ok e.clause),
      { l with held := l.held ++ l.entries.map fun e => ⟨e.token, l.age⟩ })
  | .markGarbage h => l.through h fun c => .ok (.marked !c.flags.garbage, c.trashed)
  | .shrink h n => l.through h fun c =>
    if n < 3 then .error .tooShort else .ok (.done, if n < c.literals.size then c.shortened n else c)
  | .edit h e => l.through h fun c => .ok (.done, e.apply c)
  | .sweep start passed judge =>
    let early := l.entries.take passed
    let kept := judge.kept (l.entries.drop passed)
    (.done, { l with
      entries := early ++ kept
      words := min start l.words + (kept.map fun e => 4 + e.clause.literals.size).sum
      held := l.held ++ kept.map fun e => ⟨e.token, l.age + 1⟩
      stayed := l.stayed ++ [early.map Entry.token] })
  | .retag h m =>
    match l.held[h]?, l.stayed[m]? with
    | some n, some tokens =>
      if n.age = m ∧ n.token ∈ tokens then (.done, { l with held := l.held ++ [⟨n.token, m + 1⟩] })
      else (.lost, l)
    | _, _ => (.unknown, l)

/-- What a list of operations does, and what is answered to each. -/
def run (l : Ledger) : List Op → List Answer × Ledger
  | [] => ([], l)
  | op :: ops => ((l.step op).1 :: ((l.step op).2.run ops).1, ((l.step op).2.run ops).2)

end Ledger

/-! ## What is asked of a user -/

/-- A sweep begins at a position that no clause lies across, and it is told how many clauses begin before. -/
def Client.Allows (c : Client) : Op → Prop
  | .sweep start passed _ =>
    c.store.Seam (min start c.store.words.size) ∧ c.store.offsets.countP (· < start) = passed
  | _ => True

/-- Every operation of a list is allowed when its turn comes. -/
def Legal (c : Client) : List Op → Prop
  | [] => True
  | op :: ops => c.Allows op ∧ Legal (c.step op).2 ops

/-- Whether an operation is a sweep. -/
def Op.isSweep : Op → Bool
  | sweep .. => true
  | _ => false

/-- How many sweeps there are in a list of operations. -/
def sweeps (ops : List Op) : Nat := ops.countP Op.isSweep

end Store

end ClauseLearning
