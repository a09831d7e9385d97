import ClauseLearning.Fault
import ClauseLearning.Store.Flags
import ClauseLearning.Word

/-!
# The clause store

Clauses of three or more literals are kept one after another in a single array of words.  A clause
is a header of four words — size, glue, flags, and the position from which the search for a
replacement watch resumes — and then its literals.  Words freed by shortening a clause where it is
are filled with a *padding* word, which is no size, so a walk over the store skips them.

* `Store` — the words, the current epoch, and a count of the words that a sweep would free.
* `Store.size?` — the size of a clause, if the reference to it is good.  Every access goes through it.
* `Store.Record`, `Store.record?` — a clause as a value.
* `StoreM` — changes of a store, with `Store.allocate`, `Store.markGarbage`, `Store.shrink`.
* `Store.references` — every clause, in order.
-/

namespace ClauseLearning

/-- Clauses in an array of words. -/
structure Store where
  /-- The clauses, one after another. -/
  words : Array Nat := #[]
  /-- The epoch of the references that are good now. -/
  epoch : Nat := 0
  /-- How many words belong to garbage clauses or are padding. -/
  garbage : Nat := 0
deriving DecidableEq, Repr, Inhabited

namespace Store

/-- The count of words before the literals of a clause. -/
def headerWords : Nat := 4

/-- The word that fills freed space.  It is the size of no clause. -/
def padding : Nat := greatestWord

/-- A clause as a value. -/
structure Record where
  /-- The count of decision levels of the literals when the clause was learnt. -/
  glue : Nat
  /-- Notes about the clause. -/
  flags : Flags
  /-- The position from which the search for a replacement watch resumes. -/
  searched : Nat
  /-- The literals. -/
  literals : Array Literal
deriving DecidableEq, Repr, Inhabited

/-- Whether no clause is stored. -/
def isEmpty (s : Store) : Bool := s.words.isEmpty

/-! ## Words of a clause

These read and write at the offset of a clause which is known to be there. -/

/-- The word at a position. -/
def word (s : Store) (i : Nat) : Nat := s.words.getD i 0

/-- Writes the word at a position. -/
def setWord (s : Store) (i w : Nat) : Store := { s with words := s.words.setIfInBounds i w }

@[simp] theorem size_setWord (s : Store) (i w : Nat) : (s.setWord i w).words.size = s.words.size := by simp [setWord]

/-- The size of the clause at an offset. -/
def sizeAt (s : Store) (o : Nat) : Nat := s.word o

/-- The glue of the clause at an offset. -/
def glueAt (s : Store) (o : Nat) : Nat := s.word (o + 1)

/-- The flags of the clause at an offset. -/
def flagsAt (s : Store) (o : Nat) : Flags := .ofWord (s.word (o + 2))

/-- The position from which the search of the clause at an offset resumes. -/
def searchedAt (s : Store) (o : Nat) : Nat := s.word (o + 3)

/-- A literal of the clause at an offset. -/
def literalAt (s : Store) (o i : Nat) : Literal := ⟨s.word (o + headerWords + i)⟩

/-- The literals of the clause at an offset. -/
def literalsAt (s : Store) (o : Nat) : Array Literal :=
  (s.words.extract (o + headerWords) (o + headerWords + s.sizeAt o)).map Literal.mk

/-- Writes the glue of the clause at an offset. -/
def setGlueAt (s : Store) (o glue : Nat) : Store := s.setWord (o + 1) glue

/-- Writes the flags of the clause at an offset. -/
def setFlagsAt (s : Store) (o : Nat) (f : Flags) : Store := s.setWord (o + 2) f.toWord

/-- Writes the position from which the search of the clause at an offset resumes. -/
def setSearchedAt (s : Store) (o n : Nat) : Store := s.setWord (o + 3) n

/-- Writes a literal of the clause at an offset. -/
def setLiteralAt (s : Store) (o i : Nat) (l : Literal) : Store := s.setWord (o + headerWords + i) l.code

/-- Writes literals over the first ones of the clause at an offset, from position `i` on. -/
def setLiteralsAt (s : Store) (o i : Nat) : List Literal → Store
  | [] => s
  | l :: ls => (s.setLiteralAt o i l).setLiteralsAt o (i + 1) ls

@[simp] theorem size_setLiteralsAt (s : Store) (o i : Nat) (ls : List Literal) :
    (s.setLiteralsAt o i ls).words.size = s.words.size := by
  induction ls generalizing s i with
  | nil => rfl
  | cons l ls ih => rw [setLiteralsAt, ih, setLiteralAt, size_setWord]

/-- Exchanges two literals of the clause at an offset. -/
def swapAt (s : Store) (o i j : Nat) : Store :=
  { s with words := s.words.swapIfInBounds (o + headerWords + i) (o + headerWords + j) }

/-- The clause at an offset. -/
def recordAt (s : Store) (o : Nat) : Record :=
  { glue := s.glueAt o, flags := s.flagsAt o, searched := s.searchedAt o, literals := s.literalsAt o }

/-! ## Access by reference -/

/-- The size of a clause.  A reference from another epoch is stale, and one that is not to a clause
within the words of the store is invalid. -/
def size? (s : Store) (r : Reference) : Except Fault Nat :=
  if r.epoch ≠ s.epoch then .error .staleReference
  else
    match s.words[r.offset]? with
    | none => .error .invalidReference
    | some n =>
      if n ≠ padding ∧ r.offset + headerWords + n ≤ s.words.size then .ok n
      else .error .invalidReference

/-- The clause of a reference. -/
def record? (s : Store) (r : Reference) : Except Fault Record :=
  (s.size? r).map fun _ => s.recordAt r.offset

/-- The literals of the clause of a reference. -/
def literals? (s : Store) (r : Reference) : Except Fault (Array Literal) :=
  (s.size? r).map fun _ => s.literalsAt r.offset

/-! ## Changes between sweeps

A change may fail, and a store that a change failed on is still there. -/

end Store

/-- A change of the store that may fail. -/
abbrev StoreM := EStateM Fault Store

namespace Store

/-- The size of the clause of a reference. -/
def locate (r : Reference) : StoreM Nat := fun s =>
  match s.size? r with
  | .ok n => .ok n s
  | .error e => .error e s

/-- Writes the glue of the clause of a reference. -/
def setGlue (r : Reference) (glue : Nat) : StoreM Unit := do
  let _ ← locate r
  modify fun s => s.setGlueAt r.offset glue

/-- Changes the flags of the clause of a reference. -/
def updateFlags (r : Reference) (f : Flags → Flags) : StoreM Unit := do
  let _ ← locate r
  modify fun s => s.setFlagsAt r.offset (f (s.flagsAt r.offset))

/-- Writes the position from which the search of the clause of a reference resumes.  Of a number that
is more than a word, the word keeps the low bits. -/
def setSearched (r : Reference) (n : Nat) : StoreM Unit := do
  let _ ← locate r
  modify fun s => s.setSearchedAt r.offset (lowWord n)

/-- Exchanges two literals of the clause of a reference. -/
def swapLiterals (r : Reference) (i j : Nat) : StoreM Unit := do
  let _ ← locate r
  modify fun s => s.swapAt r.offset i j

/-- The words of a clause. -/
def Record.words (c : Record) : Array Nat :=
  #[c.literals.size, c.glue, c.flags.toWord, c.searched] ++ c.literals.map Literal.code

/-- The clause as it is first stored. -/
def Record.fresh (literals : Array Literal) (redundant : Bool) (glue : Nat) : Record :=
  { glue, flags := .fresh redundant, searched := 2, literals }

/-- The reference of the clause that is stored next. -/
def nextReference (s : Store) : Reference := { offset := s.words.size, epoch := s.epoch }

/-- Stores a clause.  It must have three literals or more, and the store must have room: its last
word must stay below the padding word. -/
def allocate (literals : Array Literal) (redundant : Bool) (glue : Nat) : StoreM Reference := do
  if literals.size < 3 then throw .tooShort
  let r := (← get).nextReference
  if padding ≤ r.offset + headerWords + literals.size then throw .exhausted
  modify fun s => { s with words := s.words ++ (Record.fresh literals redundant glue).words }
  return r

/-- Marks a clause as garbage.  The answer is whether it was not garbage before. -/
def markGarbage (r : Reference) : StoreM Bool := do
  let n ← locate r
  let f := (← get).flagsAt r.offset
  if f.garbage then return false
  modify fun s =>
    let s := s.setFlagsAt r.offset { f with garbage := true }
    { s with garbage := s.garbage + headerWords + n }
  return true

/-- Writes padding over the `n` words from a position on. -/
def pad (s : Store) (i : Nat) : Nat → Store
  | 0 => s
  | n + 1 => (s.setWord i padding).pad (i + 1) n

/-- The store in which the clause at an offset, of the given size, is cut to its first `n` literals
and the freed words are padded. -/
def cutAt (s : Store) (o size n : Nat) : Store :=
  let s := s.pad (o + headerWords + n) (size - n)
  let s := s.setWord o n
  let s := if n ≤ s.searchedAt o then s.setSearchedAt o 2 else s
  let f := s.flagsAt o
  let s := s.setFlagsAt o { f with shrunken := true }
  { s with garbage := s.garbage + (size - n) }

/-- Shortens a clause to its first `n` literals, three or more. -/
def shrink (r : Reference) (n : Nat) : StoreM Unit := do
  let size ← locate r
  if n < 3 then throw .tooShort
  if n < size then modify fun s => s.cutAt r.offset size n

/-! ## Walks over the store -/

/-- The offsets of the clauses from a position on.  Padding is skipped word by word. -/
def offsetsFrom (s : Store) (p : Nat) : List Nat :=
  if p < s.words.size then
    if s.word p = padding then s.offsetsFrom (p + 1)
    else p :: s.offsetsFrom (p + headerWords + s.sizeAt p)
  else []
termination_by s.words.size - p
decreasing_by
  · omega
  · simp only [headerWords]; omega

/-- References to every clause from a position on, garbage included. -/
def referencesFrom (s : Store) (p : Nat) : List Reference :=
  (s.offsetsFrom p).map fun o => { offset := o, epoch := s.epoch }

/-- References to every clause, garbage included, in the order in which they are stored. -/
def references (s : Store) : List Reference := s.referencesFrom 0

/-- How many words from a position on belong to garbage clauses or are padding. -/
def garbageFrom (s : Store) (p : Nat) : Nat :=
  if p < s.words.size then
    if s.word p = padding then 1 + s.garbageFrom (p + 1)
    else
      let n := headerWords + s.sizeAt p
      (if (s.flagsAt p).garbage then n else 0) + s.garbageFrom (p + n)
  else 0
termination_by s.words.size - p
decreasing_by
  · omega
  · simp only [headerWords]; omega

end Store

end ClauseLearning
