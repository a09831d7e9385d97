import ClauseLearning.Numbering

/-!
# The register of variables

A register has two tables.  One is by external variables and says which literal each of them is, the other is by
internal variables and says which external variable each of them is.  External variables begin at one, so the first
entry of the first table stays empty.  Both grow when an external variable is mentioned that is not known: the first
at once, and then both together, one variable after another.

A solver needs nothing but the count of the variables and which of them are eliminated, which is what
`ClauseLearning.Numbering` keeps.

* `Register` — the two tables.
* `Register.mention` — the literal of an external literal, known from then on.
* `Register.get?`, `Register.lookup?` — what is known of an external literal.
* `Register.export?` — the external literal of a literal.
* `Register.eliminate?`, `Register.isEliminated?` — variables that are out of the search.
-/

namespace ClauseLearning

/-- What a register says of an external variable. -/
structure Entry where
  /-- The positive literal of the variable. -/
  literal : Literal := .invalid
  /-- Whether the variable is known. -/
  known : Bool := false
  /-- Whether the variable is eliminated. -/
  eliminated : Bool := false
deriving DecidableEq, Repr, Inhabited

/-- The literal of an entry with a polarity. -/
def Entry.on (x : Entry) (positive : Bool) : Literal := if positive then x.literal else -x.literal

/-- The tables of the known variables. -/
structure Register where
  /-- The entries, by external variable. -/
  entries : Array Entry := #[]
  /-- The external variables, by internal variable. -/
  externals : Array Int := #[]
deriving DecidableEq, Repr, Inhabited

namespace Register

/-- The count of known variables. -/
def size (r : Register) : Nat := r.externals.size

/-- The greatest external variable for which there is an entry. -/
def maxExternal (r : Register) : Nat := r.entries.size - 1

/-- Makes room for an external variable. -/
def reach (r : Register) (x : Nat) : Register :=
  { r with entries := r.entries ++ Array.replicate (x + 1 - r.entries.size) {} }

/-- Gives an external variable the next internal one. -/
def enter (r : Register) (x : Nat) : Register :=
  { entries := r.entries.setIfInBounds x { literal := .make r.externals.size true, known := true }
    externals := r.externals.push x }

/-- Makes every external variable up to one of them known. -/
def extend (r : Register) (x : Nat) : Register :=
  (List.range' (r.size + 1) (x - r.size)).foldl enter (r.reach x)

/-- The literal of an external literal.  Its variable and all before it are known from then on. -/
def mention (r : Register) (e : Int) : Except Fault Literal × Register :=
  match Numbering.check e with
  | .error fault => (.error fault, r)
  | .ok _ =>
    let r := r.extend e.natAbs
    (.ok ((r.entries.getD e.natAbs {}).on (0 < e)), r)

/-- The entry of the variable of an external literal, if it is known. -/
def get? (r : Register) (e : Int) : Option Entry := r.entries[e.natAbs]?.filter (·.known)

/-- The literal of an external literal on a known variable that is not eliminated. -/
def lookup? (r : Register) (e : Int) : Option Literal :=
  (r.get? e).bind fun x => if x.eliminated then none else some (x.on (0 < e))

/-- The external literal of a literal on a known variable. -/
def export? (r : Register) (l : Literal) : Option Int :=
  r.externals[l.var]?.map fun e => if l.positive then e else -e

/-- Eliminates a known variable. -/
def eliminate? (r : Register) (v : Nat) : Option Register :=
  r.externals[v]?.map fun e =>
    { r with entries := r.entries.modify e.toNat fun x => { x with eliminated := true } }

/-- Whether a known variable is eliminated. -/
def isEliminated? (r : Register) (v : Nat) : Option Bool :=
  r.externals[v]?.bind fun e => r.entries[e.toNat]?.map (·.eliminated)

end Register

end ClauseLearning
