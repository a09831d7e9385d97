import ClauseLearning.Literal

/-!
# References to clauses

A clause of three or more literals is kept in a store and named by a reference: where it starts, and
the epoch in which the reference was made.  A binary clause is not kept in the store and is named by
its two literals.

* `Reference` — the name of a clause in the store.
* `Key` — the name of any clause.
-/

namespace ClauseLearning

/-- The name of a clause in the store. -/
structure Reference where
  /-- The position of the first word of the clause. -/
  offset : Nat
  /-- The epoch of the store in which the reference was made. -/
  epoch : Nat
deriving DecidableEq, Repr, Inhabited

namespace Reference

/-- The text of a reference. -/
def text (r : Reference) : String := "@" ++ toString r.offset ++ "#" ++ toString r.epoch

instance : ToString Reference := ⟨text⟩

end Reference

/-- The name of a clause of two literals or more. -/
inductive Key where
  /-- A binary clause. -/
  | binary (a b : Literal)
  /-- A clause in the store. -/
  | large (r : Reference)
deriving DecidableEq, Repr, Inhabited

namespace Key

/-- The text of a key. -/
def text : Key → String
  | binary a b => "(" ++ a.text ++ " " ++ b.text ++ ")"
  | large r => r.text

instance : ToString Key := ⟨text⟩

/-- The text of a key that also tells its kind. -/
def details : Key → String
  | binary a b => "Binary(" ++ a.text ++ ", " ++ b.text ++ ")"
  | large r => "Large(" ++ r.text ++ ")"

end Key

end ClauseLearning
