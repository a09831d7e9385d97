/-!
# Values

A variable, and so a literal, is true, false, or not assigned.

* `Value` — the three values.
* `Value.ofBool`, `Value.toBool?` — the two assigned values as truth values.
* `Value.negate` — the value of the opposite literal.
-/

namespace ClauseLearning

/-- The value of a literal. -/
inductive Value where
  /-- The literal is false. -/
  | ff
  /-- Neither the literal nor its negation is true. -/
  | unassigned
  /-- The literal is true. -/
  | tt
deriving DecidableEq, Repr

namespace Value

instance : Inhabited Value := ⟨unassigned⟩

/-- The assigned value that agrees with a truth value. -/
def ofBool : Bool → Value
  | true => tt
  | false => ff

/-- The truth value of an assigned value. -/
def toBool? : Value → Option Bool
  | tt => some true
  | ff => some false
  | unassigned => none

/-- The value of the opposite literal. -/
def negate : Value → Value
  | ff => tt
  | unassigned => unassigned
  | tt => ff

instance : Neg Value := ⟨negate⟩

/-- Whether the value is `tt`. -/
def isTrue : Value → Bool
  | tt => true
  | _ => false

/-- Whether the value is `ff`. -/
def isFalse : Value → Bool
  | ff => true
  | _ => false

/-- Whether the value is a truth value. -/
def isAssigned : Value → Bool
  | unassigned => false
  | _ => true

/-- The sign of the value: one if true, minus one if false, and zero if not assigned. -/
def sign : Value → Int
  | ff => -1
  | unassigned => 0
  | tt => 1

/-- The text of a value. -/
def text : Value → String
  | ff => "false"
  | unassigned => "unassigned"
  | tt => "true"

instance : ToString Value := ⟨text⟩

@[simp] theorem negate_negate (v : Value) : -(-v) = v := by cases v <;> rfl

@[simp] theorem toBool?_ofBool (b : Bool) : (ofBool b).toBool? = some b := by cases b <;> rfl

@[simp] theorem ofBool_not (b : Bool) : ofBool (!b) = -ofBool b := by cases b <;> rfl

end Value

end ClauseLearning
