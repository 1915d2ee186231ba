import Reduct.Atom

/-!
# Terms

A term is an atom, the hole, or a sequence of terms. Patterns are matched against terms and
templates build them. Equality is structural and decidable.
-/

namespace Reduct

/-- The data of the language: atoms, the hole and sequences. -/
inductive Term where
  /-- An atom; a symbol is a variable. -/
  | atom (value : Atom)
  /-- The place that a context leaves open. -/
  | hole
  /-- A sequence of terms. -/
  | sequence (items : List Term)

namespace Term

instance : Inhabited Term := ⟨.hole⟩

mutual

/-- Whether two terms are equal, with the reason. -/
def decideEq : (left right : Term) → Decidable (left = right)
  | .atom first, .atom second =>
    if same : first = second then isTrue (by rw [same])
    else isFalse (by intro equal; injection equal; contradiction)
  | .hole, .hole => isTrue rfl
  | .sequence first, .sequence second =>
    match decideEqAll first second with
    | isTrue same => isTrue (by rw [same])
    | isFalse differ => isFalse (by intro equal; injection equal; contradiction)
  | .atom _, .hole => isFalse nofun
  | .atom _, .sequence _ => isFalse nofun
  | .hole, .atom _ => isFalse nofun
  | .hole, .sequence _ => isFalse nofun
  | .sequence _, .atom _ => isFalse nofun
  | .sequence _, .hole => isFalse nofun

/-- Whether two lists of terms are equal, with the reason. -/
def decideEqAll : (left right : List Term) → Decidable (left = right)
  | [], [] => isTrue rfl
  | [], _ :: _ => isFalse nofun
  | _ :: _, [] => isFalse nofun
  | first :: left, second :: right =>
    match decideEq first second with
    | isFalse differ => isFalse (by intro equal; injection equal; contradiction)
    | isTrue same =>
      match decideEqAll left right with
      | isTrue rest => isTrue (by rw [same, rest])
      | isFalse differ => isFalse (by intro equal; injection equal; contradiction)

end

instance : DecidableEq Term := decideEq

/-- The term of a variable. -/
def symbol (name : Symbol) : Term := .atom (.symbol name)

/-- The term of an integer. -/
def integer (value : Int64) : Term := .atom (.integer value)

/-- The kinds of terms. -/
inductive Kind where
  | symbol | integer | float | string | boolean | hole | sequence
deriving DecidableEq

/-- The word for a kind of terms. -/
def Kind.name : Kind → String
  | symbol => "variable"
  | integer => "integer"
  | float => "float"
  | string => "string"
  | boolean => "boolean"
  | hole => "hole"
  | sequence => "sequence"

/-- The kind of a term. -/
def kind : Term → Kind
  | .atom (.symbol _) => .symbol
  | .atom (.integer _) => .integer
  | .atom (.float _) => .float
  | .atom (.string _) => .string
  | .atom (.boolean _) => .boolean
  | .hole => .hole
  | .sequence _ => .sequence

/-- The children of a sequence. -/
def children? : Term → Option (List Term)
  | .sequence items => some items
  | _ => none

/-- Whether the term is an integer or a double-precision number. -/
def isNumber : Term → Bool
  | .atom (.integer _) => true
  | .atom (.float _) => true
  | _ => false

/-- Whether the term is an integer that is not negative. -/
def isNatural : Term → Bool
  | .atom (.integer value) => decide (0 ≤ value)
  | _ => false

mutual

/-- The written form of a term. -/
def text : Term → String
  | .atom value => value.text
  | .hole => "hole"
  | .sequence items => "(" ++ Text.spaced (textAll items) ++ ")"

/-- The written forms of a list of terms. -/
def textAll : List Term → List String
  | [] => []
  | term :: rest => term.text :: textAll rest

end

/-- Terms in parentheses, in their order. -/
def listText (terms : List Term) : String := "(" ++ Text.spaced (terms.map text) ++ ")"

/-- The list form of `text` is a map. -/
theorem textAll_eq_map (terms : List Term) : textAll terms = terms.map text := by
  induction terms with
  | nil => rfl
  | cons term rest ih => simp [textAll, ih]

/-- Induction over terms, with a hypothesis for every child of a sequence. -/
theorem induction {motive : Term → Prop} (atom : ∀ value, motive (.atom value))
    (hole : motive .hole)
    (sequence : ∀ items, (∀ item ∈ items, motive item) → motive (.sequence items)) :
    ∀ term, motive term
  | .atom value => atom value
  | .hole => hole
  | .sequence items => sequence items fun item _ => induction atom hole sequence item

end Term

end Reduct
