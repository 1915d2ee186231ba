import Reduct.Term

/-!
# Templates

A template says how to build a term from a match. Bare symbols stay undecided until annotation
tells pattern variables from literal variables and metafunction applications from sequences.
-/

namespace Reduct

/-- How the result of a foreign call enters the sequence around it. -/
inductive InsertMode where
  /-- As one element. -/
  | append
  /-- As all of its children. -/
  | splice
deriving DecidableEq

/-- The keyword of a foreign call. -/
def InsertMode.keyword : InsertMode → String
  | append => "foreign-call"
  | splice => "foreign-splice"

/-- A template. -/
inductive Template where
  /-- A constant other than a symbol. -/
  | literal (term : Term)
  /-- A pattern variable or a literal variable. -/
  | symbol (name : Symbol)
  /-- A sequence, or the application of a metafunction. -/
  | sequence (items : List Template)
  /-- One construction per element of the variables under it. -/
  | repeated (inner : Template)
  /-- The context with its hole filled by the contents. -/
  | inHole (context contents : Template)
  /-- The result of a host function. -/
  | foreign (function : Symbol) (arguments : List Template) (mode : InsertMode)

namespace Template

instance : Inhabited Template := ⟨.sequence []⟩

mutual

/-- The written form of a template. -/
def text : Template → String
  | .literal term => term.text
  | .symbol name => name
  | .sequence items => "(" ++ Text.spaced (textAll items) ++ ")"
  | .repeated inner => inner.text ++ " ..."
  | .inHole context contents => "(in-hole " ++ context.text ++ " " ++ contents.text ++ ")"
  | .foreign function arguments mode =>
    "(" ++ Text.spaced (mode.keyword :: function :: textAll arguments) ++ ")"

/-- The written forms of a list of templates. -/
def textAll : List Template → List String
  | [] => []
  | item :: rest => item.text :: textAll rest

end

mutual

/-- Whether two templates are equal, with the reason. -/
def decideEq : (left right : Template) → Decidable (left = right)
  | .literal first, .literal second =>
    if same : first = second then isTrue (by rw [same])
    else isFalse (by intro equal; injection equal; contradiction)
  | .symbol first, .symbol second =>
    if same : first = second then isTrue (by rw [same])
    else isFalse (by intro equal; injection equal; contradiction)
  | .sequence first, .sequence second =>
    match decideEqAll first second with
    | isTrue same => isTrue (by rw [same])
    | isFalse differ => isFalse (by intro equal; injection equal; contradiction)
  | .repeated first, .repeated second =>
    match decideEq first second with
    | isTrue same => isTrue (by rw [same])
    | isFalse differ => isFalse (by intro equal; injection equal; contradiction)
  | .inHole context contents, .inHole context₂ contents₂ =>
    match decideEq context context₂ with
    | isFalse differ => isFalse (by intro equal; injection equal; contradiction)
    | isTrue same =>
      match decideEq contents contents₂ with
      | isTrue within => isTrue (by rw [same, within])
      | isFalse differ => isFalse (by intro equal; injection equal; contradiction)
  | .foreign function arguments mode, .foreign function₂ arguments₂ mode₂ =>
    match decideEqAll arguments arguments₂ with
    | isFalse differ => isFalse (by intro equal; injection equal; contradiction)
    | isTrue same =>
      if called : function = function₂ ∧ mode = mode₂ then
        isTrue (by rw [same, called.1, called.2])
      else isFalse (by intro equal; injection equal with one _ two; exact called ⟨one, two⟩)
  | .literal _, .symbol _ | .literal _, .sequence _ | .literal _, .repeated _
  | .literal _, .inHole .. | .literal _, .foreign .. => isFalse nofun
  | .symbol _, .literal _ | .symbol _, .sequence _ | .symbol _, .repeated _
  | .symbol _, .inHole .. | .symbol _, .foreign .. => isFalse nofun
  | .sequence _, .literal _ | .sequence _, .symbol _ | .sequence _, .repeated _
  | .sequence _, .inHole .. | .sequence _, .foreign .. => isFalse nofun
  | .repeated _, .literal _ | .repeated _, .symbol _ | .repeated _, .sequence _
  | .repeated _, .inHole .. | .repeated _, .foreign .. => isFalse nofun
  | .inHole .., .literal _ | .inHole .., .symbol _ | .inHole .., .sequence _
  | .inHole .., .repeated _ | .inHole .., .foreign .. => isFalse nofun
  | .foreign .., .literal _ | .foreign .., .symbol _ | .foreign .., .sequence _
  | .foreign .., .repeated _ | .foreign .., .inHole .. => isFalse nofun

/-- Whether two lists of templates are equal, with the reason. -/
def decideEqAll : (left right : List Template) → Decidable (left = right)
  | [], [] => isTrue rfl
  | [], _ :: _ => isFalse nofun
  | _ :: _, [] => isFalse nofun
  | first :: left, second :: right =>
    match decideEq first second with
    | isFalse differ => isFalse (by intro equal; injection equal; contradiction)
    | isTrue same =>
      match decideEqAll left right with
      | isTrue rest => isTrue (by rw [same, rest])
      | isFalse differ => isFalse (by intro equal; injection equal; contradiction)

end

instance : DecidableEq Template := decideEq

end Template

end Reduct
