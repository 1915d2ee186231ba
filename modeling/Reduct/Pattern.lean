import Reduct.Term
import Reduct.Symbol

/-!
# Patterns

Patterns come from the reader with every bare symbol unresolved. Resolution against a grammar
makes each of them a non-terminal, a built-in pattern or a literal variable; later passes choose
how repetitions are explored and make the equality of repeated variables explicit as checks.
Equality is structural, so equal patterns can share one compiled matcher.
-/

namespace Reduct

/-- The patterns that are known by keyword. -/
inductive BuiltIn where
  /-- An integer or a double-precision number. -/
  | number
  /-- An integer. -/
  | integer
  /-- An integer that is not negative. -/
  | natural
  /-- A double-precision number. -/
  | real
  /-- A string. -/
  | string
  /-- A truth value. -/
  | boolean
  /-- The hole. -/
  | hole
  /-- A variable that is no literal variable of the language. -/
  | variableNotOtherwiseMentioned
  /-- A variable outside a list. -/
  | variableExcept (excluded : List Symbol)
deriving DecidableEq

namespace BuiltIn

/-- The keyword that names a built-in pattern. -/
def keyword : BuiltIn → Symbol
  | number => "number"
  | integer => "integer"
  | natural => "natural"
  | real => "real"
  | string => "string"
  | boolean => "boolean"
  | hole => "hole"
  | variableNotOtherwiseMentioned => "variable-not-otherwise-mentioned"
  | variableExcept _ => "variable-except"

/-- The built-in patterns that are written as a bare keyword. -/
def bare : List BuiltIn :=
  [number, integer, natural, real, string, boolean, hole, variableNotOtherwiseMentioned]

/-- The built-in pattern that a bare keyword names. -/
def ofKeyword? (word : Symbol) : Option BuiltIn := bare.find? fun kind => kind.keyword = word

/-- Whether a match is recorded under a symbol. The hole and `variable-except` only test. -/
def isBindable : BuiltIn → Bool
  | hole => false
  | variableExcept _ => false
  | _ => true

end BuiltIn

/-- How a repetition explores its number of rounds. -/
inductive RepeatMode where
  /-- Every number of rounds is tried. -/
  | exhaustive
  /-- As many rounds as succeed are taken; right only where no other split can succeed. -/
  | greedy
deriving DecidableEq

/-- A test that two bound symbols hold equal terms. -/
structure Check where
  left : Symbol
  right : Symbol
deriving DecidableEq

/-- A pattern. -/
inductive Pattern where
  /-- Matches the one equal term. -/
  | literal (value : Atom)
  /-- Matches what a rule of the grammar derives; `stem` names the rule, `symbol` is bound. -/
  | nonTerminal (stem symbol : Symbol)
  /-- Matches by a test of its kind; `symbol` is bound if the kind is bindable. -/
  | builtIn (kind : BuiltIn) (symbol : Symbol)
  /-- Matches a sequence term, item by item. -/
  | sequence (items : List Pattern)
  /-- Inside a sequence, matches any number of consecutive terms. -/
  | repeated (inner : Pattern) (mode : RepeatMode)
  /-- Matches a term that is a context with its hole filled; the checks relate both sides. -/
  | inHole (context contents : Pattern) (checks : List Check)
  /-- Inside a sequence, matches no term and keeps a match only if the check holds. -/
  | check (test : Check)
  /-- A bare symbol before resolution. -/
  | unresolved (symbol : Symbol)

namespace Pattern

instance : Inhabited Pattern := ⟨.sequence []⟩

mutual

/-- Whether two patterns are equal, with the reason. -/
def decideEq : (left right : Pattern) → Decidable (left = right)
  | .literal first, .literal second =>
    if same : first = second then isTrue (by rw [same])
    else isFalse (by intro equal; injection equal; contradiction)
  | .nonTerminal stem first, .nonTerminal other second =>
    if same : stem = other ∧ first = second then isTrue (by rw [same.1, same.2])
    else isFalse (by intro equal; injection equal with one two; exact same ⟨one, two⟩)
  | .builtIn kind first, .builtIn other second =>
    if same : kind = other ∧ first = second then isTrue (by rw [same.1, same.2])
    else isFalse (by intro equal; injection equal with one two; exact same ⟨one, two⟩)
  | .sequence first, .sequence second =>
    match decideEqAll first second with
    | isTrue same => isTrue (by rw [same])
    | isFalse differ => isFalse (by intro equal; injection equal; contradiction)
  | .repeated first mode, .repeated second other =>
    match decideEq first second with
    | isFalse differ => isFalse (by intro equal; injection equal; contradiction)
    | isTrue same =>
      if modes : mode = other then isTrue (by rw [same, modes])
      else isFalse (by intro equal; injection equal; contradiction)
  | .inHole context contents checks, .inHole context₂ contents₂ checks₂ =>
    match decideEq context context₂ with
    | isFalse differ => isFalse (by intro equal; injection equal; contradiction)
    | isTrue same =>
      match decideEq contents contents₂ with
      | isFalse differ => isFalse (by intro equal; injection equal; contradiction)
      | isTrue within =>
        if tests : checks = checks₂ then isTrue (by rw [same, within, tests])
        else isFalse (by intro equal; injection equal; contradiction)
  | .check first, .check second =>
    if same : first = second then isTrue (by rw [same])
    else isFalse (by intro equal; injection equal; contradiction)
  | .unresolved first, .unresolved second =>
    if same : first = second then isTrue (by rw [same])
    else isFalse (by intro equal; injection equal; contradiction)
  | .literal _, .nonTerminal .. | .literal _, .builtIn .. | .literal _, .sequence _
  | .literal _, .repeated .. | .literal _, .inHole .. | .literal _, .check _
  | .literal _, .unresolved _ => isFalse nofun
  | .nonTerminal .., .literal _ | .nonTerminal .., .builtIn .. | .nonTerminal .., .sequence _
  | .nonTerminal .., .repeated .. | .nonTerminal .., .inHole .. | .nonTerminal .., .check _
  | .nonTerminal .., .unresolved _ => isFalse nofun
  | .builtIn .., .literal _ | .builtIn .., .nonTerminal .. | .builtIn .., .sequence _
  | .builtIn .., .repeated .. | .builtIn .., .inHole .. | .builtIn .., .check _
  | .builtIn .., .unresolved _ => isFalse nofun
  | .sequence _, .literal _ | .sequence _, .nonTerminal .. | .sequence _, .builtIn ..
  | .sequence _, .repeated .. | .sequence _, .inHole .. | .sequence _, .check _
  | .sequence _, .unresolved _ => isFalse nofun
  | .repeated .., .literal _ | .repeated .., .nonTerminal .. | .repeated .., .builtIn ..
  | .repeated .., .sequence _ | .repeated .., .inHole .. | .repeated .., .check _
  | .repeated .., .unresolved _ => isFalse nofun
  | .inHole .., .literal _ | .inHole .., .nonTerminal .. | .inHole .., .builtIn ..
  | .inHole .., .sequence _ | .inHole .., .repeated .. | .inHole .., .check _
  | .inHole .., .unresolved _ => isFalse nofun
  | .check _, .literal _ | .check _, .nonTerminal .. | .check _, .builtIn ..
  | .check _, .sequence _ | .check _, .repeated .. | .check _, .inHole ..
  | .check _, .unresolved _ => isFalse nofun
  | .unresolved _, .literal _ | .unresolved _, .nonTerminal .. | .unresolved _, .builtIn ..
  | .unresolved _, .sequence _ | .unresolved _, .repeated .. | .unresolved _, .inHole ..
  | .unresolved _, .check _ => isFalse nofun

/-- Whether two lists of patterns are equal, with the reason. -/
def decideEqAll : (left right : List Pattern) → Decidable (left = right)
  | [], [] => isTrue rfl
  | [], _ :: _ => isFalse nofun
  | _ :: _, [] => isFalse nofun
  | first :: left, second :: right =>
    match decideEq first second with
    | isFalse differ => isFalse (by intro equal; injection equal; contradiction)
    | isTrue same =>
      match decideEqAll left right with
      | isTrue rest => isTrue (by rw [same, rest])
      | isFalse differ => isFalse (by intro equal; injection equal; contradiction)

end

instance : DecidableEq Pattern := decideEq

/-- The symbol that a leaf binds. -/
def bindingSymbol? : Pattern → Option Symbol
  | .nonTerminal _ symbol => some symbol
  | .builtIn kind symbol => if kind.isBindable then some symbol else none
  | _ => none

/-- Whether the pattern takes exactly one term of its sequence. A repetition takes any number
and a check none. -/
def isFixedWidth : Pattern → Bool
  | .repeated .. => false
  | .check _ => false
  | _ => true

/-- Whether the pattern is a check. -/
def isCheck : Pattern → Bool
  | .check _ => true
  | _ => false

/-- Add a symbol at the end of a list, unless it is there. -/
def addOnce (symbols : List Symbol) (symbol : Symbol) : List Symbol :=
  if symbol ∈ symbols then symbols else symbols ++ [symbol]

mutual

/-- The occurrences of bound symbols, from left to right. -/
def occurrences : Pattern → List Symbol
  | .sequence items => occurrencesAll items
  | .repeated inner _ => inner.occurrences
  | .inHole context contents _ => context.occurrences ++ contents.occurrences
  | leaf => leaf.bindingSymbol?.toList

/-- The occurrences of bound symbols of a list of patterns, from left to right. -/
def occurrencesAll : List Pattern → List Symbol
  | [] => []
  | item :: rest => item.occurrences ++ occurrencesAll rest

end

/-- The bound symbols, each once, in the order of their first occurrences. -/
def boundSymbols (pattern : Pattern) : List Symbol := pattern.occurrences.foldl addOnce []

mutual

/-- Whether a bare symbol remains. -/
def hasUnresolved : Pattern → Bool
  | .unresolved _ => true
  | .sequence items => anyUnresolved items
  | .repeated inner _ => inner.hasUnresolved
  | .inHole context contents _ => context.hasUnresolved || contents.hasUnresolved
  | _ => false

/-- Whether a bare symbol remains in one of the patterns. -/
def anyUnresolved : List Pattern → Bool
  | [] => false
  | item :: rest => item.hasUnresolved || anyUnresolved rest

end

mutual

/-- The written form of a pattern. -/
def text : Pattern → String
  | .literal value => value.text
  | .nonTerminal _ symbol => symbol
  | .builtIn (.variableExcept excluded) _ =>
    "(" ++ Text.spaced ("variable-except" :: excluded) ++ ")"
  | .builtIn _ symbol => symbol
  | .sequence items => "(" ++ Text.spaced (textAll items) ++ ")"
  | .repeated inner _ => inner.text ++ " ..."
  | .inHole context contents _ => "(in-hole " ++ context.text ++ " " ++ contents.text ++ ")"
  | .check test => "#check(" ++ test.left ++ " " ++ test.right ++ ")"
  | .unresolved symbol => symbol

/-- The written forms of a list of patterns. -/
def textAll : List Pattern → List String
  | [] => []
  | item :: rest => item.text :: textAll rest

end

end Pattern

end Reduct
