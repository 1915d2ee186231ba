import Reduct.Pattern

/-!
# Shapes and provable difference

The shapes of a non-terminal are the built-in patterns, literals and sequences that its rule
reaches through alternatives that are themselves non-terminals. Two patterns are provably
different when no shape of one overlaps a shape of the other; then no term matches both. The
test may fail to see a difference, and gives up on sequences nested too deeply.
-/

namespace Reduct

/-- The resolved rules of a grammar. -/
structure Grammar where
  /-- The names of the rules, in the order of their definitions. -/
  order : List Symbol
  /-- The alternatives of every rule. -/
  alternatives : Table (List Pattern)

namespace Grammar

/-- The grammar of a list of rules. -/
def ofRules (rules : List (Symbol × List Pattern)) : Grammar :=
  ⟨rules.map (·.1), Table.ofList rules⟩

/-- The alternatives of a rule, none when there is no such rule. -/
def alternativesOf (grammar : Grammar) (name : Symbol) : List Pattern :=
  (grammar.alternatives.find? name).getD []

end Grammar

/-- One sort of terms that a pattern matches. -/
inductive Shape where
  | builtIn (kind : BuiltIn) (symbol : Symbol)
  | literal (value : Atom)
  | sequence (items : List Pattern)
  /-- Any term, as far as the test can tell. -/
  | any
deriving DecidableEq

namespace Pattern

/-- The shapes of a pattern other than a non-terminal. -/
def leafShapes : Pattern → List Shape
  | .builtIn kind symbol => [.builtIn kind symbol]
  | .literal value => [.literal value]
  | .sequence items => [.sequence items]
  | .check _ => []
  | _ => [.any]

end Pattern

namespace Grammar

/-- Add a shape at the end of a list, unless it is there. -/
def addShape (shapes : List Shape) (shape : Shape) : List Shape :=
  if shape ∈ shapes then shapes else shapes ++ [shape]

/-- Add the shapes of a rule to a list. `visiting` holds the rules on the way to this one, and
`fuel` bounds their number. -/
def collectShapes (grammar : Grammar) :
    (fuel : Nat) → (visiting : List Symbol) → List Shape → Symbol → List Shape
  | 0, _, shapes, _ => shapes
  | fuel + 1, visiting, shapes, name =>
    if name ∈ visiting then shapes
    else
      (grammar.alternativesOf name).foldl
        (fun shapes alternative =>
          match alternative with
          | .nonTerminal stem _ => grammar.collectShapes fuel (name :: visiting) shapes stem
          | other => other.leafShapes.foldl addShape shapes)
        shapes

/-- The shapes of a rule, in the order in which they are first met. The rules on one way are
distinct, so there are no more of them than rules, and one step more for a name without a
rule. -/
def shapes (grammar : Grammar) (name : Symbol) : List Shape :=
  grammar.collectShapes (grammar.alternatives.size + 1) [] [] name

end Grammar

/-- The shapes of every rule of a grammar. -/
structure Closures where
  table : Table (List Shape)

namespace Closures

/-- The shapes of every rule. -/
def ofGrammar (grammar : Grammar) : Closures :=
  ⟨Table.ofList (grammar.alternatives.keys.map fun name => (name, grammar.shapes name))⟩

/-- The shapes of a rule, none when there is no such rule. -/
def shapesOf (closures : Closures) (name : Symbol) : List Shape :=
  (closures.table.find? name).getD []

/-- The shapes of a pattern. -/
def patternShapes (closures : Closures) : Pattern → List Shape
  | .nonTerminal stem _ => closures.shapesOf stem
  | other => other.leafShapes

end Closures

namespace BuiltIn

/-- Whether the kind is one of numbers. -/
def isNumeric : BuiltIn → Bool
  | number => true
  | integer => true
  | natural => true
  | real => true
  | _ => false

/-- Whether the kind is one of variables. -/
def isVariable : BuiltIn → Bool
  | variableNotOtherwiseMentioned => true
  | variableExcept _ => true
  | _ => false

/-- Whether some term may match both kinds. -/
def overlaps (left right : BuiltIn) : Bool :=
  if left.keyword = right.keyword then true
  else
    match left, right with
    | number, other => other.isNumeric
    | other, number => other.isNumeric
    | integer, natural => true
    | natural, integer => true
    | _, _ => left.isVariable && right.isVariable

/-- Whether a literal may match a kind. `mentioned` holds the literal variables known so far. -/
def admits (mentioned : SymbolSet) : BuiltIn → Atom → Bool
  | number, .integer _ => true
  | integer, .integer _ => true
  | natural, .integer value => decide (0 ≤ value)
  | number, .float _ => true
  | real, .float _ => true
  | string, .string _ => true
  | boolean, .boolean _ => true
  | variableNotOtherwiseMentioned, .symbol name => !mentioned.contains name
  | variableExcept excluded, .symbol name => !decide (name ∈ excluded)
  | _, _ => false

end BuiltIn

namespace Closures

/-- Whether the items of two sequences may match the same terms, given a test for items. The
lengths have to fit, and the fixed items at the start and at the end line up. -/
def sequencesOverlap (different : Pattern → Pattern → Bool) (left right : List Pattern) : Bool :=
  let first := left.filter fun item => !item.isCheck
  let second := right.filter fun item => !item.isCheck
  let firstFixed := (first.filter (·.isFixedWidth)).length
  let secondFixed := (second.filter (·.isFixedWidth)).length
  let firstOpen := decide (firstFixed < first.length)
  let secondOpen := decide (secondFixed < second.length)
  let lengthsFit :=
    match firstOpen, secondOpen with
    | false, false => decide (first.length = second.length)
    | false, true => decide (secondFixed ≤ first.length)
    | true, false => decide (firstFixed ≤ second.length)
    | true, true => true
  let aligned (items others : List Pattern) : Bool :=
    ((items.zip others).takeWhile fun pair => pair.1.isFixedWidth && pair.2.isFixedWidth).all
      fun pair => !different pair.1 pair.2
  lengthsFit && aligned first second && aligned first.reverse second.reverse

/-- Whether no term matches both patterns, given a test for shapes. -/
def differentBy (closures : Closures) (overlaps : Shape → Shape → Bool) (left right : Pattern) :
    Bool :=
  (closures.patternShapes left).all fun first =>
    (closures.patternShapes right).all fun second => !overlaps first second

/-- Whether some term may have both shapes. Sequences are compared down to `fuel` levels. -/
def shapesOverlap (closures : Closures) (mentioned : SymbolSet) : Nat → Shape → Shape → Bool
  | _, .any, _ => true
  | _, _, .any => true
  | _, .builtIn left _, .builtIn right _ => left.overlaps right
  | _, .builtIn kind _, .literal value => kind.admits mentioned value
  | _, .literal value, .builtIn kind _ => kind.admits mentioned value
  | _, .literal left, .literal right => decide (left = right)
  | 0, .sequence _, .sequence _ => true
  | fuel + 1, .sequence left, .sequence right =>
    sequencesOverlap (closures.differentBy (closures.shapesOverlap mentioned fuel)) left right
  | _, .sequence _, _ => false
  | _, _, .sequence _ => false

/-- The levels of nested sequences that are compared. -/
def comparedLevels : Nat := 8

/-- Whether it can be shown that no term matches both patterns. -/
def provablyDifferent (closures : Closures) (mentioned : SymbolSet) (left right : Pattern) : Bool :=
  closures.differentBy (closures.shapesOverlap mentioned comparedLevels) left right

end Closures

end Reduct
