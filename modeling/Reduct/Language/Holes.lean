import Reduct.HoleRange
import Reduct.Language.Shape

/-!
# Holes of patterns

The range of the number of holes of the terms that a pattern matches, given the ranges of the
rules. A rule without a range derives no finite term. The ranges of a grammar are found by going
through the rules until nothing changes; a rule can change at most three times.
-/

namespace Reduct

/-- The hole range of every rule, none for a rule that derives no finite term. -/
abbrev HoleTable := Table (Option HoleRange)

namespace Pattern

mutual

/-- The hole range of a pattern, none if it matches no finite term. -/
def holes (table : HoleTable) : Pattern → Option HoleRange
  | .builtIn .hole _ => some .one
  | .nonTerminal stem _ => (table.find? stem).join
  | .sequence items => holesFrom table .zero items
  -- No repetition at all always gives a finite term.
  | .repeated inner _ => some (((inner.holes table).map HoleRange.repeated).getD .zero)
  -- The one hole of the context is filled by the contents.
  | .inHole _ contents _ => contents.holes table
  | .builtIn _ _ => some .zero
  | .literal _ => some .zero
  | .check _ => some .zero
  | .unresolved _ => some .zero

/-- The hole range of a list of items, added to a given one. -/
def holesFrom (table : HoleTable) (range : HoleRange) : List Pattern → Option HoleRange
  | [] => some range
  | item :: rest =>
    match item.holes table with
    | some found => holesFrom table (range.sum found) rest
    | none => none

end

end Pattern

namespace Grammar

/-- The hull of ranges, none if there is no range. -/
def hullAll : List HoleRange → Option HoleRange
  | [] => none
  | first :: rest => some (rest.foldl HoleRange.hull first)

/-- The hole range of a rule, given those of the others. -/
def ruleHoles (grammar : Grammar) (table : HoleTable) (name : Symbol) : Option HoleRange :=
  hullAll ((grammar.alternativesOf name).filterMap (·.holes table))

/-- Go through the rules once, each seeing the changes before it. -/
def holesRound (grammar : Grammar) (table : HoleTable) : HoleTable :=
  grammar.order.foldl (fun table name => table.insert name (grammar.ruleHoles table name)) table

/-- Go through the rules until nothing changes, at most `fuel` times. -/
def holesLoop (grammar : Grammar) : Nat → HoleTable → HoleTable
  | 0, table => table
  | fuel + 1, table =>
    let next := grammar.holesRound table
    if next = table then table else grammar.holesLoop fuel next

/-- The hole range of every rule. Every round but the last changes a rule, and a rule changes at
most three times. -/
def holeTable (grammar : Grammar) : HoleTable :=
  let start := Table.ofList (grammar.order.map fun name => (name, none))
  grammar.holesLoop (3 * grammar.order.length + 1) start

end Grammar

end Reduct
