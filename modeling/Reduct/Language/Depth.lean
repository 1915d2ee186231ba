import Reduct.Fault

/-!
# Ellipsis depths

The depth of an occurrence is the number of repetitions around it. All occurrences of a bound
symbol in one pattern have to be at the same depth.
-/

namespace Reduct

/-- The ellipsis depth of every bound symbol. -/
abbrev Depths := Table Nat

namespace Pattern

/-- Note an occurrence of a symbol at a depth. -/
def noteDepth (symbol : Symbol) (depth : Nat) (depths : Depths) : Except Fault Depths :=
  match depths.find? symbol with
  | none => .ok (depths.insert symbol depth)
  | some first =>
    if first = depth then .ok depths
    else .error (.unlocated (.depthMismatch symbol first depth))

mutual

/-- Note the occurrences of a pattern that stands under `depth` repetitions. -/
def depthsFrom (depth : Nat) : Pattern → Depths → Except Fault Depths
  | .sequence items, depths => depthsFromAll depth items depths
  | .repeated inner _, depths => inner.depthsFrom (depth + 1) depths
  | .inHole context contents _, depths => do
    let depths ← context.depthsFrom depth depths
    contents.depthsFrom depth depths
  | .nonTerminal _ symbol, depths => noteDepth symbol depth depths
  | .builtIn kind symbol, depths =>
    if kind.isBindable then noteDepth symbol depth depths else .ok depths
  | .literal _, depths => .ok depths
  | .check _, depths => .ok depths
  | .unresolved _, depths => .ok depths

/-- Note the occurrences of patterns that stand under `depth` repetitions, from left to right. -/
def depthsFromAll (depth : Nat) : List Pattern → Depths → Except Fault Depths
  | [], depths => .ok depths
  | item :: rest, depths => do
    let depths ← item.depthsFrom depth depths
    depthsFromAll depth rest depths

end

/-- The depth of every bound symbol. -/
def depths (pattern : Pattern) : Except Fault Depths := pattern.depthsFrom 0 .empty

end Pattern

end Reduct
