import Reduct.Language.Shape

/-!
# Greedy repetitions

A repetition may take as many rounds as succeed when nothing it could take can also start what
follows: its inner pattern is provably different from every later item up to and including the
first that takes exactly one term. With no such item the sequence has to end where the
repetition stops, and it is greedy too unless its inner pattern is an `in-hole`.
-/

namespace Reduct.Pattern

/-- Whether the pattern is an `in-hole`. -/
def isInHole : Pattern → Bool
  | .inHole .. => true
  | _ => false

/-- How a repetition of `inner` explores, given the items after it. -/
def repeatMode (closures : Closures) (mentioned : SymbolSet) (inner : Pattern) :
    List Pattern → RepeatMode
  | [] => if inner.isInHole then .exhaustive else .greedy
  | .check _ :: rest => repeatMode closures mentioned inner rest
  | .repeated other _ :: rest =>
    if closures.provablyDifferent mentioned inner other then
      repeatMode closures mentioned inner rest
    else .exhaustive
  | fixed :: _ =>
    if closures.provablyDifferent mentioned inner fixed then .greedy else .exhaustive

/-- The items with the mode of every repetition chosen. -/
def chooseModes (closures : Closures) (mentioned : SymbolSet) : List Pattern → List Pattern
  | [] => []
  | .repeated inner _ :: rest =>
    .repeated inner (repeatMode closures mentioned inner rest) ::
      chooseModes closures mentioned rest
  | item :: rest => item :: chooseModes closures mentioned rest

mutual

/-- The pattern with the mode of every repetition in a sequence chosen. -/
def classify (closures : Closures) (mentioned : SymbolSet) : Pattern → Pattern
  | .sequence items =>
    .sequence (chooseModes closures mentioned (classifyAll closures mentioned items))
  | .repeated inner mode => .repeated (inner.classify closures mentioned) mode
  | .inHole context contents checks =>
    .inHole (context.classify closures mentioned) (contents.classify closures mentioned) checks
  | leaf => leaf

/-- The patterns with the mode of every repetition inside them chosen. -/
def classifyAll (closures : Closures) (mentioned : SymbolSet) : List Pattern → List Pattern
  | [] => []
  | item :: rest => item.classify closures mentioned :: classifyAll closures mentioned rest

end

end Reduct.Pattern
