import Reduct.Term.Path

/-!
# Term operations that can fail

Compiled code works on terms through these operations. Each states its failure as a cause; the
words of the messages are in `TermError.message` alone.
-/

namespace Reduct

/-- Why an operation on terms fails. -/
inductive TermError where
  /-- A context has no hole to plug. -/
  | noHole (term : Term)
  /-- A path leads out of a term. -/
  | invalidPath (term : Term) (path : Path)
  /-- Two lists that are walked together differ in length. -/
  | inconsistentCounts (expected found : Nat)
  /-- A term has another kind than the operation takes. -/
  | wrongKind (expected : Term.Kind) (term : Term)
  /-- A position is past the end of a sequence. -/
  | indexOutOfBounds (index length : Nat)
deriving DecidableEq

namespace TermError

/-- The name of a failure, for programs that tell failures apart. -/
def name : TermError → String
  | noHole .. => "NoHole"
  | invalidPath .. => "InvalidPath"
  | inconsistentCounts .. => "InconsistentEllipsisCounts"
  | wrongKind .. => "WrongKind"
  | indexOutOfBounds .. => "IndexOutOfBounds"

/-- The words for a failure. -/
def message : TermError → String
  | noHole term => "plug: no hole in `" ++ term.text ++ "`"
  | invalidPath term path =>
    "path [" ++ Text.join ", " (path.map toString) ++ "] does not address a subterm of `" ++
      term.text ++ "`"
  | inconsistentCounts expected found =>
    s!"inconsistent ellipsis match counts: expected {expected}, found {found}"
  | wrongKind expected term =>
    "expected " ++ expected.name ++ ", found " ++ term.kind.name ++ " `" ++ term.text ++ "`"
  | indexOutOfBounds index length =>
    s!"index {index} out of bounds for sequence of length {length}"

end TermError

namespace Term

/-- The children of a sequence term. -/
def children (term : Term) : Except TermError (List Term) :=
  match term with
  | .sequence items => .ok items
  | other => .error (.wrongKind .sequence other)

/-- The child of a sequence term at a position. -/
def child (term : Term) (index : Nat) : Except TermError Term := do
  let items ← term.children
  match items[index]? with
  | some item => .ok item
  | none => .error (.indexOutOfBounds index items.length)

/-- Whether a sequence term has the given child. -/
def hasChild (term needle : Term) : Except TermError Bool := do
  let items ← term.children
  .ok (decide (needle ∈ items))

/-- The position that an integer term gives. -/
def toIndex (step : Term) : Except TermError Nat :=
  match step with
  | .atom (.integer value) =>
    if 0 ≤ value then .ok value.toInt.toNat else .error (.wrongKind .integer step)
  | other => .error (.wrongKind .integer other)

/-- The path that a sequence of integers gives. -/
def toPath (term : Term) : Except TermError Path := do
  let steps ← term.children
  steps.mapM toIndex

/-- Every subterm paired with its path as a term, the root first. -/
def subtermPaths (term : Term) : List (Term × Term) :=
  term.subterms.map fun found => (found.2, Path.toTerm found.1)

/-- The term with the subterm at a path, given as a term, replaced. -/
def replaceAt (term path replacement : Term) : Except TermError Term := do
  let steps ← path.toPath
  match term.replace? steps replacement with
  | some result => .ok result
  | none => .error (.invalidPath term steps)

/-- The term with its first hole replaced. -/
def plug (context contents : Term) : Except TermError Term :=
  match context.plug? contents with
  | some result => .ok result
  | none => .error (.noHole context)

/-- Fail unless a sequence term has the given number of children. -/
def checkCount (term : Term) (expected : Nat) : Except TermError Unit := do
  let items ← term.children
  if items.length = expected then .ok () else .error (.inconsistentCounts expected items.length)

end Term

end Reduct
