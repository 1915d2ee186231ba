import Reduct.Machine.Value
import Reduct.Sexp

/-!
# Primitives and operations

What each primitive and each operation on two values does. Arguments are checked in the order
in which the primitive needs them. The case for a wrong number of arguments comes last.
-/

namespace Reduct

/-- The integer of a length. -/
def Value.ofLength (length : Nat) : Value := .int (wordOfCount length)

namespace Primitive

/-- A result of the term operations. -/
def ofTerm {α : Type} : Except TermError α → Except Failure α
  | .ok value => .ok value
  | .error error => .error (.error (.term error))

/-- A result of an argument check. -/
def ofCheck {α : Type} : Except EvalError α → Except Failure α
  | .ok value => .ok value
  | .error error => .error (.error error)

/-- A result of the operations on bindings. -/
def ofBindings {α : Type} : Except Misuse α → Except Failure α
  | .ok value => .ok value
  | .error misuse => .error (.misuse misuse)

/-- Answer a question about a term. -/
def test (argument : Value) (question : Term → Bool) : Except Failure Change := do
  let term ← ofCheck argument.toTerm
  .ok (.keep (.bool (question term)))

/-- Add values to the list at a place that holds `size` values. No list outgrows the count of its
values. -/
def growList (place size : Nat) (added : List Value) : Except Failure Change :=
  if size + added.length ≤ mostCount then .ok (.extend place added) else .error .exhausted

/-- The change that a primitive makes, given its arguments. -/
def apply (store : Store) : Primitive → List Value → Except Failure Change
  | isSequence, [value] => test value fun term => decide (term.kind = .sequence)
  | sequenceLength, [value] => do
    let term ← ofCheck value.toTerm
    let items ← ofTerm term.children
    .ok (.keep (.ofLength items.length))
  | sequenceGet, [value, position] => do
    let term ← ofCheck value.toTerm
    let index ← ofCheck position.toIndex
    let child ← ofTerm (term.child index)
    .ok (.keep (.term child))
  | wrapTerm, [value] => do
    let term ← ofCheck value.toTerm
    .ok (.keep (.term (.sequence [term])))
  | makeSequence, [value] => do
    let terms ← ofCheck (value.toTerms store)
    .ok (.keep (.term (.sequence terms)))
  | sequenceChildren, [value] => do
    let term ← ofCheck value.toTerm
    let items ← ofTerm term.children
    .ok (.newList (items.map .term))
  | termEqual, [left, right] => do
    let first ← ofCheck left.toTerm
    let second ← ofCheck right.toTerm
    .ok (.keep (.bool (decide (first = second))))
  | isInteger, [value] => test value fun term => decide (term.kind = .integer)
  | isNatural, [value] => test value Term.isNatural
  | isFloat, [value] => test value fun term => decide (term.kind = .float)
  | isNumber, [value] => test value Term.isNumber
  | isString, [value] => test value fun term => decide (term.kind = .string)
  | isBoolean, [value] => test value fun term => decide (term.kind = .boolean)
  | isHole, [value] => test value fun term => decide (term.kind = .hole)
  | isVariable, [value] => test value fun term => decide (term.kind = .symbol)
  | sequenceContains, [value, needle] => do
    let term ← ofCheck value.toTerm
    let wanted ← ofCheck needle.toTerm
    let found ← ofTerm (term.hasChild wanted)
    .ok (.keep (.bool found))
  | subtermPaths, [value] => do
    let term ← ofCheck value.toTerm
    .ok (.newPairs (term.subtermPaths.map fun found => (.term found.1, .term found.2)))
  | replaceAtPath, [value, path, replacement] => do
    let term ← ofCheck value.toTerm
    let steps ← ofCheck path.toTerm
    let inserted ← ofCheck replacement.toTerm
    let result ← ofTerm (term.replaceAt steps inserted)
    .ok (.keep (.term result))
  | plug, [context, contents] => do
    let outer ← ofCheck context.toTerm
    let inner ← ofCheck contents.toTerm
    let result ← ofTerm (outer.plug inner)
    .ok (.keep (.term result))
  | readTerm, [value] => do
    let source ← ofCheck value.toText
    match Term.read source with
    | .ok term => .ok (.keep (.term term))
    | .error fault => .error (.error (.unreadable fault.cause))
  | termToString, [value] => do
    let term ← ofCheck value.toTerm
    .ok (.keep (.string term.text))
  | newMatch, [] => .ok (.newBindings .empty)
  | matchCopy, [value] => do
    let (_, bindings) ← ofCheck (value.toBindings store)
    .ok (.newBindings bindings)
  | matchAdd, [value, name, bound] => do
    let (place, bindings) ← ofCheck (value.toBindings store)
    let symbol ← ofCheck name.toText
    let term ← ofCheck bound.toTerm
    let extended ← ofBindings (bindings.add symbol term)
    .ok (.setBindings place extended)
  | matchIncreaseDepth, [value, name] => do
    let (place, bindings) ← ofCheck (value.toBindings store)
    let symbol ← ofCheck name.toText
    let opened ← ofBindings (bindings.increaseDepth symbol)
    .ok (.setBindings place opened)
  | matchDecreaseDepth, [value, name] => do
    let (place, bindings) ← ofCheck (value.toBindings store)
    let symbol ← ofCheck name.toText
    let closed ← ofBindings (bindings.decreaseDepth symbol)
    .ok (.setBindings place closed)
  | matchGet, [value, name] => do
    let (_, bindings) ← ofCheck (value.toBindings store)
    let symbol ← ofCheck name.toText
    let term ← ofBindings (bindings.get symbol)
    .ok (.keep (.term term))
  | matchRemove, [value, name] => do
    let (place, bindings) ← ofCheck (value.toBindings store)
    let symbol ← ofCheck name.toText
    .ok (.setBindings place (bindings.erase symbol))
  | matchCompare, [value, left, right] => do
    let (_, bindings) ← ofCheck (value.toBindings store)
    let first ← ofCheck left.toText
    let second ← ofCheck right.toText
    .ok (.keep (.bool (bindings.agree first second)))
  | matchMerge, [value, other] => do
    let (_, added) ← ofCheck (other.toBindings store)
    let (place, bindings) ← ofCheck (value.toBindings store)
    let merged ← ofBindings (bindings.merge added)
    .ok (.setBindings place merged)
  | matchSetsEqual, [left, right] => do
    let first ← ofCheck (left.toMatches store)
    let second ← ofCheck (right.toMatches store)
    let equal ← ofBindings (Bindings.sameMatches first second)
    .ok (.keep (.bool equal))
  | matchesToString, [value] => do
    let found ← ofCheck (value.toMatches store)
    .ok (.keep (.string (Bindings.listText found)))
  | newList, [] => .ok (.newList [])
  | listAppend, [list, value] => do
    let (place, items) ← ofCheck (list.toList store)
    growList place items.size [value]
  | listExtend, [list, other] => do
    let (_, added) ← ofCheck (other.toList store)
    let (place, items) ← ofCheck (list.toList store)
    growList place items.size added.toList
  | listLength, [list] => do
    let (_, items) ← ofCheck (list.toList store)
    .ok (.keep (.ofLength items.size))
  | listGet, [list, position] => do
    let index ← ofCheck position.toIndex
    let (_, items) ← ofCheck (list.toList store)
    match items[index]? with
    | some value => .ok (.keep value)
    | none => .error (.error (.term (.indexOutOfBounds index items.size)))
  | makePair, [first, second] => .ok (.newPair first second)
  | termSetsEqual, [left, right] => do
    let first ← ofCheck (left.toTerms store)
    let second ← ofCheck (right.toTerms store)
    .ok (.keep (.bool (sameMembers first second)))
  | termsToString, [value] => do
    let terms ← ofCheck (value.toTerms store)
    .ok (.keep (.string (Term.listText terms)))
  | checkEllipsisCounts, [value, count] => do
    let term ← ofCheck value.toTerm
    let expected ← ofCheck count.toIndex
    let _ ← ofTerm (term.checkCount expected)
    .ok (.keep .none)
  | function, arguments =>
    .error (.error (.wrongArgumentCount function.name function.arity arguments.length))

end Primitive

namespace BinaryOp

/-- The value of a sum or difference, which has to fit in 64 bits. -/
def ofExact (value : Int) : Except EvalError Value :=
  if Int64.minValue.toInt ≤ value ∧ value ≤ Int64.maxValue.toInt then
    .ok (.int (Int64.ofInt value))
  else .error .overflow

/-- The value of an operation on two values. -/
def apply : BinaryOp → Value → Value → Except EvalError Value
  | add, .int left, .int right => ofExact (left.toInt + right.toInt)
  | add, .string left, .string right => .ok (.string (left ++ right))
  | subtract, .int left, .int right => ofExact (left.toInt - right.toInt)
  | less, .int left, .int right => .ok (.bool (decide (left < right)))
  | lessEqual, .int left, .int right => .ok (.bool (decide (left ≤ right)))
  | greater, .int left, .int right => .ok (.bool (decide (right < left)))
  | greaterEqual, .int left, .int right => .ok (.bool (decide (right ≤ left)))
  | equal, left, right => .ok (.bool (left.same right))
  | notEqual, left, right => .ok (.bool (!left.same right))
  | and, .bool left, .bool right => .ok (.bool (left && right))
  | or, .bool left, .bool right => .ok (.bool (left || right))
  | op, left, right => .error (.invalidOperation op left.kind right.kind)

end BinaryOp

end Reduct
