import Reduct.Bindings
import Reduct.Code
import Reduct.Fault
import Reduct.Term.Checked

/-!
# Values and the store

Terms are immutable values. Lists and bindings live in a store and are known by their places, so
every holder of a place sees an update; two of them are the same value only if they have one
place. Every pair has an identity of its own too. An operation reads the store and states the
change it makes; `Store.commit` carries it out.
-/

namespace Reduct

/-- A value of running code. -/
inductive Value where
  /-- The value that stands for nothing. -/
  | none
  | bool (value : Bool)
  | int (value : Int64)
  | string (text : String)
  | term (content : Term)
  /-- The bindings at a place of the store. -/
  | bindings (place : Nat)
  /-- The list at a place of the store. -/
  | list (place : Nat)
  /-- A pair with its identity. -/
  | pair (identity : Nat) (first second : Value)

namespace Value

instance : Inhabited Value := ⟨.none⟩

/-- The kinds of values. -/
inductive Kind where
  | none | bool | int | string | term | bindings | list | pair
deriving DecidableEq

/-- The word for a kind of values. -/
def Kind.name : Kind → String
  | none => "none"
  | bool => "bool"
  | int => "int"
  | string => "str"
  | term => "term"
  | bindings => "match"
  | list => "list"
  | pair => "pair"

/-- The kind of a value. -/
def kind : Value → Kind
  | none => .none
  | bool _ => .bool
  | int _ => .int
  | string _ => .string
  | term _ => .term
  | bindings _ => .bindings
  | list _ => .list
  | pair .. => .pair

/-- Whether two values are the same: equal constants or terms, or one place or identity. -/
def same : Value → Value → Bool
  | none, none => true
  | bool left, bool right => left == right
  | int left, int right => decide (left = right)
  | string left, string right => decide (left = right)
  | term left, term right => decide (left = right)
  | bindings left, bindings right => left == right
  | list left, list right => left == right
  | pair left _ _, pair right _ _ => left == right
  | _, _ => false

end Value

/-- Why running code fails. -/
inductive EvalError where
  /-- An operation on terms fails. -/
  | term (cause : TermError)
  /-- The code raises a message. -/
  | raised (message : String)
  /-- A host function reports a failure. -/
  | foreign (function : Symbol) (message : String)
  | undefinedVariable (name : Symbol)
  | unknownFunction (name : Symbol)
  | wrongArgumentCount (function : Symbol) (expected found : Nat)
  /-- A value has another kind than is needed. -/
  | typeMismatch (expected : String) (found : Value.Kind)
  | invalidOperation (op : BinaryOp) (left right : Value.Kind)
  /-- A sum or difference does not fit in 64 bits. -/
  | overflow
  | leaveOutsideLoop
  /-- A string does not write a term. -/
  | unreadable (cause : Cause)
  /-- A call would exceed the limit of nested calls. -/
  | stackOverflow (limit : Nat)

/-- The name of a failure, for programs that tell failures apart. -/
def EvalError.name : EvalError → String
  | term cause => cause.name
  | raised .. => "Raised"
  | foreign .. => "Foreign"
  | undefinedVariable .. => "UndefinedVariable"
  | unknownFunction .. => "UnknownFunction"
  | wrongArgumentCount .. => "WrongArgCount"
  | typeMismatch .. => "TypeMismatch"
  | invalidOperation .. => "InvalidBinaryOp"
  | overflow => "Overflow"
  | leaveOutsideLoop => "BreakOutsideLoop"
  | unreadable .. => "ReadTerm"
  | stackOverflow .. => "StackOverflow"

/-- The words for a failure. -/
def EvalError.message : EvalError → String
  | term cause => cause.message
  | raised message => message
  | foreign function message => s!"foreign function `{function}` failed: {message}"
  | undefinedVariable name => s!"undefined variable `{name}`"
  | unknownFunction name => s!"unknown function `{name}`"
  | wrongArgumentCount function expected found =>
    s!"`{function}` takes {expected} argument(s), got {found}"
  | typeMismatch expected found => "expected " ++ expected ++ ", found " ++ found.name
  | invalidOperation op left right =>
    "cannot apply `" ++ op.text ++ "` to " ++ left.name ++ " and " ++ right.name
  | overflow => "integer overflow"
  | leaveOutsideLoop => "`break` outside of a loop"
  | unreadable cause => "cannot read term literal: " ++ cause.message
  | stackOverflow limit => s!"maximum recursion depth of {limit} exceeded"

/-- Why a run stops without a value. -/
inductive Failure where
  /-- The code fails, and the calls under way end with it. -/
  | error (cause : EvalError)
  /-- Bindings are used out of turn, and the calls under way are abandoned. -/
  | misuse (cause : Misuse)
  /-- The budget of steps is used up, or a list has no room for more values. -/
  | exhausted

/-- The words for the end of a run. -/
def Failure.message : Failure → String
  | error cause => cause.message
  | misuse cause => cause.message
  | exhausted => "the budget of steps or of memory is used up"

/-- What a place of the store holds. -/
inductive Cell where
  | bindings (content : Bindings)
  | list (items : Array Value)

instance : Inhabited Cell := ⟨.list #[]⟩

/-- The lists and bindings made so far. -/
structure Store where
  cells : Array Cell
  /-- The number of pairs made so far. -/
  pairCount : Nat

/-- A change of the store, and the value that comes of it. -/
inductive Change where
  /-- No change. -/
  | keep (value : Value)
  /-- New bindings. -/
  | newBindings (content : Bindings)
  /-- A new list. -/
  | newList (items : List Value)
  /-- A new pair. -/
  | newPair (first second : Value)
  /-- A new list of new pairs. -/
  | newPairs (pairs : List (Value × Value))
  /-- Other bindings at a place. -/
  | setBindings (place : Nat) (content : Bindings)
  /-- More values at the end of the list at a place. -/
  | extend (place : Nat) (items : List Value)

namespace Store

/-- Nothing made yet. -/
def empty : Store := ⟨#[], 0⟩

instance : Inhabited Store := ⟨empty⟩

/-- The bindings at a place. -/
def bindings? (store : Store) (place : Nat) : Option Bindings :=
  match store.cells[place]? with
  | some (.bindings content) => some content
  | _ => none

/-- The list at a place. -/
def list? (store : Store) (place : Nat) : Option (Array Value) :=
  match store.cells[place]? with
  | some (.list items) => some items
  | _ => none

/-- A new cell at the next place. -/
def allocate (cells : Array Cell) (pairCount : Nat) (cell : Cell) (toValue : Nat → Value) :
    Value × Store :=
  (toValue cells.size, ⟨cells.push cell, pairCount⟩)

/-- Add values to the end of a list. -/
def extendCell (items : List Value) : Cell → Cell
  | .list old => .list (items.foldl Array.push old)
  | other => other

/-- Pairs with the identities from a number on. -/
def numberPairs (first : Nat) : List (Value × Value) → List Value
  | [] => []
  | (left, right) :: rest => .pair first left right :: numberPairs (first + 1) rest

/-- Carry out a change. -/
def commit : Store → Change → Value × Store
  | store, .keep value => (value, store)
  | ⟨cells, pairCount⟩, .newBindings content =>
    allocate cells pairCount (.bindings content) Value.bindings
  | ⟨cells, pairCount⟩, .newList items =>
    allocate cells pairCount (.list items.toArray) Value.list
  | ⟨cells, pairCount⟩, .newPair first second =>
    (.pair pairCount first second, ⟨cells, pairCount + 1⟩)
  | ⟨cells, pairCount⟩, .newPairs pairs =>
    allocate cells (pairCount + pairs.length)
      (.list (numberPairs pairCount pairs).toArray) Value.list
  | ⟨cells, pairCount⟩, .setBindings place content =>
    (.none, ⟨cells.setIfInBounds place (.bindings content), pairCount⟩)
  | ⟨cells, pairCount⟩, .extend place items =>
    (.none, ⟨cells.modify place (extendCell items), pairCount⟩)

/-- The levels of lists and pairs that a value can have, unless a list holds itself. -/
def depthBound (store : Store) : Nat := store.cells.size + store.pairCount + 1

end Store

namespace Value

/-- A value of another kind than is needed. -/
def mismatch {α : Type} (expected : String) (value : Value) : Except EvalError α :=
  .error (.typeMismatch expected value.kind)

/-- The truth value that is needed. -/
def toBool : Value → Except EvalError Bool
  | bool value => .ok value
  | other => mismatch "bool" other

/-- The integer that is needed. -/
def toInt : Value → Except EvalError Int64
  | int value => .ok value
  | other => mismatch "int" other

/-- The position or count that is needed. -/
def toIndex : Value → Except EvalError Nat
  | int value =>
    if 0 ≤ value then .ok value.toInt.toNat else mismatch "non-negative int" (int value)
  | other => mismatch "int" other

/-- The string that is needed. -/
def toText : Value → Except EvalError String
  | string text => .ok text
  | other => mismatch "str" other

/-- The term that is needed. -/
def toTerm : Value → Except EvalError Term
  | term content => .ok content
  | other => mismatch "term" other

/-- The place of the bindings that are needed, and what they are. -/
def toBindings (store : Store) : Value → Except EvalError (Nat × Bindings)
  | bindings place => .ok (place, (store.bindings? place).getD .empty)
  | other => mismatch "match" other

/-- The place of the list that is needed, and what it holds. -/
def toList (store : Store) : Value → Except EvalError (Nat × Array Value)
  | list place => .ok (place, (store.list? place).getD #[])
  | other => mismatch "list" other

/-- The components of the pair that is needed. -/
def toPair : Value → Except EvalError (Value × Value)
  | pair _ first second => .ok (first, second)
  | other => mismatch "pair" other

/-- The terms of the list that is needed. -/
def toTerms (store : Store) (value : Value) : Except EvalError (List Term) := do
  let (_, items) ← value.toList store
  items.toList.mapM toTerm

/-- The matches of the list that is needed. -/
def toMatches (store : Store) (value : Value) : Except EvalError (List Bindings) := do
  let (_, items) ← value.toList store
  items.toList.mapM fun item => (item.toBindings store).map (·.2)

/-- The written form of a value with at most `fuel` levels of lists and pairs. -/
def textWith (store : Store) : Nat → Value → String
  | _, none => "None"
  | _, bool true => "True"
  | _, bool false => "False"
  | _, int value => toString value.toInt
  | _, string text => text
  | _, term content => content.text
  | _, bindings place => ((store.bindings? place).getD .empty).text
  | 0, list _ => "[...]"
  | 0, pair .. => "(...)"
  | fuel + 1, list place =>
    let items := ((store.list? place).getD #[]).toList
    "[" ++ Text.join ", " (items.map (textWith store fuel)) ++ "]"
  | fuel + 1, pair _ first second =>
    "(" ++ textWith store fuel first ++ ", " ++ textWith store fuel second ++ ")"

/-- The written form of a value. -/
def text (store : Store) (value : Value) : String := textWith store store.depthBound value

end Value

end Reduct
