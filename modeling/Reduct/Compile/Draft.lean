import Reduct.Code
import Reduct.Fault
import Reduct.Term

/-!
# The module under construction

A draft holds the functions compiled so far, the constants they read, and the counters of fresh
names. Equal patterns of a language share one matcher and a non-terminal has one predicate; a
name is reserved before its body is compiled, so recursive grammars come to an end. A failure
leaves the draft as it stands.
-/

namespace Reduct

/-- The state of a compilation. -/
structure Draft where
  /-- The terms that code reads as constants, in the order of their names. -/
  constants : List Term
  /-- The definitions of the finished functions, in order. -/
  functions : List Statement
  /-- The matcher reserved for a pattern of a language. -/
  matchers : List ((Symbol × Pattern) × Symbol)
  /-- The predicate reserved for a non-terminal of a language. -/
  predicates : List ((Symbol × Symbol) × Symbol)
  /-- The constant that holds the literal variables of a language. -/
  mentioned : Table Symbol
  /-- The number of function names given out. -/
  nameCount : Nat
  /-- The number of local names given out. -/
  localCount : Nat

/-- A step of a compilation. -/
abbrev Drafting := ExceptT Fault (StateM Draft)

namespace Draft

/-- Nothing compiled yet. -/
def empty : Draft := ⟨[], [], [], [], .empty, 0, 0⟩

/-- The name of the constant at a position. -/
def constantName (index : Nat) : Symbol := "lit" ++ toString index

/-- The statement that reads the constant at a position. -/
def constantStatement (index : Nat) (term : Term) : Statement :=
  .assign (constantName index) (.primitive .readTerm [.string term.text])

/-- The constants followed by the functions. -/
def statements (draft : Draft) : List Statement :=
  draft.constants.mapIdx constantStatement ++ draft.functions

/-- The value under a key in a list of pairs. -/
def lookupIn {κ : Type} [DecidableEq κ] (key : κ) (entries : List (κ × Symbol)) : Option Symbol :=
  (entries.find? fun entry => entry.1 = key).map (·.2)

/-- A fresh name for a function of a kind, with a hint for readers. -/
def freshFunction (kind hint : String) : Drafting Symbol := do
  let draft ← get
  set { draft with nameCount := draft.nameCount + 1 }
  let number := toString draft.nameCount
  let plain := Symbol.mangle hint
  pure (if plain.isEmpty then kind ++ "_" ++ number else kind ++ "_" ++ plain ++ "_" ++ number)

/-- A fresh name for a local variable. -/
def freshLocal (hint : String) : Drafting Symbol := do
  let draft ← get
  set { draft with localCount := draft.localCount + 1 }
  pure (hint ++ toString draft.localCount)

/-- The constant that holds a term. -/
def constant (term : Term) : Drafting Symbol := do
  let draft ← get
  match draft.constants.findIdx? fun known => known = term with
  | some index => pure (constantName index)
  | none =>
    set { draft with constants := draft.constants ++ [term] }
    pure (constantName draft.constants.length)

/-- Add a finished function. -/
def addFunction (name : Symbol) (parameters : List Symbol) (body : List Statement) :
    Drafting Unit :=
  modify fun draft => { draft with functions := draft.functions ++ [.define name parameters body] }

/-- The matcher of a pattern of a language. The name is taken from `kind` and `hint`, and the
body is compiled only when the pattern is new. -/
def sharedMatcher (language : Symbol) (pattern : Pattern) (kind hint : String)
    (parameters : List Symbol) (body : Drafting (List Statement)) : Drafting Symbol := do
  let draft ← get
  match lookupIn (language, pattern) draft.matchers with
  | some name => pure name
  | none =>
    let name ← freshFunction kind hint
    modify fun draft => { draft with matchers := ((language, pattern), name) :: draft.matchers }
    let statements ← body
    addFunction name parameters statements
    pure name

/-- The predicate reserved for a non-terminal of a language, if there is one. -/
def predicate? (language nonTerminal : Symbol) : Drafting (Option Symbol) := do
  let draft ← get
  pure (lookupIn (language, nonTerminal) draft.predicates)

/-- Reserve the predicate of a non-terminal of a language. -/
def reservePredicate (language nonTerminal name : Symbol) : Drafting Unit :=
  modify fun draft =>
    { draft with predicates := ((language, nonTerminal), name) :: draft.predicates }

/-- The constant that holds the literal variables of a language. The set is fixed when the
constant is first asked for. -/
def mentionedConstant (language : Symbol) (mentioned : SymbolSet) : Drafting Symbol := do
  let draft ← get
  match draft.mentioned.find? language with
  | some name => pure name
  | none =>
    let name ← constant (.sequence (mentioned.members.map Term.symbol))
    modify fun draft => { draft with mentioned := draft.mentioned.insert language name }
    pure name

end Draft

namespace Statement

/-- Assign the result of a primitive. -/
def assignPrimitive (target : Symbol) (function : Primitive) (arguments : List Operand) :
    Statement :=
  .assign target (.primitive function arguments)

/-- Assign the result of a function. -/
def assignCall (target function : Symbol) (arguments : List Operand) : Statement :=
  .assign target (.call function arguments)

/-- Assign the result of an operation. -/
def assignBinary (target : Symbol) (op : BinaryOp) (left right : Operand) : Statement :=
  .assign target (.binary op left right)

/-- Call a primitive for its effect. -/
def perform (function : Primitive) (arguments : List Operand) : Statement :=
  .effect (.primitive function arguments)

/-- Run a block if a variable holds. -/
def whenTrue (condition : Symbol) (body : List Statement) : Statement :=
  .branch (.name condition) body []

/-- Run a block if a variable does not hold. -/
def whenFalse (condition : Symbol) (body : List Statement) : Statement :=
  .branch (.name condition) [] body

end Statement

end Reduct
