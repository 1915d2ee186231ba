import Reduct.Table

/-!
# Statement code

Compiled specifications are modules of statements. An operand is a variable or a constant, and
an expression holds at most one call or one operation, so nothing nests but blocks. The helpers
that compiled code may call are the primitives, each with a name and a fixed number of
arguments.
-/

namespace Reduct

/-- A variable or a constant. -/
inductive Operand where
  /-- The value of a variable. -/
  | name (symbol : Symbol)
  /-- The value that stands for nothing. -/
  | none
  /-- A truth value. -/
  | bool (value : Bool)
  /-- An integer. -/
  | int (value : Int64)
  /-- A string. -/
  | string (text : String)
deriving DecidableEq

/-- The operations on two operands. -/
inductive BinaryOp where
  | add | subtract | less | lessEqual | equal | notEqual | greaterEqual | greater | and | or
deriving DecidableEq

/-- The written form of an operation. -/
def BinaryOp.text : BinaryOp → String
  | add => "+"
  | subtract => "-"
  | less => "<"
  | lessEqual => "<="
  | equal => "=="
  | notEqual => "!="
  | greaterEqual => ">="
  | greater => ">"
  | and => "and"
  | or => "or"

/-- The helpers that compiled code may call. -/
inductive Primitive where
  /-- Whether a term is a sequence. -/
  | isSequence
  /-- The number of children of a sequence. -/
  | sequenceLength
  /-- The child of a sequence at a position. -/
  | sequenceGet
  /-- A sequence with the term as its only child. -/
  | wrapTerm
  /-- The sequence of a list of terms. -/
  | makeSequence
  /-- The list of the children of a sequence. -/
  | sequenceChildren
  /-- Whether two terms are equal. -/
  | termEqual
  | isInteger
  | isNatural
  | isFloat
  | isNumber
  | isString
  | isBoolean
  | isHole
  | isVariable
  /-- Whether a sequence has the given child. -/
  | sequenceContains
  /-- The list of the pairs of a subterm and its path, in pre-order. -/
  | subtermPaths
  /-- The term with the subterm at a path replaced. -/
  | replaceAtPath
  /-- The context with its first hole filled. -/
  | plug
  /-- The term that a string writes. -/
  | readTerm
  /-- The written form of a term. -/
  | termToString
  /-- New bindings. -/
  | newMatch
  /-- A copy of bindings. -/
  | matchCopy
  /-- Bind a term. -/
  | matchAdd
  /-- Open an ellipsis level. -/
  | matchIncreaseDepth
  /-- Close an ellipsis level. -/
  | matchDecreaseDepth
  /-- The value of a symbol. -/
  | matchGet
  /-- Unbind a symbol. -/
  | matchRemove
  /-- Whether two symbols hold equal terms. -/
  | matchCompare
  /-- Add all bindings of another match. -/
  | matchMerge
  /-- Whether two lists hold the same matches. -/
  | matchSetsEqual
  /-- The written form of a list of matches. -/
  | matchesToString
  /-- A new list. -/
  | newList
  /-- Append a value to a list. -/
  | listAppend
  /-- Append the values of a list to another. -/
  | listExtend
  /-- The number of values of a list. -/
  | listLength
  /-- The value of a list at a position. -/
  | listGet
  /-- A pair of two values. -/
  | makePair
  /-- Whether two lists hold the same terms. -/
  | termSetsEqual
  /-- The written form of a list of terms. -/
  | termsToString
  /-- Fail unless a sequence has the given length. -/
  | checkEllipsisCounts
deriving DecidableEq

namespace Primitive

/-- Every primitive. -/
def all : List Primitive :=
  [isSequence, sequenceLength, sequenceGet, wrapTerm, makeSequence, sequenceChildren, termEqual,
    isInteger, isNatural, isFloat, isNumber, isString, isBoolean, isHole, isVariable,
    sequenceContains, subtermPaths, replaceAtPath, plug, readTerm, termToString, newMatch,
    matchCopy, matchAdd, matchIncreaseDepth, matchDecreaseDepth, matchGet, matchRemove,
    matchCompare, matchMerge, matchSetsEqual, matchesToString, newList, listAppend, listExtend,
    listLength, listGet, makePair, termSetsEqual, termsToString, checkEllipsisCounts]

/-- The name that a primitive has in code. -/
def name : Primitive → String
  | isSequence => "is_sequence"
  | sequenceLength => "seq_len"
  | sequenceGet => "seq_get"
  | wrapTerm => "wrap_term"
  | makeSequence => "make_sequence"
  | sequenceChildren => "seq_children"
  | termEqual => "term_eq"
  | isInteger => "is_integer"
  | isNatural => "is_natural"
  | isFloat => "is_float"
  | isNumber => "is_number"
  | isString => "is_string"
  | isBoolean => "is_boolean"
  | isHole => "is_hole"
  | isVariable => "is_variable"
  | sequenceContains => "seq_contains"
  | subtermPaths => "subterm_paths"
  | replaceAtPath => "replace_at_path"
  | plug => "plug"
  | readTerm => "read_term"
  | termToString => "term_to_string"
  | newMatch => "new_match"
  | matchCopy => "match_copy"
  | matchAdd => "match_add"
  | matchIncreaseDepth => "match_increase_depth"
  | matchDecreaseDepth => "match_decrease_depth"
  | matchGet => "match_get"
  | matchRemove => "match_remove"
  | matchCompare => "match_compare"
  | matchMerge => "match_merge"
  | matchSetsEqual => "match_sets_equal"
  | matchesToString => "matches_to_string"
  | newList => "new_list"
  | listAppend => "list_append"
  | listExtend => "list_extend"
  | listLength => "list_len"
  | listGet => "list_get"
  | makePair => "make_pair"
  | termSetsEqual => "term_sets_equal"
  | termsToString => "terms_to_string"
  | checkEllipsisCounts => "check_ellipsis_counts"

/-- The number of arguments that a primitive takes. -/
def arity : Primitive → Nat
  | newMatch | newList => 0
  | isSequence | sequenceLength | wrapTerm | makeSequence | sequenceChildren | isInteger
  | isNatural | isFloat | isNumber | isString | isBoolean | isHole | isVariable | subtermPaths
  | readTerm | termToString | matchCopy | matchesToString | listLength | termsToString => 1
  | sequenceGet | termEqual | sequenceContains | plug | matchIncreaseDepth | matchDecreaseDepth
  | matchGet | matchRemove | matchMerge | matchSetsEqual | listAppend | listExtend | listGet
  | makePair | termSetsEqual | checkEllipsisCounts => 2
  | replaceAtPath | matchAdd | matchCompare => 3

/-- The primitive of a name. -/
def ofName? (word : String) : Option Primitive := all.find? fun primitive => primitive.name = word

end Primitive

/-- The right side of an assignment. -/
inductive Expression where
  /-- An operand by itself. -/
  | operand (value : Operand)
  /-- A call of a function of the module or of the host. -/
  | call (function : Symbol) (arguments : List Operand)
  /-- A call of a primitive. -/
  | primitive (function : Primitive) (arguments : List Operand)
  /-- A component of a pair. -/
  | field (base : Symbol) (index : Nat)
  /-- An operation on two operands. -/
  | binary (op : BinaryOp) (left right : Operand)
deriving DecidableEq

/-- A statement. -/
inductive Statement where
  /-- Define a function. -/
  | define (name : Symbol) (parameters : List Symbol) (body : List Statement)
  /-- Assign to a variable. -/
  | assign (target : Symbol) (value : Expression)
  /-- Run one of two blocks. -/
  | branch (condition : Operand) (onTrue onFalse : List Statement)
  /-- Run a block for every value of a list; two targets take a pair apart. -/
  | forEach (targets : List Symbol) (iterable : Symbol) (body : List Statement)
  /-- Run a block for every integer from `start` up to and without `stop`. -/
  | forRange (target : Symbol) (start stop : Operand) (body : List Statement)
  /-- Run a block as long as a variable holds. -/
  | loop (condition : Symbol) (body : List Statement)
  /-- Leave the innermost loop. -/
  | leave
  /-- Return from the function. -/
  | returns (value : Operand)
  /-- Fail with a message. -/
  | raise (value : Operand)
  /-- Print a line. -/
  | print (value : Operand)
  /-- Evaluate for the effect. -/
  | effect (value : Expression)

/-- A compiled specification as code. -/
structure Module where
  /-- The sources of host functions that the specification names, in order. -/
  foreignSources : List String
  body : List Statement

namespace Module

/-- The names of the functions, in the order of their definitions. -/
def functionNames (code : Module) : List Symbol :=
  code.body.filterMap fun statement =>
    match statement with
    | .define name .. => some name
    | _ => none

/-- The first definition of a function. -/
def function? (code : Module) (wanted : Symbol) : Option Statement :=
  code.body.find? fun statement =>
    match statement with
    | .define name .. => decide (name = wanted)
    | _ => false

end Module

end Reduct
