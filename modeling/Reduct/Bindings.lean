import Reduct.Term

/-!
# Bindings of a match

Each bound symbol has a stack of levels. A symbol bound outside every ellipsis has one level
that holds its term. Every open ellipsis adds a level that collects one term per repetition;
closing it appends what it collected, as one sequence, to the level below. The outermost level
of a symbol under ellipses stays open: its content is the value of the symbol.

An operation used out of turn is a misuse, a fault of the code that drives the match and never
a failed match. A refused operation leaves the bindings as they were.
-/

namespace Reduct

/-- One level of the stack of a symbol. -/
inductive Level where
  /-- A term bound outside any open ellipsis. -/
  | scalar (term : Term)
  /-- The terms that an open ellipsis has collected. -/
  | collected (terms : List Term)
deriving DecidableEq

/-- The term that a level stands for. -/
def Level.toTerm : Level → Term
  | .scalar term => term
  | .collected terms => .sequence terms

/-- A use of the bindings that their rules do not allow. -/
inductive Misuse where
  /-- A second term for a symbol bound outside every ellipsis. -/
  | alreadyBound (symbol : Symbol) (previous term : Term)
  /-- An ellipsis opened for a symbol bound outside every ellipsis. -/
  | openOverScalar (symbol : Symbol) (previous : Term)
  /-- An ellipsis closed for a symbol with no level. -/
  | closeUnbound (symbol : Symbol)
  /-- A level closed over one that collects nothing. -/
  | outOfOrder (symbol : Symbol)
  /-- The value of a symbol that is unbound or has inner levels. -/
  | unfinished (symbol : Symbol)
  /-- Bindings merged while one of them has inner levels. -/
  | mergeOpen (symbol : Symbol)
deriving DecidableEq

/-- The words for a misuse. -/
def Misuse.message : Misuse → String
  | alreadyBound symbol previous term =>
    "`" ++ symbol ++ "` is already bound to `" ++ previous.text ++ "`; cannot bind `" ++
      term.text ++ "`"
  | openOverScalar symbol previous =>
    "cannot open an ellipsis for `" ++ symbol ++ "`, already bound to `" ++ previous.text ++ "`"
  | closeUnbound symbol => s!"cannot close an ellipsis for unbound `{symbol}`"
  | outOfOrder symbol => s!"ellipsis levels of `{symbol}` are out of order"
  | unfinished symbol => s!"`{symbol}` is not bound to a finished value"
  | mergeOpen symbol => s!"cannot merge `{symbol}` with open ellipsis levels"

/-- The bindings of one match, each symbol with its levels, the innermost first. -/
structure Bindings where
  /-- The bound symbols, each with its levels. -/
  bound : Table (List Level)
deriving DecidableEq

namespace Bindings

/-- No symbol is bound. -/
def empty : Bindings := ⟨.empty⟩

instance : EmptyCollection Bindings := ⟨empty⟩
instance : Inhabited Bindings := ⟨empty⟩

/-- The levels of a symbol, none when it is unbound. -/
def levels (bindings : Bindings) (symbol : Symbol) : List Level :=
  (bindings.bound.find? symbol).getD []

/-- The bindings with the levels of one symbol replaced. -/
def withLevels (bindings : Bindings) (symbol : Symbol) (stack : List Level) : Bindings :=
  ⟨bindings.bound.insert symbol stack⟩

/-- The number of bound symbols. -/
def size (bindings : Bindings) : Nat := bindings.bound.size

/-- Whether a symbol is bound. -/
def contains (bindings : Bindings) (symbol : Symbol) : Bool := bindings.bound.contains symbol

/-- Bind a term: to the innermost open ellipsis of the symbol, or as its value when none is
open. -/
def add (bindings : Bindings) (symbol : Symbol) (term : Term) : Except Misuse Bindings :=
  match bindings.levels symbol with
  | [] => .ok (bindings.withLevels symbol [.scalar term])
  | .collected terms :: outer =>
    .ok (bindings.withLevels symbol (.collected (terms ++ [term]) :: outer))
  | .scalar previous :: _ => .error (.alreadyBound symbol previous term)

/-- Open an ellipsis level for a symbol. -/
def increaseDepth (bindings : Bindings) (symbol : Symbol) : Except Misuse Bindings :=
  match bindings.levels symbol with
  | .scalar previous :: _ => .error (.openOverScalar symbol previous)
  | stack => .ok (bindings.withLevels symbol (.collected [] :: stack))

/-- Close the innermost ellipsis level of a symbol. The outermost level is its final value and
stays. -/
def decreaseDepth (bindings : Bindings) (symbol : Symbol) : Except Misuse Bindings :=
  match bindings.bound.find? symbol with
  | none => .error (.closeUnbound symbol)
  | some (closed :: .collected terms :: outer) =>
    .ok (bindings.withLevels symbol (.collected (terms ++ [closed.toTerm]) :: outer))
  | some (_ :: .scalar _ :: _) => .error (.outOfOrder symbol)
  | some _ => .ok bindings

/-- The value of a symbol whose levels are closed down to one. -/
def lookup (bindings : Bindings) (symbol : Symbol) : Option Term :=
  match bindings.bound.find? symbol with
  | some [level] => some level.toTerm
  | _ => none

/-- The value of a symbol, which has to be finished. -/
def get (bindings : Bindings) (symbol : Symbol) : Except Misuse Term :=
  match bindings.lookup symbol with
  | some term => .ok term
  | none => .error (.unfinished symbol)

/-- Unbind a symbol. -/
def erase (bindings : Bindings) (symbol : Symbol) : Bindings := ⟨bindings.bound.erase symbol⟩

/-- The term at the innermost level of a symbol. -/
def innermost (bindings : Bindings) (symbol : Symbol) : Option Term :=
  (bindings.levels symbol).head?.map Level.toTerm

/-- Whether two symbols hold equal terms at their innermost levels. Inside an ellipsis this
compares all that was collected so far. -/
def agree (bindings : Bindings) (left right : Symbol) : Bool :=
  match bindings.innermost left, bindings.innermost right with
  | some first, some second => decide (first = second)
  | _, _ => false

/-- Add one finished binding. -/
def mergeEntry (bindings : Bindings) (entry : Symbol × List Level) : Except Misuse Bindings :=
  match entry.2 with
  | [level] => bindings.add entry.1 level.toTerm
  | _ => .error (.mergeOpen entry.1)

/-- Add every binding of another match, all of them finished, in the order of the symbols. -/
def merge (bindings other : Bindings) : Except Misuse Bindings :=
  other.bound.entries.foldlM mergeEntry bindings

/-- Every symbol with its value, in the order of the symbols; all have to be finished. -/
def toList (bindings : Bindings) : Except Misuse (List (Symbol × Term)) :=
  bindings.bound.keys.mapM fun symbol => do
    let term ← bindings.get symbol
    .ok (symbol, term)

/-- The written form of one binding. -/
def entryText (bindings : Bindings) (symbol : Symbol) : String :=
  match bindings.lookup symbol with
  | some term => "(" ++ symbol ++ " " ++ term.text ++ ")"
  | none => "(" ++ symbol ++ " <open>)"

/-- The written form of the bindings, in the order of the symbols. -/
def text (bindings : Bindings) : String :=
  "(" ++ Text.spaced (bindings.bound.keys.map bindings.entryText) ++ ")"

/-- Matches in parentheses, in their order. -/
def listText (found : List Bindings) : String :=
  "(" ++ Text.spaced (found.map text) ++ ")"

/-- Whether two lists of finished matches hold the same bindings, whatever their order and
repetitions. -/
def sameMatches (left right : List Bindings) : Except Misuse Bool := do
  let first ← left.mapM toList
  let second ← right.mapM toList
  .ok (sameMembers first second)

end Bindings

end Reduct
