import Reduct.Fault
import Reduct.Language.Depth
import Reduct.Template

/-!
# Annotated templates

Annotation decides for every symbol of a template whether it reads a pattern variable or is a
literal variable, and for every ellipsis which variables it walks. A sequence headed by an
unbound symbol that names a metafunction is an application of it.

A variable bound under `b` ellipses is walked by its `b` outermost template ellipses; deeper
ones leave it alone.
-/

namespace Reduct

/-- A template whose symbols are decided. -/
inductive Annotated where
  /-- A constant. -/
  | literal (term : Term)
  /-- A pattern variable and the depth it was bound at. -/
  | bound (symbol : Symbol) (depth : Nat)
  /-- A sequence. -/
  | sequence (items : List Annotated)
  /-- One construction per element of the drivers. -/
  | repeated (inner : Annotated) (drivers : List Symbol)
  /-- The context with its hole filled by the contents. -/
  | inHole (context contents : Annotated)
  /-- A metafunction applied to the sequence of its arguments. -/
  | metafunction (function : Symbol) (arguments : List Annotated)
  /-- A host function applied to its arguments. -/
  | foreign (function : Symbol) (arguments : List Annotated) (mode : InsertMode)

namespace Annotated

instance : Inhabited Annotated := ⟨.sequence []⟩

mutual

/-- The occurrences of pattern variables with their depths, from left to right. -/
def occurrences : Annotated → List (Symbol × Nat)
  | .literal _ => []
  | .bound symbol depth => [(symbol, depth)]
  | .sequence items => occurrencesAll items
  | .repeated inner _ => inner.occurrences
  | .inHole context contents => context.occurrences ++ contents.occurrences
  | .metafunction _ arguments => occurrencesAll arguments
  | .foreign _ arguments _ => occurrencesAll arguments

/-- The occurrences of pattern variables of a list of templates, from left to right. -/
def occurrencesAll : List Annotated → List (Symbol × Nat)
  | [] => []
  | item :: rest => item.occurrences ++ occurrencesAll rest

end

/-- The variables that are read, each once, in the order of their first occurrences. -/
def readSymbols (template : Annotated) : List Symbol :=
  (template.occurrences.map (·.1)).foldl Pattern.addOnce []

/-- The variables that still hold a list under `depth` ellipses, each once, in the order of
their first occurrences. -/
def driversAt (depth : Nat) (template : Annotated) : List Symbol :=
  ((template.occurrences.filter fun found => depth < found.2).map (·.1)).foldl Pattern.addOnce []

end Annotated

namespace Template

/-- What a symbol under `depth` ellipses stands for. -/
def annotateSymbol (depths : Depths) (depth : Nat) (symbol : Symbol) : Except Fault Annotated :=
  match depths.find? symbol with
  | none => .ok (.literal (.symbol symbol))
  | some bound =>
    if depth < bound then .error (.unlocated (.tooShallow symbol bound depth))
    else .ok (.bound symbol bound)

/-- The metafunction that a sequence applies, if its first item names one and is not bound. -/
def applied? (depths : Depths) (metafunctions : SymbolSet) : List Template → Option Symbol
  | .symbol name :: _ =>
    if !depths.contains name && metafunctions.contains name then some name else none
  | _ => none

mutual

/-- Annotate a template that stands under `depth` ellipses. -/
def annotateAt (depths : Depths) (metafunctions : SymbolSet) (depth : Nat) :
    Template → Except Fault Annotated
  | .literal term => .ok (.literal term)
  | .symbol name => annotateSymbol depths depth name
  | .sequence items =>
    match applied? depths metafunctions items, items with
    | some function, _ :: arguments => do
      let arguments ← annotateAllAt depths metafunctions depth arguments
      .ok (.metafunction function arguments)
    | _, all => do
      let items ← annotateAllAt depths metafunctions depth all
      .ok (.sequence items)
  | .repeated inner => do
    let annotated ← annotateAt depths metafunctions (depth + 1) inner
    match annotated.driversAt depth with
    | [] => .error (.unlocated (.nothingIterated (.repeated inner)))
    | drivers => .ok (.repeated annotated drivers)
  | .inHole context contents => do
    let context ← annotateAt depths metafunctions depth context
    let contents ← annotateAt depths metafunctions depth contents
    .ok (.inHole context contents)
  | .foreign function arguments mode => do
    let arguments ← annotateAllAt depths metafunctions depth arguments
    .ok (.foreign function arguments mode)

/-- Annotate templates that stand under `depth` ellipses, from left to right. -/
def annotateAllAt (depths : Depths) (metafunctions : SymbolSet) (depth : Nat) :
    List Template → Except Fault (List Annotated)
  | [] => .ok []
  | item :: rest => do
    let first ← annotateAt depths metafunctions depth item
    let others ← annotateAllAt depths metafunctions depth rest
    .ok (first :: others)

end

section

variable (depths : Depths) (metafunctions : SymbolSet) (depth : Nat)

theorem annotateAt_symbol_eq (name : Symbol) :
    annotateAt depths metafunctions depth (.symbol name) = annotateSymbol depths depth name := rfl

theorem annotateAt_repeated_eq (inner : Template) :
    annotateAt depths metafunctions depth (.repeated inner) = (do
      let annotated ← annotateAt depths metafunctions (depth + 1) inner
      match annotated.driversAt depth with
      | [] => .error (.unlocated (.nothingIterated (.repeated inner)))
      | drivers => .ok (.repeated annotated drivers)) := rfl

theorem annotateAt_inHole_eq (context contents : Template) :
    annotateAt depths metafunctions depth (.inHole context contents) = (do
      let context ← annotateAt depths metafunctions depth context
      let contents ← annotateAt depths metafunctions depth contents
      .ok (.inHole context contents)) := rfl

theorem annotateAt_foreign_eq (function : Symbol) (arguments : List Template) (mode : InsertMode) :
    annotateAt depths metafunctions depth (.foreign function arguments mode) = (do
      let arguments ← annotateAllAt depths metafunctions depth arguments
      .ok (.foreign function arguments mode)) := rfl

theorem annotateAllAt_cons_eq (item : Template) (rest : List Template) :
    annotateAllAt depths metafunctions depth (item :: rest) = (do
      let first ← annotateAt depths metafunctions depth item
      let others ← annotateAllAt depths metafunctions depth rest
      .ok (first :: others)) := rfl

end

/-- Annotate a template, given the depths of the bound symbols and the known metafunctions. -/
def annotate (depths : Depths) (metafunctions : SymbolSet) (template : Template) :
    Except Fault Annotated :=
  template.annotateAt depths metafunctions 0

end Template

end Reduct
