import Reduct.Fault

/-!
# Resolution of symbols

Every bare symbol of a pattern becomes a non-terminal, a built-in pattern or a literal variable.
The stem decides: a name of the grammar comes first, then the keywords; a symbol with an
underscore has to be one of these, and any other symbol is a literal variable. The literal
variables met are recorded even when a later symbol is refused.
-/

namespace Reduct

/-- A computation that records literal variables and may be refused. -/
abbrev Resolving := ExceptT Fault (StateM SymbolSet)

/-- What a bare symbol stands for. -/
inductive Resolution where
  | nonTerminal
  | builtIn (kind : BuiltIn)
  | literal
  | refused (cause : Cause)

/-- What a bare symbol stands for, given the names of the grammar. -/
def Symbol.resolution (names : SymbolSet) (symbol : Symbol) : Resolution :=
  let stem := Symbol.stem symbol
  if names.contains stem then .nonTerminal
  else if stem = "in-hole" then .refused (.bareKeyword symbol "(in-hole context contents)")
  else if stem = (BuiltIn.variableExcept []).keyword then
    .refused (.bareKeyword symbol "(variable-except x ...)")
  else
    match BuiltIn.ofKeyword? stem with
    | some kind => .builtIn kind
    | none => if Symbol.hasSuffix symbol then .refused (.badStem symbol) else .literal

/-- Record a literal variable. -/
def mention (name : Symbol) : Resolving Unit := modify (·.insert name)

namespace Pattern

/-- The pattern that a bare symbol stands for. -/
def ofSymbol (names : SymbolSet) (symbol : Symbol) : Resolving Pattern :=
  match Symbol.resolution names symbol with
  | .nonTerminal => pure (.nonTerminal (Symbol.stem symbol) symbol)
  | .builtIn kind => pure (.builtIn kind symbol)
  | .refused cause => throw (.unlocated cause)
  | .literal => do
    mention symbol
    pure (.literal (.symbol symbol))

mutual

/-- The pattern with every bare symbol resolved. -/
def resolve (names : SymbolSet) : Pattern → Resolving Pattern
  | .unresolved symbol => ofSymbol names symbol
  | .sequence items => do
    let items ← resolveAll names items
    pure (.sequence items)
  | .repeated inner mode => do
    let inner ← inner.resolve names
    pure (.repeated inner mode)
  | .inHole context contents checks => do
    let context ← context.resolve names
    let contents ← contents.resolve names
    pure (.inHole context contents checks)
  | .literal (.symbol name) => do
    mention name
    pure (.literal (.symbol name))
  | leaf => pure leaf

/-- The patterns with every bare symbol resolved, from left to right. -/
def resolveAll (names : SymbolSet) : List Pattern → Resolving (List Pattern)
  | [] => pure []
  | item :: rest => do
    let item ← item.resolve names
    let rest ← resolveAll names rest
    pure (item :: rest)

end

end Pattern

end Reduct
