import Reduct.Compile.Draft
import Reduct.Template.Annotated

/-!
# Compiled constructions

An annotated template is compiled to a function `term(m)` that builds a term from the bindings
of a match. Every variable that the template reads is fetched once at the start. Inside an
ellipsis the drivers stand for their current elements.
-/

namespace Reduct.Construction

open Statement Draft

/-- The local that holds each variable at a point of the code. -/
abbrev Scope := Table Symbol

/-- What the code of a template leaves behind. -/
inductive Piece where
  /-- A local that holds the term. -/
  | term (result : Symbol)
  /-- A local that holds a term whose children are meant. -/
  | spliced (result : Symbol)
  /-- A local that holds the list of the terms of an ellipsis. -/
  | list (result : Symbol)

/-- The code that adds a piece to a list. -/
def addPiece (list : Symbol) : Piece → Drafting (List Statement)
  | .term result => pure [perform .listAppend [.name list, .name result]]
  | .list result => pure [perform .listExtend [.name list, .name result]]
  | .spliced result => do
    let children ← freshLocal "children"
    pure
      [assignPrimitive children .sequenceChildren [.name result],
        perform .listExtend [.name list, .name children]]

/-- The code of a template. -/
abbrev Coded := Drafting (List Statement × Piece)

/-- A new list that holds what the given code contributes. -/
def listOf (contribute : Symbol → Drafting (List Statement)) :
    Drafting (List Statement × Symbol) := do
  let list ← freshLocal "items"
  let code ← contribute list
  pure (assignPrimitive list .newList [] :: code, list)

/-- The code that adds what one template contributes to a list. -/
def contribution (coded : Coded) (list : Symbol) : Drafting (List Statement) := do
  let (code, piece) ← coded
  let added ← addPiece list piece
  pure (code ++ added)

/-- The sequence term of a new list. -/
def sequenceOf (contribute : Symbol → Drafting (List Statement)) :
    Drafting (List Statement × Symbol) := do
  let (code, list) ← listOf contribute
  let result ← freshLocal "t"
  pure (code ++ [assignPrimitive result .makeSequence [.name list]], result)

/-- Whether a template is an ellipsis. -/
def isRepeated : Annotated → Bool
  | .repeated .. => true
  | _ => false

/-- The code of a template where one term is needed: an ellipsis gives the sequence of its
terms. -/
def asTerm (template : Annotated) (coded : Coded) : Drafting (List Statement × Symbol) :=
  if isRepeated template then sequenceOf (contribution coded)
  else do
    let (code, piece) ← coded
    match piece with
    | .term result => pure (code, result)
    | .spliced result => pure (code, result)
    | .list result => pure (code, result)

/-- The locals of the drivers of an ellipsis. -/
def driverLocals (scope : Scope) : List Symbol → Drafting (List (Symbol × Symbol))
  | [] => pure []
  | driver :: rest =>
    match scope.find? driver with
    | none => throw (.unlocated (.internal (.driverOutOfScope driver)))
    | some source => do
      let others ← driverLocals scope rest
      pure ((driver, source) :: others)

/-- The code that fetches the elements of the drivers at an index, and the scope inside. -/
def fetchElements (index : Symbol) :
    List (Symbol × Symbol) → Scope → Drafting (List Statement × Scope)
  | [], scope => pure ([], scope)
  | (driver, source) :: rest, scope => do
    let element ← freshLocal "e"
    let (code, scope) ← fetchElements index rest (scope.insert driver element)
    pure (assignPrimitive element .sequenceGet [.name source, .name index] :: code, scope)

/-- The code of an ellipsis: a loop over its drivers, all of one length. -/
def repeatCode (scope : Scope) (drivers : List Symbol) (inner : Scope → Coded) : Coded := do
  let sources ← driverLocals scope drivers
  match sources with
  | [] => throw (.unlocated (.internal .noDrivers))
  | (_, first) :: others =>
    let results ← freshLocal "items"
    let count ← freshLocal "n"
    let index ← freshLocal "i"
    let (fetch, innerScope) ← fetchElements index sources scope
    let (code, list) ← listOf (contribution (inner innerScope))
    let checks := others.map fun (_, source) =>
      perform .checkEllipsisCounts [.name source, .name count]
    pure
      ([assignPrimitive results .newList [],
          assignPrimitive count .sequenceLength [.name first]] ++ checks ++
        [.forRange index (.int 0) (.name count)
          (fetch ++ code ++ [perform .listExtend [.name results, .name list]])],
        .list results)

mutual

/-- The code that builds a template in a scope. -/
def build (metafunctions : Table Symbol) (scope : Scope) : Annotated → Coded
  | .literal term => do
    let name ← constant term
    pure ([], .term name)
  | .bound symbol _ =>
    match scope.find? symbol with
    | some source => pure ([], .term source)
    | none => throw (.unlocated (.internal (.outOfScope symbol)))
  | .sequence items => do
    let (code, result) ← sequenceOf (contributeAll metafunctions scope items)
    pure (code, .term result)
  | .repeated inner drivers =>
    repeatCode scope drivers fun innerScope => build metafunctions innerScope inner
  | .inHole context contents => do
    let (contextCode, contextTerm) ← asTerm context (build metafunctions scope context)
    let (contentsCode, contentsTerm) ← asTerm contents (build metafunctions scope contents)
    let result ← freshLocal "t"
    let plug := assignPrimitive result .plug [.name contextTerm, .name contentsTerm]
    pure (contextCode ++ contentsCode ++ [plug], .term result)
  | .metafunction function arguments =>
    match metafunctions.find? function with
    | none => throw (.unlocated (.internal (.unknownMetafunction function)))
    | some target => do
      let (code, argument) ← sequenceOf (contributeAll metafunctions scope arguments)
      let result ← freshLocal "t"
      pure (code ++ [assignCall result target [.name argument]], .term result)
  | .foreign function arguments mode => do
    let (code, terms) ← buildArguments metafunctions scope arguments
    let result ← freshLocal "t"
    let call := assignCall result function (terms.map Operand.name)
    match mode with
    | .append => pure (code ++ [call], .term result)
    | .splice => pure (code ++ [call], .spliced result)

/-- The code that adds what templates contribute to a list, from left to right. -/
def contributeAll (metafunctions : Table Symbol) (scope : Scope) :
    List Annotated → Symbol → Drafting (List Statement)
  | [], _ => pure []
  | item :: rest, list => do
    let first ← contribution (build metafunctions scope item) list
    let others ← contributeAll metafunctions scope rest list
    pure (first ++ others)

/-- The code that builds one term for each template, and the locals that hold them. -/
def buildArguments (metafunctions : Table Symbol) (scope : Scope) :
    List Annotated → Drafting (List Statement × List Symbol)
  | [] => pure ([], [])
  | item :: rest => do
    let (code, term) ← asTerm item (build metafunctions scope item)
    let (others, terms) ← buildArguments metafunctions scope rest
    pure (code ++ others, term :: terms)

end

/-- The code that fetches variables from the bindings, and the scope that holds them. -/
def fetchVariables (bindings : Symbol) :
    List Symbol → Scope → Drafting (List Statement × Scope)
  | [], scope => pure ([], scope)
  | symbol :: rest, scope => do
    let target ← freshLocal "v"
    let (code, scope) ← fetchVariables bindings rest (scope.insert symbol target)
    pure (assignPrimitive target .matchGet [.name bindings, .string symbol] :: code, scope)

/-- The function that builds an annotated template. `metafunctions` names the function of every
metafunction. -/
def compile (metafunctions : Table Symbol) (template : Annotated) : Drafting Symbol := do
  let name ← freshFunction "term" ""
  let bindings : Symbol := "m"
  let (fetch, scope) ← fetchVariables bindings template.readSymbols .empty
  let (code, result) ← asTerm template (build metafunctions scope template)
  addFunction name [bindings] (fetch ++ code ++ [.returns (.name result)])
  pure name

end Reduct.Construction
