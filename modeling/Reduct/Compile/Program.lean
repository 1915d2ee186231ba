import Reduct.Code.Text
import Reduct.Compile.Construction
import Reduct.Compile.Matcher
import Reduct.Form.Read

/-!
# Compiled specifications

A specification is compiled in three stages. Names come first: languages are checked, and every
relation and metafunction gets the name of its function. Then every pattern of every form is
prepared, so the literal variables of each language are complete. Only then is code generated,
form by form. Compilation stops at the first fault.
-/

namespace Reduct

/-- What an entry does. -/
inductive EntryKind where
  /-- It returns its matches. -/
  | matching
  /-- It fails unless what it asserts holds. -/
  | assertion
deriving DecidableEq

/-- A function without parameters that runs one form. -/
structure Entry where
  function : Symbol
  /-- The form in short, for reports and for selection. -/
  description : String
  kind : EntryKind
  span : Span

/-- A compiled specification. -/
structure Program where
  code : Module
  /-- The entries, in the order of their forms. -/
  entries : List Entry
  /-- The function of every reduction relation. -/
  relations : Table Symbol
  /-- The function of every metafunction. -/
  metafunctions : Table Symbol

namespace Program

open Statement Draft

/-- The names that a specification defines. -/
structure Names where
  languages : Table Language
  relations : Table Symbol
  metafunctions : Table Symbol
  /-- Where each name was defined. -/
  defined : Table Span

/-- Note the place of a definition, which has to be the first of its name. -/
def noteDefinition (kind : DefinitionKind) (name : Symbol) (span : Span) (names : Names) :
    Drafting Names :=
  match names.defined.find? name with
  | some previous =>
    throw (.related (.duplicateDefinition kind name) span "redefined here" previous
      "first defined here")
  | none => pure { names with defined := names.defined.insert name span }

/-- Enter the name that a form defines. -/
def defineName (names : Names) (form : Form) : Drafting Names :=
  match form.body with
  | .language definition => do
    let language ← MonadExcept.ofExcept (Language.define definition form.span)
    let names ← noteDefinition .language definition.name form.span names
    pure { names with languages := names.languages.insert definition.name language }
  | .relation definition => do
    let function ← freshFunction "reduce" definition.name
    let names ← noteDefinition .relation definition.name form.span names
    pure { names with relations := names.relations.insert definition.name function }
  | .metafunction definition => do
    let function ← freshFunction "mf" definition.name
    let names ← noteDefinition .metafunction definition.name form.span names
    pure { names with metafunctions := names.metafunctions.insert definition.name function }
  | _ => pure names

/-- Enter the names that forms define, in order. -/
def defineNames (forms : List Form) : Drafting Names :=
  forms.foldlM defineName ⟨.empty, .empty, .empty, .empty⟩

/-- A form with its patterns prepared. -/
inductive PreparedForm where
  /-- A language, which gives no code. -/
  | language
  | relation (name function : Symbol) (language : Symbol) (domain : Option Prepared)
      (cases : List (Prepared × Template))
  | metafunction (name function : Symbol) (language : Symbol)
      (contract : Option (Prepared × Prepared)) (cases : List (Prepared × Template))
  | redexMatch (language : Symbol) (pattern : Prepared) (term : Term) (description : String)
  | assertMatch (language : Symbol) (pattern : Prepared) (term : Term)
      (expected : List (List (Symbol × Term))) (description : String)
  | assertTerm (language : Symbol) (bindings : List (Prepared × Term)) (depths : Depths)
      (template : Template) (expected : Term) (description : String)
  | assertReduction (relation function : Symbol) (term : Term) (expected : List Term)
      (description : String)
  | foreignSource (path : String)

/-- A step of the preparation, which adds to the languages. -/
abbrev Preparing := StateT (Table Language) (Except Fault)

/-- Prepare a pattern of a named language. A fault without a place gets the given one. -/
def prepareIn (languageName : Symbol) (form place : Span) (message : String) (pattern : Pattern) :
    Preparing Prepared := do
  let languages ← get
  match languages.find? languageName with
  | none => throw (.located (.unknownLanguage languageName) form "used here")
  | some language =>
    let (result, language) := language.prepare pattern
    set (languages.insert languageName language)
    Fault.locate place message result

/-- Refuse a language that is not defined. -/
def requireLanguage (name : Symbol) (form : Span) : Preparing Unit := do
  let languages ← get
  if languages.contains name then pure ()
  else throw (.located (.unknownLanguage name) form "used here")

/-- Add the depths of a pattern to those of the patterns before it; no symbol may be bound by
two. -/
def joinDepths (span : Span) (prepared : Prepared) (depths : Depths) : Except Fault Depths :=
  prepared.depths.entries.foldlM
    (fun joined entry =>
      if entry.1 ∈ prepared.synthetic then .ok joined
      else if joined.contains entry.1 then
        .error (.located (.boundTwice entry.1) span "in this form")
      else .ok (joined.insert entry.1 entry.2))
    depths

/-- Prepare the bindings of a term assertion, in order. -/
def prepareBindings (language : Symbol) (span : Span) :
    List (Pattern × Term) → Depths → Preparing (List (Prepared × Term) × Depths)
  | [], depths => pure ([], depths)
  | (pattern, term) :: rest, depths => do
    let prepared ← prepareIn language span span "in this form" pattern
    let depths ← joinDepths span prepared depths
    let (others, depths) ← prepareBindings language span rest depths
    pure ((prepared, term) :: others, depths)

/-- Prepare the patterns of a form. -/
def prepareForm (names : Names) (form : Form) : Preparing PreparedForm := do
  let span := form.span
  match form.body with
  | .language _ => pure .language
  | .relation definition =>
    requireLanguage definition.language span
    let domain ← definition.domain.mapM
      (prepareIn definition.language span span "in this form")
    let cases ← definition.cases.mapM fun case => do
      let pattern ← prepareIn definition.language span case.span "in this case" case.pattern
      pure (pattern, case.template)
    match names.relations.find? definition.name with
    | none => throw (.unlocated (.internal (.unregisteredRelation definition.name)))
    | some function => pure (.relation definition.name function definition.language domain cases)
  | .metafunction definition =>
    requireLanguage definition.language span
    let contract ← definition.contract.mapM fun contract => do
      let domain ←
        prepareIn definition.language span span "in this form" (.sequence contract.domain)
      let codomain ← prepareIn definition.language span span "in this form" contract.codomain
      pure (domain, codomain)
    let cases ← definition.cases.mapM fun case => do
      let pattern ←
        prepareIn definition.language span case.span "in this case" (.sequence case.arguments)
      pure (pattern, case.template)
    match names.metafunctions.find? definition.name with
    | none => throw (.unlocated (.internal (.unregisteredMetafunction definition.name)))
    | some function =>
      pure (.metafunction definition.name function definition.language contract cases)
  | .redexMatch language pattern term =>
    let prepared ← prepareIn language span span "in this form" pattern
    pure (.redexMatch language prepared term
      (Text.spaced ["redex-match", language, pattern.text, term.text]))
  | .assertMatch language pattern term expected =>
    let prepared ← prepareIn language span span "in this form" pattern
    pure (.assertMatch language prepared term expected
      (Text.spaced ["redex-match-assert-equal", language, pattern.text, term.text]))
  | .assertTerm language bindings template expected =>
    requireLanguage language span
    let (bindings, depths) ← prepareBindings language span bindings .empty
    pure (.assertTerm language bindings depths template expected
      (Text.spaced ["term-let-assert-equal", template.text, expected.text]))
  | .assertReduction relation term expected =>
    match names.relations.find? relation with
    | none => throw (.located (.unknownRelation relation) span "used here")
    | some function =>
      pure (.assertReduction relation function term expected
        (Text.spaced ["apply-reduction-relation-assert-equal", relation, term.text]))
  | .foreignSource path => pure (.foreignSource path)

/-- What the code of forms refers to. -/
structure Scope where
  languages : Table Language
  /-- The function of every metafunction. -/
  metafunctions : Table Symbol
  /-- Whether matches are printed. -/
  prints : Bool

/-- The top-level matcher of a prepared pattern. -/
def topMatcher (scope : Scope) (language : Symbol) (pattern : Prepared) : Drafting Symbol :=
  match scope.languages.find? language with
  | none => throw (.unlocated (.unknownLanguage language))
  | some found => Matcher.compileTop found pattern

/-- The construction of a template. -/
def construction (scope : Scope) (depths : Depths) (template : Template) : Drafting Symbol :=
  match template.annotate depths (SymbolSet.ofList scope.metafunctions.keys) with
  | .error fault => throw fault
  | .ok annotated => Construction.compile scope.metafunctions annotated

/-- Set a variable to whether a top-level matcher finds a match. -/
def matchesAny (matcher term check : Symbol) : Drafting (List Statement) := do
  let found ← freshLocal "ms"
  let count ← freshLocal "n"
  pure
    [assignCall found matcher [.name term],
      assignPrimitive count .listLength [.name found],
      assignBinary check .greater (.name count) (.int 0)]

/-- Raise a message that ends with the written form of a term. -/
def raiseTerm (lead : String) (term : Symbol) : Drafting (List Statement) := do
  let text ← freshLocal "s"
  let message ← freshLocal "msg"
  pure
    [assignPrimitive text .termToString [.name term],
      assignBinary message .add (.string lead) (.name text),
      .raise (.name message)]

/-- Raise a message that shows two lists of results. -/
def raiseMismatch (write : Primitive) (expected actual : Symbol) : Drafting (List Statement) := do
  let wanted ← freshLocal "s"
  let got ← freshLocal "s"
  let first ← freshLocal "msg"
  let second ← freshLocal "msg"
  let message ← freshLocal "msg"
  pure
    [assignPrimitive wanted write [.name expected],
      assignPrimitive got write [.name actual],
      assignBinary first .add (.string "expected ") (.name wanted),
      assignBinary second .add (.name first) (.string ", got "),
      assignBinary message .add (.name second) (.name got),
      .raise (.name message)]

/-- Raise unless a term matches a pattern. -/
def requireMatch (scope : Scope) (language : Symbol) (pattern : Prepared) (term : Symbol)
    (lead : String) : Drafting (List Statement) := do
  let check ← freshLocal "ok"
  let matcher ← topMatcher scope language pattern
  let test ← matchesAny matcher term check
  let failure ← raiseTerm lead term
  pure (test ++ [whenFalse check failure])

/-- The code of a case of a relation: build the template for every match. -/
def relationCase (scope : Scope) (language : Symbol) (term out : Symbol)
    (case : Prepared × Template) : Drafting (List Statement) := do
  let matcher ← topMatcher scope language case.1
  let builder ← construction scope case.1.depths case.2
  let found ← freshLocal "ms"
  let entry ← freshLocal "m"
  let built ← freshLocal "t"
  pure
    [assignCall found matcher [.name term],
      .forEach [entry] found
        [assignCall built builder [.name entry],
          perform .listAppend [.name out, .name built]]]

/-- The function of a relation: the results of all cases and all their matches, in order. -/
def relation (scope : Scope) (name function language : Symbol) (domain : Option Prepared)
    (cases : List (Prepared × Template)) : Drafting Unit := do
  let term : Symbol := "t"
  let out ← freshLocal "out"
  let checks ← domain.toList.mapM fun pattern =>
    requireMatch scope language pattern term (name ++ ": term not in domain: ")
  let results ← cases.mapM (relationCase scope language term out)
  addFunction function [term]
    (assignPrimitive out .newList [] :: checks.flatten ++ results.flatten ++
      [.returns (.name out)])

/-- The code of a case of a metafunction: if the arguments match, return what the template
builds from the first match. -/
def metafunctionCase (scope : Scope) (name language arguments : Symbol) (codomain : Option Symbol)
    (case : Prepared × Template) : Drafting (List Statement) := do
  let matcher ← topMatcher scope language case.1
  let builder ← construction scope case.1.depths case.2
  let found ← freshLocal "ms"
  let count ← freshLocal "n"
  let any ← freshLocal "ok"
  let first ← freshLocal "m"
  let result ← freshLocal "r"
  let checks ← codomain.toList.mapM fun codomain => do
    let check ← freshLocal "ok"
    let test ← matchesAny codomain result check
    let failure ← raiseTerm (name ++ ": result not in codomain: ") result
    pure (test ++ [whenFalse check failure])
  pure
    [assignCall found matcher [.name arguments],
      assignPrimitive count .listLength [.name found],
      assignBinary any .greater (.name count) (.int 0),
      whenTrue any
        ([assignPrimitive first .listGet [.name found, .int 0],
            assignCall result builder [.name first]] ++ checks.flatten ++
          [.returns (.name result)])]

/-- The function of a metafunction: the first case with a match decides. -/
def metafunction (scope : Scope) (name function language : Symbol)
    (contract : Option (Prepared × Prepared)) (cases : List (Prepared × Template)) :
    Drafting Unit := do
  let arguments : Symbol := "args"
  let checks ← contract.toList.mapM fun contract =>
    requireMatch scope language contract.1 arguments (name ++ ": arguments not in domain: ")
  let codomain ← contract.mapM fun contract => topMatcher scope language contract.2
  let attempts ← cases.mapM (metafunctionCase scope name language arguments codomain)
  let failure ← raiseTerm (name ++ ": no clauses matched for ") arguments
  addFunction function [arguments] (checks.flatten ++ attempts.flatten ++ failure)

/-- The code that builds the expected bindings of one match and adds them to a list. -/
def expectedBindings (wanted : Symbol) (bindings : List (Symbol × Term)) :
    Drafting (List Statement) := do
  let env ← freshLocal "m"
  let adds ← bindings.mapM fun (symbol, term) => do
    let value ← constant term
    pure (perform .matchAdd [.name env, .string symbol, .name value])
  pure
    (assignPrimitive env .newMatch [] :: adds ++
      [perform .listAppend [.name wanted, .name env]])

/-- The code that merges the first match of a binding into the bindings of a term assertion. -/
def mergeBinding (scope : Scope) (language env : Symbol) (binding : Prepared × Term) :
    Drafting (List Statement) := do
  let matcher ← topMatcher scope language binding.1
  let input ← constant binding.2
  let found ← freshLocal "ms"
  let count ← freshLocal "n"
  let any ← freshLocal "ok"
  let first ← freshLocal "m"
  let failure ←
    raiseTerm ("term-let: `" ++ binding.1.pattern.text ++ "` does not match ") input
  pure
    [assignCall found matcher [.name input],
      assignPrimitive count .listLength [.name found],
      assignBinary any .greater (.name count) (.int 0),
      whenFalse any failure,
      assignPrimitive first .listGet [.name found, .int 0],
      perform .matchMerge [.name env, .name first]]

/-- What the code of a form adds to a program beside its functions. -/
inductive Addition where
  | nothing
  | entry (entry : Entry)
  | foreignSource (path : String)

/-- Add the function of an entry. -/
def entry (name : Symbol) (body : List Statement) (description : String) (kind : EntryKind)
    (span : Span) : Drafting Addition := do
  addFunction name [] body
  pure (.entry ⟨name, description, kind, span⟩)

/-- The code of a form. -/
def generate (scope : Scope) (span : Span) : PreparedForm → Drafting Addition
  | .language => pure .nothing
  | .relation name function language domain cases => do
    relation scope name function language domain cases
    pure .nothing
  | .metafunction name function language contract cases => do
    metafunction scope name function language contract cases
    pure .nothing
  | .redexMatch language pattern term description => do
    let matcher ← topMatcher scope language pattern
    let name ← freshFunction "redex_match" ""
    let input ← constant term
    let found ← freshLocal "ms"
    let prints ←
      if scope.prints then do
        let text ← freshLocal "s"
        pure [assignPrimitive text .matchesToString [.name found], Statement.print (.name text)]
      else pure []
    entry name
      (assignCall found matcher [.name input] :: prints ++ [.returns (.name found)])
      description .matching span
  | .assertMatch language pattern term expected description => do
    let matcher ← topMatcher scope language pattern
    let name ← freshFunction "assert" "match"
    let input ← constant term
    let actual ← freshLocal "ms"
    let wanted ← freshLocal "expected"
    let expectations ← expected.mapM (expectedBindings wanted)
    let equal ← freshLocal "ok"
    let failure ← raiseMismatch .matchesToString wanted actual
    entry name
      ([assignCall actual matcher [.name input], assignPrimitive wanted .newList []] ++
        expectations.flatten ++
        [assignPrimitive equal .matchSetsEqual [.name actual, .name wanted],
          whenFalse equal failure, .returns .none])
      description .assertion span
  | .assertTerm language bindings depths template expected description => do
    let name ← freshFunction "assert" "term"
    let env ← freshLocal "m"
    let merges ← bindings.mapM (mergeBinding scope language env)
    let builder ← construction scope depths template
    let built ← freshLocal "t"
    let wanted ← constant expected
    let equal ← freshLocal "ok"
    let failure ← raiseTerm ("term-let: expected " ++ expected.text ++ ", got ") built
    entry name
      (assignPrimitive env .newMatch [] :: merges.flatten ++
        [assignCall built builder [.name env],
          assignPrimitive equal .termEqual [.name built, .name wanted],
          whenFalse equal failure, .returns .none])
      description .assertion span
  | .assertReduction relation function term expected description => do
    let name ← freshFunction "assert" relation
    let input ← constant term
    let actual ← freshLocal "rs"
    let wanted ← freshLocal "expected"
    let expectations ← expected.mapM fun term => do
      let value ← constant term
      pure (perform .listAppend [.name wanted, .name value])
    let equal ← freshLocal "ok"
    let failure ← raiseMismatch .termsToString wanted actual
    entry name
      ([assignCall actual function [.name input], assignPrimitive wanted .newList []] ++
        expectations ++
        [assignPrimitive equal .termSetsEqual [.name actual, .name wanted],
          whenFalse equal failure, .returns .none])
      description .assertion span
  | .foreignSource path => pure (.foreignSource path)

/-- The code of forms, in order. A fault without a place gets that of its form. -/
def generateAll (scope : Scope) (forms : List (Form × PreparedForm)) : Drafting (List Addition) :=
  forms.mapM fun (form, prepared) =>
    tryCatch (generate scope form.span prepared) fun fault =>
      throw (fault.orLabel form.span "in this form")

/-- The program of a draft and what the forms added to it. -/
def assemble (draft : Draft) (names : Names) (additions : List Addition) : Program where
  code :=
    { foreignSources := additions.filterMap fun addition =>
        match addition with
        | .foreignSource path => some path
        | _ => none
      body := draft.statements }
  entries := additions.filterMap fun addition =>
    match addition with
    | .entry entry => some entry
    | _ => none
  relations := names.relations
  metafunctions := names.metafunctions

/-- Compile the forms of a specification. -/
def compile (forms : List Form) (prints : Bool) : Except Fault Program := do
  let (named, draft) := (defineNames forms).run .empty
  let names ← named
  let (prepared, languages) ← (forms.mapM (prepareForm names)).run names.languages
  let scope : Scope := ⟨languages, names.metafunctions, prints⟩
  let (generated, draft) := (generateAll scope (forms.zip prepared)).run draft
  let additions ← generated
  .ok (assemble draft names additions)

/-- Compile the text of a specification. -/
def ofSource (source : String) (prints : Bool) : Except Fault Program := do
  let forms ← Form.readAll source
  compile forms prints

end Program

end Reduct
