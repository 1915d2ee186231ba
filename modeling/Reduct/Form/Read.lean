import Reduct.Form
import Reduct.Sexp

/-!
# Reading forms

Each form is a list that starts with the name of the form. A part that is missing or has the
wrong kind is reported at that part if it is there, and at the form around it otherwise.
-/

namespace Reduct.Form

/-- A form of the wrong shape. -/
def malformed (fault : FormFault) (span : Span) : Fault :=
  .located (.malformed fault) span "malformed"

/-- The span of an optional part, or of what is around it. -/
def spanOr (part : Option Sexp) (around : Span) : Span := (part.map Sexp.span).getD around

/-- A part that has to be a symbol. -/
def symbolPart (part : Option Sexp) (around : Span) (what : String) : Except Fault Symbol :=
  match part.bind Sexp.symbol? with
  | some name => .ok name
  | none => .error (malformed (.expected what) (spanOr part around))

/-- A part that has to be a list. -/
def listPart (part : Option Sexp) (around : Span) (what : String) : Except Fault (List Sexp) :=
  match part.bind Sexp.items? with
  | some items => .ok items
  | none => .error (malformed (.expected what) (spanOr part around))

/-- The arguments of a form that takes a fixed number of them. -/
def checkCount (form : String) (wanted : Nat) (arguments : List Sexp) (span : Span) :
    Except Fault Unit :=
  if arguments.length = wanted then .ok ()
  else .error (malformed (.argumentCount form wanted arguments.length) span)

/-- A rule: a name, an optional `::=`, and at least one alternative. -/
def readRule (around : Span) (clause : Sexp) : Except Fault RuleDefinition := do
  let items ← listPart (some clause) around "a `(name ::= pattern ...)` clause"
  let name ← symbolPart items.head? clause.span "a non-terminal name"
  let rest := items.tail
  let alternatives :=
    match rest with
    | first :: others => if first.isSymbol "::=" then others else rest
    | [] => []
  if alternatives.isEmpty then .error (malformed (.noAlternatives name) clause.span)
  else
    let patterns ← alternatives.mapM Sexp.toPattern
    .ok ⟨name, patterns, clause.span⟩

/-- A language: a name and its rules. -/
def readLanguage (arguments : List Sexp) (span : Span) : Except Fault LanguageDefinition := do
  let name ← symbolPart arguments.head? span "a language name"
  let rules ← arguments.tail.mapM (readRule span)
  .ok ⟨name, rules⟩

/-- The name of a reduction case. -/
def readCaseName : Sexp → Except Fault String
  | .atom (.string text) _ => .ok text
  | .atom (.symbol name) _ => .ok name
  | other => .error (malformed .caseName other.span)

/-- A reduction case: an arrow, a pattern, a template and an optional name. -/
def readCase (around : Span) (case : Sexp) : Except Fault ReductionCase := do
  let items ← listPart (some case) around "a `(--> pattern template)` case"
  match items with
  | arrow :: pattern :: template :: rest =>
    if arrow.isSymbol "-->" && rest.length ≤ 1 then
      let name ← rest.head?.mapM readCaseName
      let pattern ← pattern.toPattern
      let template ← template.toTemplate
      .ok ⟨pattern, template, name, case.span⟩
    else .error (malformed .caseShape case.span)
  | _ => .error (malformed .caseShape case.span)

/-- The optional domain of a relation and what follows it. -/
def readDomain (arguments : List Sexp) (span : Span) :
    Except Fault (Option Pattern × List Sexp) :=
  match arguments with
  | first :: rest =>
    if first.isSymbol "#:domain" then
      match rest with
      | pattern :: cases => do
        let domain ← pattern.toPattern
        .ok (some domain, cases)
      | [] => .error (malformed .domainPattern span)
    else .ok (none, arguments)
  | [] => .ok (none, [])

/-- A reduction relation: a name, a language, an optional domain and the cases. -/
def readRelation (arguments : List Sexp) (span : Span) : Except Fault RelationDefinition := do
  let name ← symbolPart arguments[0]? span "a relation name"
  let language ← symbolPart arguments[1]? span "a language name"
  let (domain, rest) ← readDomain (arguments.drop 2) span
  let cases ← rest.mapM (readCase span)
  .ok ⟨name, language, domain, cases⟩

/-- The optional contract of a metafunction, which starts with a colon, and what follows it. -/
def readContract (arguments : List Sexp) (span : Span) :
    Except Fault (Option Contract × List Sexp) :=
  match arguments with
  | colon :: rest =>
    if colon.isSymbol ":" then
      let isArrow (part : Sexp) : Bool := part.isSymbol "->"
      match rest.dropWhile (fun part => !isArrow part) with
      | _ :: codomain :: cases => do
        let domain ← Sexp.toPatterns (rest.takeWhile (fun part => !isArrow part))
        let result ← codomain.toPattern
        .ok (some ⟨domain, result⟩, cases)
      | [_] => .error (malformed .contractCodomain span)
      | [] => .error (malformed .contractArrow span)
    else .ok (none, arguments)
  | [] => .ok (none, [])

/-- The declared name and contract of a metafunction and the cases after them. -/
def readHeader (arguments : List Sexp) (span : Span) :
    Except Fault (Option Symbol × Option Contract × List Sexp) :=
  match arguments.head?.bind Sexp.symbol? with
  | some name => do
    let (contract, cases) ← readContract arguments.tail span
    .ok (some name, contract, cases)
  | none => .ok (none, none, arguments)

/-- A metafunction case of the given name, if one is known, and the name it has. -/
def readClause (around : Span) (known : Option Symbol) (case : Sexp) :
    Except Fault (Symbol × MetafunctionCase) := do
  let items ← listPart (some case) around "a `[(f pattern ...) template]` case"
  match items with
  | [left, right] =>
    let parts ← listPart (some left) case.span "`(f pattern ...)`"
    let name ← symbolPart parts.head? left.span "the metafunction name"
    match known with
    | some wanted =>
      if wanted ≠ name then throw (malformed (.clauseName name wanted) left.span)
    | none => pure ()
    let patterns ← Sexp.toPatterns parts.tail
    let template ← right.toTemplate
    .ok (name, ⟨patterns, template, case.span⟩)
  | _ => .error (malformed .clauseShape case.span)

/-- The cases of a metafunction, all of one name, and that name if there is one. -/
def readClauses (around : Span) (known : Option Symbol) :
    List Sexp → Except Fault (Option Symbol × List MetafunctionCase)
  | [] => .ok (known, [])
  | case :: rest => do
    let (name, first) ← readClause around known case
    let (name, others) ← readClauses around (some name) rest
    .ok (name, first :: others)

/-- A metafunction: a language, an optional name with an optional contract, and the cases. -/
def readMetafunction (arguments : List Sexp) (span : Span) :
    Except Fault MetafunctionDefinition := do
  let language ← symbolPart arguments.head? span "a language name"
  let (declared, contract, rest) ← readHeader arguments.tail span
  let (name, cases) ← readClauses span declared rest
  match name with
  | some name => .ok ⟨name, language, contract, cases⟩
  | none => .error (malformed .namelessFunction span)

/-- A match: a language, a pattern and a term. -/
def readMatch (arguments : List Sexp) (span : Span) : Except Fault FormBody := do
  checkCount "redex-match" 3 arguments span
  match arguments with
  | [language, pattern, term] =>
    let language ← symbolPart (some language) span "a language name"
    let pattern ← pattern.toPattern
    .ok (.redexMatch language pattern term.toTerm)
  | _ => .error (malformed (.argumentCount "redex-match" 3 arguments.length) span)

/-- An expected binding: a symbol and a term. -/
def readBinding (binding : Sexp) : Except Fault (Symbol × Term) :=
  match binding.items? with
  | some [symbol, term] => do
    let name ← symbolPart (some symbol) binding.span "a bound symbol"
    .ok (name, term.toTerm)
  | _ => .error (malformed .symbolBinding binding.span)

/-- The expected bindings of one match. -/
def readExpected (sexp : Sexp) : Except Fault (List (Symbol × Term)) := do
  let bindings ← listPart (some sexp) sexp.span "a list of `(symbol term)` bindings"
  bindings.mapM readBinding

/-- A match assertion: a language, a pattern, a term and the expected matches. -/
def readAssertMatch (arguments : List Sexp) (span : Span) : Except Fault FormBody := do
  checkCount "redex-match-assert-equal" 4 arguments span
  match arguments with
  | [language, pattern, term, expected] =>
    let matchLists ← listPart (some expected) span "a list of expected matches"
    let expected ← matchLists.mapM readExpected
    let language ← symbolPart (some language) span "a language name"
    let pattern ← pattern.toPattern
    .ok (.assertMatch language pattern term.toTerm expected)
  | _ => .error (malformed (.argumentCount "redex-match-assert-equal" 4 arguments.length) span)

/-- A pattern and the term it is matched against. -/
def readPair (pair : Sexp) : Except Fault (Pattern × Term) :=
  match pair.items? with
  | some [pattern, term] => do
    let pattern ← pattern.toPattern
    .ok (pattern, term.toTerm)
  | _ => .error (malformed .patternBinding pair.span)

/-- A term assertion: a language, bindings, a template and the expected term. -/
def readAssertTerm (arguments : List Sexp) (span : Span) : Except Fault FormBody := do
  checkCount "term-let-assert-equal" 4 arguments span
  match arguments with
  | [language, bindings, template, expected] =>
    let pairs ← listPart (some bindings) span "a list of `(pattern term)` bindings"
    let bindings ← pairs.mapM readPair
    let language ← symbolPart (some language) span "a language name"
    let template ← template.toTemplate
    .ok (.assertTerm language bindings template expected.toTerm)
  | _ => .error (malformed (.argumentCount "term-let-assert-equal" 4 arguments.length) span)

/-- A reduction assertion: a relation, a term and the expected results. -/
def readAssertReduction (arguments : List Sexp) (span : Span) : Except Fault FormBody := do
  checkCount "apply-reduction-relation-assert-equal" 3 arguments span
  match arguments with
  | [relation, term, expected] =>
    let results ← listPart (some expected) span "a list of expected terms"
    let relation ← symbolPart (some relation) span "a relation name"
    .ok (.assertReduction relation term.toTerm (results.map Sexp.toTerm))
  | _ =>
    .error (malformed
      (.argumentCount "apply-reduction-relation-assert-equal" 3 arguments.length) span)

/-- A foreign source: one path. -/
def readForeignSource (arguments : List Sexp) (span : Span) : Except Fault FormBody :=
  match arguments with
  | [.atom (.string path) _] => .ok (.foreignSource path)
  | _ => .error (malformed .foreignPath span)

/-- The form of the given name with the given arguments; `headSpan` is where the name stands. -/
def readBody (head : Symbol) (headSpan : Span) (arguments : List Sexp) (span : Span) :
    Except Fault FormBody :=
  match head with
  | "define-language" => (readLanguage arguments span).map .language
  | "define-reduction-relation" => (readRelation arguments span).map .relation
  | "define-metafunction" => (readMetafunction arguments span).map .metafunction
  | "redex-match" => readMatch arguments span
  | "redex-match-assert-equal" => readAssertMatch arguments span
  | "term-let-assert-equal" => readAssertTerm arguments span
  | "apply-reduction-relation-assert-equal" => readAssertReduction arguments span
  | "require-foreign-source" => readForeignSource arguments span
  | other => .error (.located (.unknownForm other) headSpan "not a top-level form")

/-- The form that an expression writes. -/
def ofSexp (sexp : Sexp) : Except Fault Form :=
  match sexp with
  | .list (first :: arguments) span =>
    match first.symbol? with
    | some head => do
      let body ← readBody head first.span arguments span
      .ok ⟨body, span⟩
    | none => .error (malformed .noHead span)
  | .list [] span => .error (malformed .noHead span)
  | .atom _ span => .error (malformed .notAList span)

/-- The forms of a specification. -/
def readAll (source : String) : Except Fault (List Form) := do
  let sexps ← Sexp.readAll source
  sexps.mapM ofSexp

end Reduct.Form
