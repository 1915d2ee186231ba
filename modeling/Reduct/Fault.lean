import Reduct.Diagnostic
import Reduct.HoleRange
import Reduct.Pattern
import Reduct.Template
import Reduct.Token

/-!
# Faults of a specification

A fault is a cause and the labels that locate it. Every cause belongs to one code and has its
words, remarks and proposals here, so the passes that find faults hold no wording. A pass that
does not know where a pattern stands reports a fault without a label; the caller that knows the
form around it adds one with `Fault.orLabel`.
-/

namespace Reduct

/-- Where an ellipsis may not stand. -/
inductive EllipsisFault where
  /-- By itself where a pattern is expected. -/
  | lonePattern
  /-- By itself where a template is expected. -/
  | loneTemplate
  /-- After another ellipsis. -/
  | doubled
  /-- At the start of a sequence. -/
  | leading
deriving DecidableEq

/-- The reason given for a misplaced ellipsis. -/
def EllipsisFault.reason : EllipsisFault → String
  | lonePattern => "an ellipsis must follow the pattern it repeats"
  | loneTemplate => "an ellipsis must follow the template it repeats"
  | doubled => "an ellipsis cannot follow another ellipsis"
  | leading => "an ellipsis must follow the element it repeats"

/-- Keywords whose arguments have the wrong shape. -/
inductive KeywordFault where
  | inHolePattern
  | inHoleTemplate
  | variableExcept
  /-- A foreign call without the name of its function. -/
  | foreign (mode : InsertMode)
deriving DecidableEq

/-- The words for a keyword with arguments of the wrong shape. -/
def KeywordFault.message : KeywordFault → String
  | inHolePattern => "`in-hole` takes a context pattern and a contents pattern"
  | inHoleTemplate => "`in-hole` takes a context template and a contents template"
  | variableExcept => "`variable-except` takes one or more symbols"
  | foreign mode => "`" ++ mode.keyword ++ "` needs a function name"

/-- What a form has in place of what it needs. -/
inductive FormFault where
  /-- The top level holds an atom. -/
  | notAList
  /-- A form does not start with a symbol. -/
  | noHead
  /-- A part is missing or has another kind. -/
  | expected (part : String)
  /-- A form has another number of arguments. -/
  | argumentCount (form : String) (wanted found : Nat)
  | foreignPath
  | noAlternatives (name : Symbol)
  | domainPattern
  | caseShape
  | caseName
  | contractArrow
  | contractCodomain
  | clauseShape
  | clauseName (found wanted : Symbol)
  | namelessFunction
  | symbolBinding
  | patternBinding
  /-- The text holds another number of expressions than one. -/
  | expressionCount (found : Nat)
deriving DecidableEq

/-- The words for a malformed form. -/
def FormFault.message : FormFault → String
  | notAList => "expected a top-level form in parentheses"
  | noHead => "a top-level form must start with its name"
  | expected part => "expected " ++ part
  | argumentCount form wanted found => s!"`{form}` takes {wanted} arguments, found {found}"
  | foreignPath => "`require-foreign-source` takes one string path"
  | noAlternatives name => s!"non-terminal `{name}` has no alternatives"
  | domainPattern => "`#:domain` needs a pattern"
  | caseShape => "a reduction case has the shape `(--> pattern template [name])`"
  | caseName => "a reduction case name is a string or symbol"
  | contractArrow => "metafunction contract is missing `->`"
  | contractCodomain => "metafunction contract is missing a codomain"
  | clauseShape => "a metafunction case has the shape `[(f pattern ...) template]`"
  | clauseName found wanted => s!"case is for `{found}`, but the metafunction is `{wanted}`"
  | namelessFunction => "metafunction has no name and no cases"
  | symbolBinding => "a binding has the shape `(symbol term)`"
  | patternBinding => "a binding has the shape `(pattern term)`"
  | expressionCount found => s!"expected one expression, found {found}"

/-- The things that a specification defines by name. -/
inductive DefinitionKind where
  | language
  | relation
  | metafunction
deriving DecidableEq

/-- The words for a kind of definitions. -/
def DefinitionKind.text : DefinitionKind → String
  | language => "language"
  | relation => "reduction relation"
  | metafunction => "metafunction"

/-- States that a well-formed input does not lead the compiler to. -/
inductive InternalFault where
  | noMatcher (pattern : Pattern)
  | notALeaf (pattern : Pattern)
  | notANonTerminal (name language : Symbol)
  | outOfScope (symbol : Symbol)
  | unknownMetafunction (name : Symbol)
  | driverOutOfScope (symbol : Symbol)
  | noDrivers
  | unregisteredRelation (name : Symbol)
  | unregisteredMetafunction (name : Symbol)
  /-- The rules of a grammar are nested deeper than there are rules. -/
  | rulesExhausted (name : Symbol)

/-- The words for a state that is not expected. -/
def InternalFault.message : InternalFault → String
  | noMatcher pattern => "no matcher can be generated for `" ++ pattern.text ++ "`"
  | notALeaf pattern => "`" ++ pattern.text ++ "` is not a leaf pattern"
  | notANonTerminal name language => s!"`{name}` is not a non-terminal of `{language}`"
  | outOfScope symbol => s!"template variable `{symbol}` has no value in scope"
  | unknownMetafunction name => s!"unknown metafunction `{name}`"
  | driverOutOfScope symbol => s!"ellipsis driver `{symbol}` is not in scope"
  | noDrivers => "template ellipsis without drivers"
  | unregisteredRelation name => s!"relation `{name}` was not registered"
  | unregisteredMetafunction name => s!"metafunction `{name}` was not registered"
  | rulesExhausted name => s!"the rules of the grammar are exhausted at `{name}`"

/-- Why a specification is refused. -/
inductive Cause where
  | unexpectedClose
  | unclosed
  /-- A list is closed by the other kind of delimiter. -/
  | mismatched (expected : Delimiter)
  | unterminatedString
  | unexpectedText (text : String)
  | integerOutOfRange (text : String)
  | invalidNumber (text : String)
  | unknownEscape (char : Char)
  | danglingBackslash
  | unknownForm (head : Symbol)
  | malformed (fault : FormFault)
  | misplacedEllipsis (fault : EllipsisFault)
  | keywordShape (fault : KeywordFault)
  | duplicateNonTerminal (name : Symbol)
  | underscoreName (name : Symbol)
  /-- Rules that alias one another in a circle; the path starts and ends with one name. -/
  | aliasCycle (path : List Symbol)
  | unknownLanguage (name : Symbol)
  /-- A symbol with an underscore whose stem names nothing. -/
  | badStem (symbol : Symbol)
  /-- A keyword without its arguments; `shape` shows how it is written. -/
  | bareKeyword (symbol : Symbol) (shape : String)
  /-- The context of an `in-hole` may have another number of holes than one. -/
  | contextHoles (context : Pattern) (found : Option HoleRange)
  | duplicateDefinition (kind : DefinitionKind) (name : Symbol)
  /-- A pattern variable stands under different numbers of ellipses. -/
  | depthMismatch (symbol : Symbol) (first second : Nat)
  /-- Two patterns of one form bind the same symbol. -/
  | boundTwice (symbol : Symbol)
  /-- A template uses a variable under fewer ellipses than it was bound under. -/
  | tooShallow (symbol : Symbol) (bound used : Nat)
  /-- A template ellipsis has no variable to walk. -/
  | nothingIterated (template : Template)
  | unknownRelation (name : Symbol)
  | internal (fault : InternalFault)

namespace Cause

/-- The code of a cause. -/
def code : Cause → Code
  | unexpectedClose => .unexpectedClose
  | unclosed => .unclosedDelimiter
  | mismatched _ => .unclosedDelimiter
  | unterminatedString => .invalidLiteral
  | unexpectedText _ => .invalidLiteral
  | integerOutOfRange _ => .invalidLiteral
  | invalidNumber _ => .invalidLiteral
  | unknownEscape _ => .invalidLiteral
  | danglingBackslash => .invalidLiteral
  | unknownForm _ => .unknownForm
  | malformed _ => .malformedForm
  | misplacedEllipsis _ => .misplacedEllipsis
  | keywordShape _ => .keywordShape
  | duplicateNonTerminal _ => .duplicateNonTerminal
  | underscoreName _ => .underscoreName
  | aliasCycle _ => .aliasCycle
  | unknownLanguage _ => .unknownLanguage
  | badStem _ => .badStem
  | bareKeyword .. => .bareKeyword
  | contextHoles .. => .contextHoles
  | duplicateDefinition .. => .duplicateDefinition
  | depthMismatch .. => .inconsistentDepth
  | boundTwice _ => .inconsistentDepth
  | tooShallow .. => .tooShallow
  | nothingIterated _ => .tooManyEllipses
  | unknownRelation _ => .unknownRelation
  | internal _ => .internal

/-- The words for a cause. -/
def message : Cause → String
  | unexpectedClose => "unexpected closing delimiter"
  | unclosed => "unclosed delimiter"
  | mismatched expected =>
    "mismatched closing delimiter, expected `" ++ String.singleton expected.closer ++ "`"
  | unterminatedString => "unterminated string literal"
  | unexpectedText text => s!"unexpected character `{text}`"
  | integerOutOfRange text => s!"integer literal `{text}` is out of range"
  | invalidNumber text => s!"invalid number literal `{text}`"
  | unknownEscape char => "unknown escape sequence `\\" ++ String.singleton char ++ "`"
  | danglingBackslash => "dangling backslash"
  | unknownForm head => s!"unknown form `{head}`"
  | malformed fault => fault.message
  | misplacedEllipsis fault => "misplaced ellipsis: " ++ fault.reason
  | keywordShape fault => fault.message
  | duplicateNonTerminal name => s!"non-terminal `{name}` is defined more than once"
  | underscoreName name => s!"non-terminal name `{name}` contains an underscore"
  | aliasCycle path => "non-terminal cycle: " ++ Text.join " -> " path
  | unknownLanguage name => s!"unknown language `{name}`"
  | badStem symbol =>
    "before underscore must be a non-terminal or built-in pattern, found `" ++
      Symbol.stem symbol ++ "` in `" ++ symbol ++ "`"
  | bareKeyword symbol _ => s!"reserved keyword `{symbol}` used as a bare pattern"
  | contextHoles context found =>
    "in-hole context `" ++ context.text ++ "` must match exactly one hole, found " ++
      (found.map HoleRange.text).getD "no finite term"
  | duplicateDefinition kind name => kind.text ++ " `" ++ name ++ "` is defined more than once"
  | depthMismatch symbol first second =>
    s!"`{symbol}` is matched at ellipsis depth {first} and at depth {second}"
  | boundTwice symbol => s!"`{symbol}` is bound by more than one term-let pattern"
  | tooShallow symbol bound used =>
    s!"`{symbol}` is bound at ellipsis depth {bound} but used at depth {used}"
  | nothingIterated template =>
    "too many ellipses: `" ++ template.text ++
      "` iterates no variable bound under an ellipsis"
  | unknownRelation name => s!"unknown reduction relation `{name}`"
  | internal fault => fault.message

/-- The remarks on a cause. -/
def notes : Cause → List String
  | aliasCycle _ => ["a non-terminal cannot be defined only in terms of itself"]
  | badStem symbol => [s!"`{symbol}` is not a literal variable because it contains an underscore"]
  | depthMismatch .. =>
    ["every occurrence of a pattern variable must be under the same number of ellipses"]
  | internal _ => [Diagnostic.internalNote]
  | _ => []

/-- The proposals for a cause. -/
def suggestions : Cause → List String
  | unknownForm _ =>
    ["top-level forms are define-language, define-reduction-relation, " ++
      "define-metafunction, redex-match, redex-match-assert-equal, " ++
      "term-let-assert-equal, apply-reduction-relation-assert-equal " ++
      "and require-foreign-source"]
  | bareKeyword _ shape => [s!"write `{shape}`"]
  | contextHoles .. => ["use an evaluation-context non-terminal such as `E ::= hole (f E)`"]
  | tooShallow symbol bound used =>
    ["follow `" ++ symbol ++ "` with " ++ toString (bound - used) ++ " more `...`"]
  | _ => []

end Cause

/-- A cause and the spans that locate it. -/
structure Fault where
  cause : Cause
  labels : List Label

namespace Fault

/-- A fault whose place is not known yet. -/
def unlocated (cause : Cause) : Fault := ⟨cause, []⟩

/-- A fault at a span. -/
def located (cause : Cause) (span : Span) (message : String) : Fault :=
  ⟨cause, [Label.primary span message]⟩

/-- A fault at a span with a second span that gives context. -/
def related (cause : Cause) (span : Span) (message : String) (other : Span) (context : String) :
    Fault :=
  ⟨cause, [Label.primary span message, Label.secondary other context]⟩

/-- Give the place of a fault unless it is known. -/
def orLabel (fault : Fault) (span : Span) (message : String) : Fault :=
  { fault with labels := Label.orPrimary fault.labels span message }

/-- The report of a fault. -/
def diagnostic (fault : Fault) : Diagnostic where
  code := fault.cause.code
  severity := .error
  message := fault.cause.message
  labels := fault.labels
  notes := fault.cause.notes
  suggestions := fault.cause.suggestions

/-- The result of a pass, with the place of its fault given unless it is known. -/
def locate {α : Type} (span : Span) (message : String) (result : Except Fault α) :
    Except Fault α :=
  result.mapError (·.orLabel span message)

end Fault

end Reduct
