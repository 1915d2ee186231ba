import Reduct.Span

/-!
# Diagnostics

A diagnostic tells a reader what is wrong: a code to look up, a message, labelled spans of the
source, notes and suggestions. The code groups the causes: the first digit is one for the syntax
of a specification, two for grammars and names, three for patterns and templates, and nine for
the compiler itself.
-/

namespace Reduct

/-- The groups of causes. -/
inductive Code where
  | unexpectedClose
  | unclosedDelimiter
  | invalidLiteral
  | unknownForm
  | malformedForm
  | misplacedEllipsis
  | keywordShape
  | duplicateNonTerminal
  | underscoreName
  | aliasCycle
  | unknownLanguage
  | badStem
  | bareKeyword
  | contextHoles
  | duplicateDefinition
  | inconsistentDepth
  | tooShallow
  | tooManyEllipses
  | unknownRelation
  | internal
deriving DecidableEq

namespace Code

/-- Every code, in the order of their numbers. -/
def all : List Code :=
  [unexpectedClose, unclosedDelimiter, invalidLiteral, unknownForm, malformedForm,
    misplacedEllipsis, keywordShape, duplicateNonTerminal, underscoreName, aliasCycle,
    unknownLanguage, badStem, bareKeyword, contextHoles, duplicateDefinition, inconsistentDepth,
    tooShallow, tooManyEllipses, unknownRelation, internal]

/-- The written form of a code. -/
def text : Code → String
  | unexpectedClose => "E1001"
  | unclosedDelimiter => "E1002"
  | invalidLiteral => "E1003"
  | unknownForm => "E1004"
  | malformedForm => "E1005"
  | misplacedEllipsis => "E1006"
  | keywordShape => "E1007"
  | duplicateNonTerminal => "E2001"
  | underscoreName => "E2002"
  | aliasCycle => "E2003"
  | unknownLanguage => "E2004"
  | badStem => "E2005"
  | bareKeyword => "E2006"
  | contextHoles => "E2007"
  | duplicateDefinition => "E2008"
  | inconsistentDepth => "E3001"
  | tooShallow => "E3002"
  | tooManyEllipses => "E3003"
  | unknownRelation => "E3004"
  | internal => "E9001"

/-- Whether two texts differ at most in the case of ASCII letters. -/
def sameIgnoringCase (left right : String) : Bool :=
  left.toList.map Char.toLower == right.toList.map Char.toLower

/-- The code of a written form, in either case. -/
def ofText? (written : String) : Option Code :=
  all.find? fun code => sameIgnoringCase code.text written

/-- Whether the code is about the syntax of a specification. -/
def isSyntax (code : Code) : Bool := "E1".toList.isPrefixOf code.text.toList

/-- Whether the code is about grammars and names. -/
def isGrammar (code : Code) : Bool := "E2".toList.isPrefixOf code.text.toList

end Code

/-- How serious a diagnostic is. -/
inductive Severity where
  | error
  | warning
  | note
deriving DecidableEq

/-- The word for a severity. -/
def Severity.text : Severity → String
  | error => "error"
  | warning => "warning"
  | note => "note"

/-- A span with a message. The primary label is where the fault is; others give context. -/
structure Label where
  span : Span
  message : String
  isPrimary : Bool
deriving DecidableEq

namespace Label

/-- A label where the fault is. -/
def primary (span : Span) (message : String) : Label := ⟨span, message, true⟩

/-- A label that gives context. -/
def secondary (span : Span) (message : String) : Label := ⟨span, message, false⟩

/-- The span of the first primary label. -/
def primarySpan? (labels : List Label) : Option Span :=
  (labels.find? (·.isPrimary)).map (·.span)

/-- Add a primary label at the end unless there is one. -/
def orPrimary (labels : List Label) (span : Span) (message : String) : List Label :=
  if (primarySpan? labels).isSome then labels else labels ++ [primary span message]

end Label

/-- A report for a reader. -/
structure Diagnostic where
  code : Code
  severity : Severity
  message : String
  /-- Labelled spans, in the order they are shown. -/
  labels : List Label
  /-- Remarks that give context. -/
  notes : List String
  /-- Proposals for a remedy. -/
  suggestions : List String
deriving DecidableEq

namespace Diagnostic

/-- The remark on every fault of the compiler itself. -/
def internalNote : String := "this is a bug in the compiler"

/-- The span of the first primary label. -/
def primarySpan? (diagnostic : Diagnostic) : Option Span := Label.primarySpan? diagnostic.labels

/-- Whether the diagnostic is an error. -/
def isError (diagnostic : Diagnostic) : Bool := decide (diagnostic.severity = .error)

/-- The heading: severity, code and message. -/
def heading (diagnostic : Diagnostic) : String :=
  diagnostic.severity.text ++ "[" ++ diagnostic.code.text ++ "]: " ++ diagnostic.message

end Diagnostic

end Reduct
