import Reduct.Token.Scan

/-!
# Expressions

Tokens are grouped into expressions: atoms and lists, each with its span. Lists are read with a
stack of the open delimiters, so the depth of nesting is not bounded. Reading fails at the first
token that no balanced continuation could have: a closer with nothing to close, a closer of the
other kind, or the end of the input inside a list.
-/

namespace Reduct

/-- An expression of the source text. -/
inductive Sexp where
  /-- An atom. -/
  | atom (value : Atom) (span : Span)
  /-- A list between delimiters of either kind. -/
  | list (items : List Sexp) (span : Span)

namespace Sexp

instance : Inhabited Sexp := ⟨.list [] default⟩

/-- Where an expression stands. -/
def span : Sexp → Span
  | .atom _ span => span
  | .list _ span => span

/-- The name of a symbol. -/
def symbol? : Sexp → Option Symbol
  | .atom (.symbol name) _ => some name
  | _ => none

/-- Whether the expression is the given symbol. -/
def isSymbol (sexp : Sexp) (name : Symbol) : Bool := decide (sexp.symbol? = some name)

/-- The items of a list. -/
def items? : Sexp → Option (List Sexp)
  | .list items _ => some items
  | .atom .. => none

/-- The symbol at the start of a list. -/
def head? (sexp : Sexp) : Option Symbol :=
  match sexp with
  | .list (first :: _) _ => first.symbol?
  | _ => none

/-- An open list: its delimiter, where that stands, and the items before it in the list around
it, the last first. -/
structure Opened where
  delimiter : Delimiter
  span : Span
  before : List Sexp

/-- The expressions of the remaining tokens. `stack` holds the open lists, the innermost first,
and `items` what the innermost one holds so far, the last first. -/
def collect (stop : Span) : List Token → List Opened → List Sexp → Except Fault (List Sexp)
  | [], [], items => .ok items.reverse
  | [], opened :: _, _ =>
    .error (.related .unclosed stop "input ends here" opened.span "opened here")
  | ⟨.atom value, span⟩ :: rest, stack, items => collect stop rest stack (.atom value span :: items)
  | ⟨.opening delimiter, span⟩ :: rest, stack, items =>
    collect stop rest (⟨delimiter, span, items⟩ :: stack) []
  | ⟨.closing _, span⟩ :: _, [], _ =>
    .error (.located .unexpectedClose span "nothing to close here")
  | ⟨.closing delimiter, span⟩ :: rest, opened :: outer, items =>
    if delimiter = opened.delimiter then
      collect stop rest outer (.list items.reverse (opened.span.merge span) :: opened.before)
    else
      .error (.related (.mismatched opened.delimiter) span "wrong delimiter" opened.span
        "opened here")

/-- The expressions of a list of tokens of a source with the given number of bytes. -/
def ofTokens (bytes : Nat) (tokens : List Token) : Except Fault (List Sexp) :=
  collect (.point bytes) tokens [] []

/-- The expressions of a source text. -/
def readAll (source : String) : Except Fault (List Sexp) := do
  let tokens ← Token.scan source
  ofTokens source.utf8ByteSize tokens

/-- The one expression of a source text. -/
def readOne (source : String) : Except Fault Sexp := do
  let sexps ← readAll source
  match sexps with
  | [sexp] => .ok sexp
  | other =>
    .error (.located (.malformed (.expressionCount other.length)) (.whole source.utf8ByteSize)
      "input")

mutual

/-- The term that an expression writes. The symbol `hole` is the hole. -/
def toTerm : Sexp → Term
  | .atom (.symbol name) _ => if name = "hole" then .hole else .symbol name
  | .atom value _ => .atom value
  | .list items _ => .sequence (toTerms items)

/-- The terms that a list of expressions writes. -/
def toTerms : List Sexp → List Term
  | [] => []
  | item :: rest => item.toTerm :: toTerms rest

end

/-- The symbol that repeats the element before it. -/
def ellipsis : Symbol := "..."

/-- A fault of an ellipsis. -/
def ellipsisFault (fault : EllipsisFault) (span : Span) : Fault :=
  .located (.misplacedEllipsis fault) span "this `...`"

/-- A fault of a keyword. -/
def keywordFault (fault : KeywordFault) (span : Span) : Fault :=
  .located (.keywordShape fault) span "here"

/-- The names of a list of symbols. -/
def symbols? : List Sexp → Option (List Symbol)
  | [] => some []
  | item :: rest =>
    match item.symbol?, symbols? rest with
    | some name, some names => some (name :: names)
    | _, _ => none

mutual

/-- The pattern that an expression writes, its symbols unresolved. -/
def toPattern : Sexp → Except Fault Pattern
  | .atom (.symbol name) span =>
    if name = ellipsis then .error (ellipsisFault .lonePattern span) else .ok (.unresolved name)
  | .atom value _ => .ok (.literal value)
  | .list items span =>
    match (Sexp.list items span).head? with
    | some "in-hole" =>
      match items with
      | [_, context, contents] => do
        let outer ← context.toPattern
        let inner ← contents.toPattern
        .ok (.inHole outer inner [])
      | _ => .error (keywordFault .inHolePattern span)
    | some "variable-except" =>
      match symbols? items.tail with
      | some (first :: rest) =>
        let kind := BuiltIn.variableExcept (first :: rest)
        .ok (.builtIn kind kind.keyword)
      | _ => .error (keywordFault .variableExcept span)
    | _ => do
      let patterns ← toPatternsAfter .leading items
      .ok (.sequence patterns)

/-- The patterns of the items of a sequence; the element before an ellipsis is repeated. An
ellipsis in front of the items is the given fault. -/
def toPatternsAfter (fault : EllipsisFault) : List Sexp → Except Fault (List Pattern)
  | [] => .ok []
  | [item] =>
    if item.isSymbol ellipsis then .error (ellipsisFault fault item.span)
    else do
      let first ← item.toPattern
      .ok [first]
  | item :: next :: rest =>
    if item.isSymbol ellipsis then .error (ellipsisFault fault item.span)
    else do
      let first ← item.toPattern
      if next.isSymbol ellipsis then do
        let others ← toPatternsAfter .doubled rest
        .ok (.repeated first .exhaustive :: others)
      else do
        let others ← toPatternsAfter .leading (next :: rest)
        .ok (first :: others)

end

/-- The patterns of the items of a sequence. -/
def toPatterns (items : List Sexp) : Except Fault (List Pattern) := toPatternsAfter .leading items

/-- How a foreign keyword inserts its result. -/
def insertMode? : Symbol → Option InsertMode
  | "foreign-call" => some .append
  | "foreign-splice" => some .splice
  | _ => none

mutual

/-- The template that an expression writes. -/
def toTemplate : Sexp → Except Fault Template
  | .atom (.symbol name) span =>
    if name = ellipsis then .error (ellipsisFault .loneTemplate span)
    else if name = "hole" then .ok (.literal .hole)
    else .ok (.symbol name)
  | .atom value _ => .ok (.literal (.atom value))
  | .list items span =>
    match (Sexp.list items span).head? with
    | some "in-hole" =>
      match items with
      | [_, context, contents] => do
        let outer ← context.toTemplate
        let inner ← contents.toTemplate
        .ok (.inHole outer inner)
      | _ => .error (keywordFault .inHoleTemplate span)
    | head =>
      match head.bind insertMode? with
      | some mode =>
        match items with
        | _ :: function :: rest =>
          match function.symbol? with
          | some name => do
            let arguments ← toTemplatesAfter .leading rest
            .ok (.foreign name arguments mode)
          | none => .error (keywordFault (.foreign mode) span)
        | _ => .error (keywordFault (.foreign mode) span)
      | none => do
        let templates ← toTemplatesAfter .leading items
        .ok (.sequence templates)

/-- The templates of the items of a sequence; the element before an ellipsis is repeated. An
ellipsis in front of the items is the given fault. -/
def toTemplatesAfter (fault : EllipsisFault) : List Sexp → Except Fault (List Template)
  | [] => .ok []
  | [item] =>
    if item.isSymbol ellipsis then .error (ellipsisFault fault item.span)
    else do
      let first ← item.toTemplate
      .ok [first]
  | item :: next :: rest =>
    if item.isSymbol ellipsis then .error (ellipsisFault fault item.span)
    else do
      let first ← item.toTemplate
      if next.isSymbol ellipsis then do
        let others ← toTemplatesAfter .doubled rest
        .ok (.repeated first :: others)
      else do
        let others ← toTemplatesAfter .leading (next :: rest)
        .ok (first :: others)

end

end Sexp

/-- The term of a source text. -/
def Term.read (source : String) : Except Fault Term := (Sexp.readOne source).map Sexp.toTerm

/-- The unresolved pattern of a source text. -/
def Pattern.read (source : String) : Except Fault Pattern := do
  let sexp ← Sexp.readOne source
  sexp.toPattern

/-- The template of a source text. -/
def Template.read (source : String) : Except Fault Template := do
  let sexp ← Sexp.readOne source
  sexp.toTemplate

end Reduct
