import Reduct.Diagnostic
import Reduct.Text

/-!
# Explanations of the codes

Every code has a short text in Markdown that says what is wrong and shows an example.
-/

namespace Reduct

namespace Code

/-- The lines of the explanation of a code. -/
def explanationLines : Code → List String
  | unexpectedClose =>
    ["# E1001: Unexpected closing parenthesis",
      "",
      "A `)` or `]` appeared with no matching opening delimiter.",
      "",
      "```text",
      "(define-language L (e ::= n)))",
      "                              ^ nothing left to close",
      "```",
      "",
      "Remove the extra delimiter or add the missing opening one."]
  | unclosedDelimiter =>
    ["# E1002: Unclosed delimiter",
      "",
      "The file ended while a `(` or `[` was still open, or a bracket was closed",
      "with the wrong kind of delimiter.",
      "",
      "```text",
      "(redex-match L (n_1 n_1) (5 5)",
      "```",
      "",
      "Add the missing `)`."]
  | invalidLiteral =>
    ["# E1003: Invalid literal",
      "",
      "A string literal was not terminated, used an unknown escape, or a token",
      "that looks like a number could not be read as one.",
      "",
      "Supported escapes are `\\\"`, `\\\\`, `\\n` and `\\t`. Booleans are written",
      "`#t`, `#f`, `#true` or `#false`."]
  | unknownForm =>
    ["# E1004: Unknown form",
      "",
      "Every top-level form must start with one of:",
      "",
      "- `define-language`",
      "- `define-reduction-relation`",
      "- `define-metafunction`",
      "- `redex-match`",
      "- `redex-match-assert-equal`",
      "- `term-let-assert-equal`",
      "- `apply-reduction-relation-assert-equal`",
      "- `require-foreign-source`"]
  | malformedForm =>
    ["# E1005: Malformed form",
      "",
      "A known form has the wrong shape: a missing name, a missing clause, or an",
      "argument of the wrong kind.",
      "",
      "```text",
      "(define-metafunction L",
      "  add : number number -> number",
      "  [(sum number_1 number_2) ,(+ number_1 number_2)])",
      "```",
      "",
      "Metafunction cases must repeat the metafunction's own name."]
  | misplacedEllipsis =>
    ["# E1006: Misplaced ellipsis",
      "",
      "`...` repeats the element immediately before it. It cannot start a",
      "sequence and cannot follow another `...`.",
      "",
      "```text",
      "(... n)        ; nothing to repeat",
      "(n ... ...)    ; write ((n ...) ...) for nested repetition",
      "```"]
  | keywordShape =>
    ["# E1007: Reserved keyword with the wrong shape",
      "",
      "`in-hole` takes exactly two sub-patterns, `variable-except` takes one or",
      "more symbols, and `foreign-call`/`foreign-splice` need a function name.",
      "",
      "```text",
      "(in-hole E)            ; missing the contents pattern",
      "(variable-except 1)    ; only symbols can be excluded",
      "```"]
  | duplicateNonTerminal =>
    ["# E2001: Duplicate non-terminal",
      "",
      "Each non-terminal is defined exactly once per language. Merge the",
      "alternatives of both clauses into a single clause.",
      "",
      "```text",
      "(define-language L",
      "  (e ::= n)",
      "  (e ::= (+ e e)))   ; error: `e` defined twice",
      "```"]
  | underscoreName =>
    ["# E2002: Underscore in a non-terminal name",
      "",
      "Underscores separate a pattern variable's prefix from its suffix",
      "(`e_1`), so a non-terminal name cannot contain one."]
  | aliasCycle =>
    ["# E2003: Non-terminal cycle",
      "",
      "A non-terminal whose alternatives only alias other non-terminals must",
      "eventually reach a real alternative. A cycle of pure aliases can never",
      "match anything.",
      "",
      "```text",
      "(define-language L",
      "  (x ::= y)",
      "  (y ::= x))   ; error: cycle x -> y -> x",
      "```"]
  | unknownLanguage =>
    ["# E2004: Unknown language",
      "",
      "The form names a language that has not been defined by an earlier",
      "`define-language` form."]
  | badStem =>
    ["# E2005: Bad underscore prefix",
      "",
      "A symbol with an underscore must start with a non-terminal name or a",
      "built-in pattern keyword. Anything before the underscore is looked up;",
      "`foo_1` is rejected unless `foo` is a non-terminal."]
  | bareKeyword =>
    ["# E2006: Reserved keyword used bare",
      "",
      "`in-hole` and `variable-except` only have meaning in their applied forms",
      "`(in-hole context contents)` and `(variable-except x ...)`."]
  | contextHoles =>
    ["# E2007: In-hole context must contain exactly one hole",
      "",
      "The context of `(in-hole context contents)` has to match terms with",
      "exactly one `hole`. A context that can match zero holes, or more than",
      "one, is rejected.",
      "",
      "```text",
      "(define-language L",
      "  (e ::= (+ e e) n)",
      "  (n ::= number))",
      "",
      "(redex-match L (in-hole e n) (+ 1 2))   ; error: `e` has no hole",
      "```",
      "",
      "Define an evaluation-context non-terminal instead:",
      "",
      "```text",
      "  (E ::= hole (+ E e) (+ e E))",
      "```"]
  | duplicateDefinition =>
    ["# E2008: Duplicate definition",
      "",
      "A language, reduction relation or metafunction was defined twice with the",
      "same name."]
  | inconsistentDepth =>
    ["# E3001: Inconsistent ellipsis depth",
      "",
      "Every occurrence of a pattern variable in one pattern must sit under the",
      "same number of ellipses.",
      "",
      "```text",
      "((n_1 ...) ... n_1 ...)   ; n_1 at depth 2 and depth 1",
      "```"]
  | tooShallow =>
    ["# E3002: Template variable used at too shallow a depth",
      "",
      "A variable bound under `d` ellipses is a nested sequence of depth `d` and",
      "must be used under at least `d` ellipses in the template.",
      "",
      "```text",
      "(--> (n_1 ...) n_1)   ; error: n_1 needs one ellipsis",
      "(--> (n_1 ...) (n_1 ...))",
      "```"]
  | tooManyEllipses =>
    ["# E3003: Too many ellipses",
      "",
      "A template ellipsis must iterate over at least one variable that was",
      "bound under at least as many ellipses.",
      "",
      "```text",
      "(--> n_1 (n_1 ...))   ; n_1 is a single number",
      "```"]
  | unknownRelation =>
    ["# E3004: Unknown reduction relation",
      "",
      "The assertion names a reduction relation that has not been defined."]
  | internal =>
    ["# E9001: Internal compiler error",
      "",
      "The compiler reached a state it considers impossible. Please report the",
      "input that triggered it."]

/-- The explanation of a code. -/
def explanation (code : Code) : String :=
  String.join (code.explanationLines.map (· ++ "\n"))

/-- The codes that have an explanation. -/
def documented : List Code := all

end Code

end Reduct
