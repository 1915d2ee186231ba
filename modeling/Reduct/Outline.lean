import Reduct.Language.Shape
import Reduct.Sexp
import Reduct.Template.Annotated

/-!
# Outlines

The outline of a structure is a text in which every node has a mark of its own, so that it shows
what the written form leaves open: the kind of every atom, the exact bits of a float, the stem
and the mode of a pattern, the drivers of an ellipsis.
-/

namespace Reduct

namespace Outline

/-- A text in braces. -/
def braced (text : String) : String := "\x7b" ++ text ++ "\x7d"

/-- Outlines in parentheses. -/
def grouped (items : List String) : String := "(" ++ Text.spaced items ++ ")"

/-- A mark, a function and its arguments. -/
def applied (mark function : String) (arguments : List String) : String :=
  mark ++ function ++ "[" ++ Text.spaced arguments ++ "]"

/-- The sixteen hexadecimal digits of a word. -/
def hexDigits (word : UInt64) : String :=
  let digits := Nat.toDigits 16 word.toNat
  String.ofList (List.replicate (16 - digits.length) '0' ++ digits)

end Outline

open Outline

/-- The outline of an atom, with the given mark for symbols. -/
def Atom.outline (symbolMark : String) : Atom → String
  | integer value => "i:" ++ toString value.toInt
  | float value => "f:" ++ hexDigits value.bits
  | string text => "s:" ++ Text.quote text
  | boolean value => "b:" ++ booleanText value
  | symbol name => symbolMark ++ name

/-- The outline of a token: a delimiter by itself, or an atom. -/
def TokenKind.outline : TokenKind → String
  | opening delimiter => delimiter.opener.toString
  | closing delimiter => delimiter.closer.toString
  | atom value => value.outline "y:"

namespace Sexp

mutual

/-- The outline of an expression: every node with its span. -/
def outline : Sexp → String
  | .atom value span => value.outline "y:" ++ "@" ++ span.text
  | .list items span => grouped (outlineAll items) ++ "@" ++ span.text

/-- The outlines of a list of expressions. -/
def outlineAll : List Sexp → List String
  | [] => []
  | item :: rest => item.outline :: outlineAll rest

end

end Sexp

namespace Term

mutual

/-- The outline of a term. -/
def outline : Term → String
  | .atom value => value.outline "v:"
  | .hole => "h"
  | .sequence items => grouped (outlineAll items)

/-- The outlines of a list of terms. -/
def outlineAll : List Term → List String
  | [] => []
  | item :: rest => item.outline :: outlineAll rest

end

end Term

/-- The outline of a check. -/
def Check.outline (test : Check) : String := test.left ++ "=" ++ test.right

/-- The outline of a built-in pattern under a symbol. -/
def BuiltIn.outline (kind : BuiltIn) (symbol : Symbol) : String :=
  match kind with
  | variableExcept excluded => applied "except:" (kind.keyword ++ "/" ++ symbol) excluded
  | _ => "bi:" ++ kind.keyword ++ "/" ++ symbol

/-- The mark of a mode of repetition. -/
def RepeatMode.mark : RepeatMode → String
  | exhaustive => "rep?"
  | greedy => "rep!"

namespace Pattern

mutual

/-- The outline of a pattern. -/
def outline : Pattern → String
  | .literal value => value.outline "v:"
  | .nonTerminal stem symbol => "nt:" ++ stem ++ "/" ++ symbol
  | .builtIn kind symbol => kind.outline symbol
  | .sequence items => grouped (outlineAll items)
  | .repeated inner mode => mode.mark ++ braced inner.outline
  | .inHole context contents checks =>
    "inhole" ++ braced (context.outline ++ " | " ++ contents.outline ++ " | " ++
      Text.spaced (checks.map Check.outline))
  | .check test => "chk:" ++ test.outline
  | .unresolved symbol => "?:" ++ symbol

/-- The outlines of a list of patterns. -/
def outlineAll : List Pattern → List String
  | [] => []
  | item :: rest => item.outline :: outlineAll rest

end

end Pattern

/-- The outline of a shape. -/
def Shape.outline : Shape → String
  | builtIn kind symbol => kind.outline symbol
  | literal value => value.outline "v:"
  | sequence items => grouped (items.map Pattern.outline)
  | any => "any"

/-- The mark of a foreign call. -/
def InsertMode.mark : InsertMode → String
  | append => "call:"
  | splice => "splice:"

namespace Template

mutual

/-- The outline of a template. -/
def outline : Template → String
  | .literal term => term.outline
  | .symbol name => "?:" ++ name
  | .sequence items => grouped (outlineAll items)
  | .repeated inner => "rep" ++ braced inner.outline
  | .inHole context contents =>
    "inhole" ++ braced (context.outline ++ " | " ++ contents.outline)
  | .foreign function arguments mode => applied mode.mark function (outlineAll arguments)

/-- The outlines of a list of templates. -/
def outlineAll : List Template → List String
  | [] => []
  | item :: rest => item.outline :: outlineAll rest

end

end Template

namespace Annotated

mutual

/-- The outline of an annotated template. -/
def outline : Annotated → String
  | .literal term => term.outline
  | .bound symbol depth => "var:" ++ symbol ++ "@" ++ toString depth
  | .sequence items => grouped (outlineAll items)
  | .repeated inner drivers => "rep[" ++ Text.spaced drivers ++ "]" ++ braced inner.outline
  | .inHole context contents =>
    "inhole" ++ braced (context.outline ++ " | " ++ contents.outline)
  | .metafunction function arguments => applied "mf:" function (outlineAll arguments)
  | .foreign function arguments mode => applied mode.mark function (outlineAll arguments)

/-- The outlines of a list of annotated templates. -/
def outlineAll : List Annotated → List String
  | [] => []
  | item :: rest => item.outline :: outlineAll rest

end

end Annotated

end Reduct
