import Reduct.Diagnostic
import Reduct.Diagnostic.Lines
import Reduct.Text

/-!
# Diagnostics as text

A diagnostic is shown as a heading, its labels, its notes and its suggestions, and an empty
line. With the source at hand a label shows its line and underlines its span as far as the line
goes; without it a label shows its byte offsets.
-/

namespace Reduct

/-- When output has colours. -/
inductive ColorMode where
  /-- On a terminal. -/
  | auto
  | always
  | never
deriving DecidableEq

/-- Whether output has colours. -/
def ColorMode.isColored (mode : ColorMode) (terminal : Bool) : Bool :=
  match mode with
  | auto => terminal
  | always => true
  | never => false

/-- The colours of the parts of a diagnostic. -/
inductive Color where
  | red | yellow | cyan | green | bold | blue
deriving DecidableEq

/-- The terminal's code for a colour. -/
def Color.code : Color → String
  | red => "\x1b[1;31m"
  | yellow => "\x1b[1;33m"
  | cyan => "\x1b[1;36m"
  | green => "\x1b[1;32m"
  | bold => "\x1b[1m"
  | blue => "\x1b[1;34m"

/-- The terminal's code that ends a colour. -/
def Color.reset : String := "\x1b[0m"

/-- The source that the spans of a diagnostic point into. -/
structure SourceFile where
  path : String
  lines : LineTable

/-- A source with its path. -/
def SourceFile.ofText (path text : String) : SourceFile := ⟨path, .ofSource text⟩

namespace Render

/-- A text in a colour, if there are colours. -/
def paint (colored : Bool) (color : Color) (text : String) : String :=
  if colored then color.code ++ text ++ Color.reset else text

/-- The colour of a severity. -/
def severityColor : Severity → Color
  | .error => .red
  | .warning => .yellow
  | .note => .cyan

/-- The colour of a label. -/
def labelColor (label : Label) : Color := if label.isPrimary then .red else .blue

/-- The number of markers under a span: its bytes, but at least one and no more than the
characters left on the line. -/
def markerCount (bytes available : Nat) : Nat := max 1 (min bytes (max 1 available))

/-- The markers below a line: blanks up to the column, then the marked characters. -/
def underline (label : Label) (column : Nat) (lineLength : Nat) : String :=
  let count := markerCount label.span.length (lineLength - (column - 1))
  Text.repeated (column - 1) " " ++ Text.repeated count (if label.isPrimary then "^" else "-")

/-- The lines of a label, with the source at hand. -/
def labelInSource (colored : Bool) (source : SourceFile) (label : Label) : String :=
  let position := source.lines.position label.span.start
  let chars := source.lines.lineChars position.line
  let gutter := toString position.line
  let blank := Text.repeated gutter.length " "
  let color := labelColor label
  source.path ++ ":" ++ gutter ++ ":" ++ toString position.column ++ "\n" ++
    "  " ++ blank ++ " |\n" ++
    "  " ++ gutter ++ " | " ++ String.ofList chars ++ "\n" ++
    "  " ++ blank ++ " | " ++ paint colored color (underline label position.column chars.length) ++
    " " ++ paint colored color label.message ++ "\n"

/-- The line of a label, without the source. -/
def labelAlone (colored : Bool) (label : Label) : String :=
  label.span.text ++ ": " ++ paint colored (labelColor label) label.message ++ "\n"

/-- The lines of a label. -/
def label (colored : Bool) (source : Option SourceFile) (shown : Label) : String :=
  (if shown.isPrimary then "  --> " else "      ") ++
    match source with
    | some file => labelInSource colored file shown
    | none => labelAlone colored shown

/-- A remark below the labels. -/
def remark (colored : Bool) (color : Color) (word text : String) : String :=
  "  = " ++ paint colored color word ++ ": " ++ text ++ "\n"

end Render

/-- A diagnostic as text. -/
def Diagnostic.render (diagnostic : Diagnostic) (source : Option SourceFile) (colored : Bool) :
    String :=
  Render.paint colored (Render.severityColor diagnostic.severity) diagnostic.severity.text ++
    Render.paint colored .bold ("[" ++ diagnostic.code.text ++ "]") ++
    ": " ++ diagnostic.message ++ "\n" ++
    String.join (diagnostic.labels.map (Render.label colored source)) ++
    String.join (diagnostic.notes.map (Render.remark colored .bold "note")) ++
    String.join (diagnostic.suggestions.map (Render.remark colored .green "help")) ++ "\n"

end Reduct
