import Reduct.Code
import Reduct.Text

/-!
# Text of statement code

Code is written one statement a line, each block indented by four spaces. A block with no
statement is written as `pass`.
-/

namespace Reduct

/-- The written form of an operand. -/
def Operand.text : Operand → String
  | name symbol => symbol
  | none => "None"
  | bool true => "True"
  | bool false => "False"
  | int value => toString value.toInt
  | string text => Text.quote text

/-- The written form of the arguments of a call. -/
def Operand.listText (arguments : List Operand) : String :=
  "(" ++ Text.join ", " (arguments.map text) ++ ")"

/-- The written form of an expression. -/
def Expression.text : Expression → String
  | operand value => value.text
  | call function arguments => function ++ Operand.listText arguments
  | primitive function arguments => function.name ++ Operand.listText arguments
  | field base index => base ++ "[" ++ toString index ++ "]"
  | binary op left right => left.text ++ " " ++ op.text ++ " " ++ right.text

namespace Statement

/-- A line at an indentation level. -/
def line (indent : Nat) (text : String) : String := Text.repeated (4 * indent) " " ++ text ++ "\n"

mutual

/-- The lines of a statement at an indentation level. -/
def lines (indent : Nat) : Statement → List String
  | .define name parameters body =>
    line indent ("def " ++ name ++ "(" ++ Text.join ", " parameters ++ "):") ::
      blockLines (indent + 1) body
  | .assign target value => [line indent (target ++ " = " ++ value.text)]
  | .branch condition onTrue [] =>
    line indent ("if " ++ condition.text ++ ":") :: blockLines (indent + 1) onTrue
  | .branch condition onTrue (first :: rest) =>
    line indent ("if " ++ condition.text ++ ":") :: blockLines (indent + 1) onTrue ++
      line indent "else:" :: (first.lines (indent + 1) ++ statementLines (indent + 1) rest)
  | .forEach targets iterable body =>
    line indent ("for " ++ Text.join ", " targets ++ " in " ++ iterable ++ ":") ::
      blockLines (indent + 1) body
  | .forRange target start stop body =>
    line indent ("for " ++ target ++ " in range(" ++ start.text ++ ", " ++ stop.text ++ "):") ::
      blockLines (indent + 1) body
  | .loop condition body =>
    line indent ("while " ++ condition ++ ":") :: blockLines (indent + 1) body
  | .leave => [line indent "break"]
  | .returns value => [line indent ("return " ++ value.text)]
  | .raise value => [line indent ("raise Exception(" ++ value.text ++ ")")]
  | .print value => [line indent ("print(" ++ value.text ++ ")")]
  | .effect value => [line indent value.text]

/-- The lines of a block at an indentation level. -/
def blockLines (indent : Nat) : List Statement → List String
  | [] => [line indent "pass"]
  | first :: rest => first.lines indent ++ statementLines indent rest

/-- The lines of consecutive statements at an indentation level. -/
def statementLines (indent : Nat) : List Statement → List String
  | [] => []
  | first :: rest => first.lines indent ++ statementLines indent rest

end

/-- The text of a statement. -/
def text (statement : Statement) : String := String.join (statement.lines 0)

end Statement

/-- The text of a module: the sources of host functions, then the statements. -/
def Module.text (code : Module) : String :=
  String.join (code.foreignSources.map fun path => "# require " ++ path ++ "\n") ++
    String.join (Statement.blockLines 0 code.body)

end Reduct
