import Reduct.Table

/-!
# Names of pattern variables

A symbol such as `n_1` is a binding key. Its stem, the text before the first underscore, names
the non-terminal or built-in pattern it stands for; the rest only tells variables apart.
Symbols made by the compiler carry a hash sign.
-/

namespace Reduct.Symbol

/-- The text before the first underscore, or all of it when there is none. -/
def stem (symbol : Symbol) : Symbol := String.ofList (symbol.toList.takeWhile (· ≠ '_'))

/-- Whether the symbol carries an underscore. -/
def hasSuffix (symbol : Symbol) : Bool := symbol.toList.contains '_'

/-- Whether the symbol carries the mark of a generated name. -/
def isSynthetic (symbol : Symbol) : Bool := symbol.toList.contains '#'

/-- The name of the `index`-th fresh symbol made from a base. -/
def numbered (base : Symbol) (index : Nat) : Symbol := base ++ "#" ++ toString index

/-- A letter or digit of ASCII. -/
def isPlain (c : Char) : Bool := c.isAlpha || c.isDigit

/-- A name with every character outside the ASCII letters and digits made an underscore. -/
def mangle (name : String) : String :=
  String.ofList (name.toList.map fun c => if isPlain c then c else '_')

/-- A name between backticks. -/
def quoted (symbol : Symbol) : String := "`" ++ symbol ++ "`"

end Reduct.Symbol
