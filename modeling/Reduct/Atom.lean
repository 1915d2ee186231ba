import Reduct.Binary64.Text
import Reduct.Text
import Reduct.Table

/-!
# Atoms

The indivisible constants of the language: integers of 64 bits, double-precision numbers,
strings, booleans and symbols. Tokens, expressions, literal patterns and terms share them.
-/

namespace Reduct

/-- The greatest count that an integer of 64 bits holds, `2 ^ 63 - 1`. -/
def mostCount : Nat := 0x7fffffffffffffff

/-- A count as an integer of 64 bits, the greatest one for a count beyond it. -/
def wordOfCount (count : Nat) : Int64 := Int64.ofNat (min count mostCount)

/-- An indivisible constant. -/
inductive Atom where
  /-- A signed integer of 64 bits. -/
  | integer (value : Int64)
  /-- A double-precision number. -/
  | float (value : Binary64)
  /-- A string literal, given by its text. -/
  | string (text : String)
  /-- A truth value. -/
  | boolean (value : Bool)
  /-- A name. -/
  | symbol (name : Symbol)
deriving DecidableEq, Inhabited

namespace Atom

/-- The kinds of atoms. -/
inductive Kind where
  | integer | float | string | boolean | symbol
deriving DecidableEq

/-- The kind of an atom. -/
def kind : Atom → Kind
  | integer _ => .integer
  | float _ => .float
  | string _ => .string
  | boolean _ => .boolean
  | symbol _ => .symbol

/-- The written form of a truth value. -/
def booleanText : Bool → String
  | true => "#t"
  | false => "#f"

/-- The written form of an atom, which reads back as the atom. -/
def text : Atom → String
  | integer value => toString value.toInt
  | float value => value.text
  | string text => Text.quote text
  | boolean value => booleanText value
  | symbol name => name

/-- A short description of an atom for a reader of messages. -/
def describe : Atom → String
  | integer value => "integer `" ++ toString value.toInt ++ "`"
  | float value => "float `" ++ value.shortText ++ "`"
  | string _ => "string literal"
  | boolean value => "boolean `" ++ booleanText value ++ "`"
  | symbol name => "symbol `" ++ name ++ "`"

end Atom

end Reduct
