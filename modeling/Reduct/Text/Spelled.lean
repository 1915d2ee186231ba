import Reduct.Text
import Reduct.Text.Hidden

/-!
# Texts with every character in sight

A spelled text stands between double quotes and has only characters that show. A double quote,
a backslash and the four most common controls are written with a backslash and a letter, every
other hidden character with its code point in hexadecimal digits between braces.
-/

namespace Reduct.Text

/-- A character by its code point. -/
def spellCode (c : Char) : List Char :=
  ['\\', 'u', '\x7b'] ++ Nat.toDigits 16 c.toNat ++ ['\x7d']

/-- A character as it stands in a spelled text. -/
def spell (c : Char) : List Char :=
  match c with
  | '"' => ['\\', '"']
  | '\\' => ['\\', '\\']
  | '\n' => ['\\', 'n']
  | '\t' => ['\\', 't']
  | '\r' => ['\\', 'r']
  | '\x00' => ['\\', '0']
  | other => if isHidden other then spellCode other else [other]

/-- A text between double quotes with its hidden characters spelled out. -/
def spelled (text : String) : String :=
  "\"" ++ String.ofList (text.toList.flatMap spell) ++ "\""

end Reduct.Text
