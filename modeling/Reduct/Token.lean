import Reduct.Atom
import Reduct.Span

/-!
# Tokens

The source text of a specification is a list of delimiters and atoms, each with the span it was
read from. Blanks and comments leave no token.
-/

namespace Reduct

/-- The two kinds of delimiters. They may be used alike, but close only their own kind. -/
inductive Delimiter where
  | parenthesis
  | bracket
deriving DecidableEq

namespace Delimiter

/-- The character that opens a list. -/
def opener : Delimiter → Char
  | parenthesis => '('
  | bracket => '['

/-- The character that closes a list. -/
def closer : Delimiter → Char
  | parenthesis => ')'
  | bracket => ']'

end Delimiter

/-- What a token is. -/
inductive TokenKind where
  /-- The start of a list. -/
  | opening (delimiter : Delimiter)
  /-- The end of a list. -/
  | closing (delimiter : Delimiter)
  /-- An atom. -/
  | atom (value : Atom)
deriving DecidableEq

/-- A short description of a token for a reader of messages. -/
def TokenKind.describe : TokenKind → String
  | opening delimiter => "`" ++ String.singleton delimiter.opener ++ "`"
  | closing delimiter => "`" ++ String.singleton delimiter.closer ++ "`"
  | atom value => value.describe

/-- A token and where it stands. -/
structure Token where
  /-- What the token is. -/
  kind : TokenKind
  /-- The bytes it was read from. -/
  span : Span
deriving DecidableEq

end Reduct
