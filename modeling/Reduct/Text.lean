/-!
# Quoted text

String literals stand between double quotes. Inside them a double quote, a backslash, a line
feed and a tabulator are written with a backslash; every other character stands for itself.
Reading is the inverse of writing, and refuses every other escape.
-/

namespace Reduct.Text

/-- The characters that stand for one character of a string literal. -/
def escape : Char → List Char
  | '"' => ['\\', '"']
  | '\\' => ['\\', '\\']
  | '\n' => ['\\', 'n']
  | '\t' => ['\\', 't']
  | c => [c]

/-- The body of the literal of a text. -/
def escapeAll (chars : List Char) : List Char := chars.flatMap escape

/-- A text as a literal between double quotes. -/
def quote (text : String) : String :=
  "\"" ++ String.ofList (escapeAll text.toList) ++ "\""

/-- Why the body of a literal cannot be read. -/
inductive EscapeError where
  /-- A backslash before a character that it does not escape. -/
  | unknown (char : Char)
  /-- A backslash with nothing after it. -/
  | dangling
deriving DecidableEq

/-- The character that a backslash and the given character stand for. -/
def unescapeChar : Char → Option Char
  | '"' => some '"'
  | '\\' => some '\\'
  | 'n' => some '\n'
  | 't' => some '\t'
  | _ => none

/-- The text of the body of a literal. -/
def unescape : List Char → Except EscapeError (List Char)
  | [] => .ok []
  | '\\' :: [] => .error .dangling
  | '\\' :: c :: rest =>
    match unescapeChar c with
    | none => .error (.unknown c)
    | some plain => (unescape rest).map (plain :: ·)
  | c :: rest => (unescape rest).map (c :: ·)

/-- Reading the body written for a text gives the text back. -/
theorem unescape_escapeAll (chars : List Char) : unescape (escapeAll chars) = .ok chars := by
  induction chars with
  | nil => rfl
  | cons c rest ih =>
    have step : unescape (escape c ++ escapeAll rest) = .ok (c :: rest) := by
      unfold escape
      split
      · simp [unescape, unescapeChar, ih, Except.map]
      · simp [unescape, unescapeChar, ih, Except.map]
      · simp [unescape, unescapeChar, ih, Except.map]
      · simp [unescape, unescapeChar, ih, Except.map]
      · rename_i notBackslash _ _
        rw [List.singleton_append, unescape, ih]
        · rfl
        · intro equal
          exact absurd equal notBackslash
        · intro _ _ equal
          exact absurd equal notBackslash
    simpa [escapeAll] using step

/-- Parts set one after another with a separator between them. -/
def join (separator : String) (parts : List String) : String := separator.intercalate parts

/-- Parts with single spaces between them. -/
def spaced (parts : List String) : String := join " " parts

/-- A text repeated. -/
def repeated (count : Nat) (text : String) : String := String.join (List.replicate count text)

/-- Whether a text starts with the given one. -/
def startsWith (text lead : String) : Bool := lead.toList.isPrefixOf text.toList

/-- Whether the characters of one text stand together in another. -/
def containsChars (needle : List Char) : List Char → Bool
  | [] => needle.isEmpty
  | c :: rest => needle.isPrefixOf (c :: rest) || containsChars needle rest

/-- Whether one text stands inside another. -/
def contains (text needle : String) : Bool := containsChars needle.toList text.toList

end Reduct.Text
