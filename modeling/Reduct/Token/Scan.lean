import Reduct.Fault
import Reduct.Token.Number

/-!
# Scanning

The source text as a list of tokens. Blanks and comments, which run from a semicolon to the end
of the line, are skipped; an atom is as long as its characters allow; a string literal runs to
its closing quote, over line ends too. Whitespace other than the five blanks has no meaning and
is refused.
-/

namespace Reduct.Token

/-- The characters that separate tokens: space, tabulator, line feed, form feed and carriage
return. -/
def isBlank (c : Char) : Bool :=
  c = ' ' || c = '\t' || c = '\r' || c = '\n' || c = '\x0c'

/-- The characters with the White_Space property. -/
def isSpace (c : Char) : Bool :=
  let code := c.toNat
  (0x09 ≤ code && code ≤ 0x0d) || code = 0x20 || code = 0x85 || code = 0xa0 || code = 0x1680 ||
    (0x2000 ≤ code && code ≤ 0x200a) || code = 0x2028 || code = 0x2029 || code = 0x202f ||
    code = 0x205f || code = 0x3000

/-- The kind of a delimiter character. -/
def delimiter? : Char → Option TokenKind
  | '(' => some (.opening .parenthesis)
  | ')' => some (.closing .parenthesis)
  | '[' => some (.opening .bracket)
  | ']' => some (.closing .bracket)
  | _ => none

/-- The characters that an atom is made of. -/
def isAtomChar (c : Char) : Bool :=
  !isSpace c && (delimiter? c).isNone && c ≠ '"' && c ≠ ';'

/-- The number of bytes of a list of characters. -/
def byteLength (chars : List Char) : Nat :=
  chars.foldr (fun c bytes => c.utf8Size + bytes) 0

/-- The body of a string literal and what follows its closing quote, given the text after the
opening quote. A backslash takes the next character with it, which may not be a line feed. -/
def stringBody? : List Char → Option (List Char × List Char)
  | [] => none
  | '"' :: rest => some ([], rest)
  | '\\' :: [] => none
  | '\\' :: c :: rest =>
    if c = '\n' then none
    else (stringBody? rest).map fun found => ('\\' :: c :: found.1, found.2)
  | c :: rest => (stringBody? rest).map fun found => (c :: found.1, found.2)

/-- A fault at a literal. -/
def literalFault (cause : Cause) (span : Span) : Fault := .located cause span "invalid literal"

/-- The string of a literal with the given body. -/
def stringAtom (body : List Char) (span : Span) : Except Fault Atom :=
  match Text.unescape body with
  | .ok chars => .ok (.string (String.ofList chars))
  | .error (.unknown char) => .error (literalFault (.unknownEscape char) span)
  | .error .dangling => .error (literalFault .danglingBackslash span)

/-- The atom of a run of characters. -/
def plainAtom (chars : List Char) (span : Span) : Except Fault Atom :=
  match Atom.ofChars chars with
  | .ok value => .ok value
  | .error .outOfRange => .error (literalFault (.integerOutOfRange (String.ofList chars)) span)
  | .error .invalid => .error (literalFault (.invalidNumber (String.ofList chars)) span)

/-- What stands at the front of a text that is not empty. -/
inductive Lexeme where
  /-- Blanks or a comment. -/
  | skipped
  /-- A token. -/
  | token (kind : TokenKind)
  /-- Nothing that the language knows. -/
  | refused (fault : Fault)

/-- The lexeme of an atom, or of the fault in its place. -/
def Lexeme.ofAtom : Except Fault Atom → Lexeme
  | .ok value => .token (.atom value)
  | .error fault => .refused fault

/-- The lexeme at the front of `first :: rest`, which starts at byte `offset` of a source of
`total` bytes, and the characters it takes. -/
def lexeme (total offset : Nat) (first : Char) (rest : List Char) : Lexeme × List Char :=
  if isBlank first then (.skipped, [first])
  else if first = ';' then (.skipped, first :: rest.takeWhile (· ≠ '\n'))
  else
    match delimiter? first with
    | some kind => (.token kind, [first])
    | none =>
      if first = '"' then
        match stringBody? rest with
        | none => (.refused (literalFault .unterminatedString ⟨offset, total⟩), [first])
        | some (body, _) =>
          let taken := first :: body ++ ['"']
          (.ofAtom (stringAtom body ⟨offset, offset + byteLength taken⟩), taken)
      else if isAtomChar first then
        let taken := first :: rest.takeWhile isAtomChar
        (.ofAtom (plainAtom taken ⟨offset, offset + byteLength taken⟩), taken)
      else
        let cause := Cause.unexpectedText (String.singleton first)
        (.refused (literalFault cause ⟨offset, offset + first.utf8Size⟩), [first])

/-- A lexeme takes at least one character. -/
theorem lexeme_taken_pos (total offset : Nat) (first : Char) (rest : List Char) :
    0 < (lexeme total offset first rest).2.length := by
  unfold lexeme
  repeat' split
  all_goals simp

/-- The tokens of a text that starts at byte `offset` of a source of `total` bytes. -/
def scanFrom (total offset : Nat) (chars : List Char) : Except Fault (List Token) :=
  match chars with
  | [] => .ok []
  | first :: rest =>
    let found := lexeme total offset first rest
    let stop := offset + byteLength found.2
    let remaining := (first :: rest).drop found.2.length
    match found.1 with
    | .refused fault => .error fault
    | .skipped => scanFrom total stop remaining
    | .token kind => do
      let tokens ← scanFrom total stop remaining
      .ok (⟨kind, ⟨offset, stop⟩⟩ :: tokens)
termination_by chars.length
decreasing_by
  all_goals
    have taken := lexeme_taken_pos total offset first rest
    simp only [List.length_drop, List.length_cons]
    omega

/-- The tokens of a source text, up to the first fault. -/
def scan (source : String) : Except Fault (List Token) :=
  scanFrom source.utf8ByteSize 0 source.toList

end Reduct.Token
