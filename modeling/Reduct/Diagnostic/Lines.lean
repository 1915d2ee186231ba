/-!
# Lines and columns

The lines of a source are known by the offsets at which they start. A position is a line and a
column, both counted from one; the column counts characters. An offset past the end stands on
the last line, and one inside a character has the first column.
-/

namespace Reduct

/-- A line and a column, counted from one. -/
structure Position where
  line : Nat
  column : Nat
deriving DecidableEq

/-- The characters from a byte offset on; `none` inside a character and past the end. -/
def dropBytes : Nat → List Char → Option (List Char)
  | 0, chars => some chars
  | _ + 1, [] => none
  | bytes + 1, c :: rest =>
    if c.utf8Size ≤ bytes + 1 then dropBytes (bytes + 1 - c.utf8Size) rest else none

/-- The number of characters in the first bytes; `none` inside a character and past the end. -/
def countChars : Nat → List Char → Option Nat
  | 0, _ => some 0
  | _ + 1, [] => none
  | bytes + 1, c :: rest =>
    if c.utf8Size ≤ bytes + 1 then (countChars (bytes + 1 - c.utf8Size) rest).map (· + 1) else none

/-- The offsets after the newlines of characters that start at an offset. -/
def startsAfter (offset : Nat) : List Char → List Nat
  | [] => []
  | c :: rest =>
    let next := offset + c.utf8Size
    if c = '\n' then next :: startsAfter next rest else startsAfter next rest

/-- A source with the offsets at which its lines start. -/
structure LineTable where
  chars : List Char
  /-- The number of bytes. -/
  size : Nat
  /-- The offset of the first byte of every line, in increasing order. -/
  starts : List Nat

namespace LineTable

/-- The lines of a source. -/
def ofSource (source : String) : LineTable where
  chars := source.toList
  size := source.utf8ByteSize
  starts := 0 :: startsAfter 0 source.toList

/-- The number of lines. -/
def count (table : LineTable) : Nat := table.starts.length

/-- The line of an offset: as many lines start at or before it. -/
def lineAt (table : LineTable) (offset : Nat) : Nat :=
  (table.starts.filter fun start => decide (start ≤ offset)).length

/-- The offset at which a line starts; a line that does not exist starts at the beginning. -/
def startOf (table : LineTable) (line : Nat) : Nat := (table.starts[line - 1]?).getD 0

/-- The position of an offset. -/
def position (table : LineTable) (offset : Nat) : Position :=
  let line := table.lineAt offset
  let start := table.startOf line
  let before := (dropBytes start table.chars).bind (countChars (min offset table.size - start))
  ⟨line, before.getD 0 + 1⟩

/-- The characters of a line, without its newline. -/
def lineChars (table : LineTable) (line : Nat) : List Char :=
  ((dropBytes (table.startOf line) table.chars).getD []).takeWhile fun c => decide (c ≠ '\n')

/-- The text of a line, without its newline. -/
def lineText (table : LineTable) (line : Nat) : String := .ofList (table.lineChars line)

end LineTable

end Reduct
