import Reduct.Diagnostic.Render
import Reduct.Proofs.LineColumns

/-!
# Underlined labels

A label whose span lies between characters of a source is shown with its line, and underlined from
the column of the span on. The blanks are as many as the characters before the span on its line.
The markers are counted by the bytes of the span and not by its characters: they are enough for the
part of the span on its first line and do not go past the end of the line, but they cover exactly
this part only if all its characters are single bytes or the span goes on to the end of the line.

The main result is `labelInSource_exact_iff`.
-/

namespace Reduct.Render

open Token (byteLength byteLength_cons byteLength_append)

section Counts

/-- The first newline of a text ends its first line, whatever follows. -/
theorem firstLine_newline {front : List Char} (inLine : '\n' ∉ front) (back : List Char) :
    firstLine (front ++ '\n' :: back) = front := by
  rw [firstLine_append inLine, show firstLine ('\n' :: back) = [] from rfl, List.append_nil]

theorem firstLine_eq_self {text : List Char} (inLine : '\n' ∉ text) : firstLine text = text := by
  have alone : firstLine (text ++ []) = text ++ firstLine [] := firstLine_append inLine
  rwa [List.append_nil, show firstLine [] = [] from rfl, List.append_nil] at alone

theorem byteLength_eq_length_iff (text : List Char) :
    byteLength text = text.length ↔ ∀ c ∈ text, c.utf8Size = 1 := by
  induction text with
  | nil => exact iff_of_true rfl fun _ listed => nomatch listed
  | cons c rest ih =>
    have bytes := c.utf8Size_pos
    have least := length_le_byteLength rest
    rw [byteLength_cons, List.length_cons, List.forall_mem_cons, ← ih]
    omega

/-- The markers of a span that ends on its first line. They are exact also at the end of a line,
where the characters left are those of the span. -/
theorem markerCount_inLine {marked : List Char} (inLine : '\n' ∉ marked) (after : List Char) :
    let count := markerCount (byteLength marked) (firstLine (marked ++ after)).length
    let covered := (firstLine marked).length
    let left := (firstLine (marked ++ after)).length
    max 1 covered ≤ count ∧ count ≤ max 1 left ∧
      (count = max 1 covered ↔ (∀ c ∈ firstLine marked, c.utf8Size = 1) ∨ covered = left) := by
  intro count covered left
  have least := length_le_byteLength marked
  have empty : marked.length = 0 → byteLength marked = 0 := by
    intro none
    rw [List.eq_nil_of_length_eq_zero none]
    rfl
  have inside : covered = marked.length := congrArg List.length (firstLine_eq_self inLine)
  have further : left = marked.length + (firstLine after).length := by
    rw [← List.length_append, ← firstLine_append inLine]
  have counted : count = max 1 (min (byteLength marked) (max 1 left)) := rfl
  rw [firstLine_eq_self inLine, ← byteLength_eq_length_iff]
  omega

/-- The markers of a span that goes on after its first line go to the end of the line. -/
theorem markerCount_newline {marked : List Char} (newline : '\n' ∈ marked) (after : List Char) :
    (firstLine marked).length = (firstLine (marked ++ after)).length ∧
      markerCount (byteLength marked) (firstLine (marked ++ after)).length =
        max 1 (firstLine marked).length := by
  obtain ⟨front, back, rfl, inLine⟩ := List.eq_append_cons_of_mem newline
  have bytes : byteLength (front ++ '\n' :: back) =
      byteLength front + (('\n' : Char).utf8Size + byteLength back) := by
    rw [byteLength_append, byteLength_cons]
  have least := length_le_byteLength front
  rw [List.append_assoc, List.cons_append, firstLine_newline inLine, firstLine_newline inLine,
    markerCount]
  omega

/-- There are enough markers for the part of a span on its first line, and they do not go past the
end of the line. They are as many as the characters of this part exactly if these are single bytes
or the last of the line. -/
theorem markerCount_bounds (marked after : List Char) :
    let count := markerCount (byteLength marked) (firstLine (marked ++ after)).length
    let covered := (firstLine marked).length
    let left := (firstLine (marked ++ after)).length
    max 1 covered ≤ count ∧ count ≤ max 1 left ∧
      (count = max 1 covered ↔ (∀ c ∈ firstLine marked, c.utf8Size = 1) ∨ covered = left) := by
  by_cases newline : '\n' ∈ marked
  · obtain ⟨same, count⟩ := markerCount_newline newline after
    rw [count, ← same]
    exact ⟨Nat.le_refl _, Nat.le_refl _, iff_of_true rfl (.inr rfl)⟩
  · exact markerCount_inLine newline after

end Counts

/-- The character that marks the span of a label. -/
def mark (label : Label) : Char := if label.isPrimary then '^' else '-'

/-- The lines of a label between the two parts of a source, with the given number of markers: the
place, the source line, and the underline below it, which starts with as many blanks as the line
has characters before the label. -/
def lines (colored : Bool) (path : String) (before after : List Char) (label : Label)
    (count : Nat) : String :=
  let line := toString (1 + before.count '\n')
  let blank := Text.repeated line.length " "
  let color := labelColor label
  let markers := List.replicate (lastLine before).length ' ' ++ List.replicate count (mark label)
  path ++ ":" ++ line ++ ":" ++ toString (1 + (lastLine before).length) ++ "\n" ++
    "  " ++ blank ++ " |\n" ++
    "  " ++ line ++ " | " ++ String.ofList (lastLine before ++ firstLine after) ++ "\n" ++
    "  " ++ blank ++ " | " ++ paint colored color (String.ofList markers) ++
    " " ++ paint colored color label.message ++ "\n"

theorem paint_inj {colored : Bool} {color : Color} {one two : String} :
    paint colored color one = paint colored color two ↔ one = two := by
  cases colored
  · exact Iff.rfl
  · change color.code ++ one ++ Color.reset = color.code ++ two ++ Color.reset ↔ _
    rw [String.append_left_inj, String.append_right_inj]

/-- The number of markers can be read off the lines of a label. -/
theorem lines_inj {colored : Bool} {path : String} {before after : List Char} {label : Label}
    {one two : Nat} :
    lines colored path before after label one = lines colored path before after label two ↔
      one = two := by
  unfold lines
  dsimp only
  rw [String.append_left_inj, String.append_left_inj, String.append_left_inj,
    String.append_right_inj, paint_inj, String.ofList_inj, List.append_cancel_left_eq,
    List.replicate_left_inj]

theorem repeated_eq_ofList (count : Nat) (c : Char) :
    Text.repeated count (.singleton c) = .ofList (List.replicate count c) := by
  rw [Text.repeated]
  induction count with
  | zero => rfl
  | succ count ih =>
    rw [List.replicate_succ, String.join_cons, ih, List.replicate_succ, String.ofList_cons]

/-- The underline of a label at a column, by characters. -/
theorem underline_eq (label : Label) (column length : Nat) :
    underline label (1 + column) length =
      .ofList (List.replicate column ' ' ++
        List.replicate (markerCount label.span.length (length - column)) (mark label)) := by
  have marker : (if label.isPrimary then "^" else "-") = String.singleton (mark label) := by
    rw [mark]
    split <;> rfl
  have blank : " " = String.singleton ' ' := rfl
  rw [underline, marker, blank, Nat.add_sub_cancel_left, repeated_eq_ofList, repeated_eq_ofList,
    String.ofList_append]

section Labels

variable {source : String} {before marked after : List Char} {label : Label}

/-- The lines of a label whose span is a part of the source. -/
theorem labelInSource_eq (colored : Bool) (path : String)
    (parts : source.toList = before ++ (marked ++ after))
    (spanned : label.span = ⟨byteLength before, byteLength before + byteLength marked⟩) :
    labelInSource colored (.ofText path source) label =
      lines colored path before (marked ++ after) label
        (markerCount (byteLength marked) (firstLine (marked ++ after)).length) := by
  have start : label.span.start = byteLength before := congrArg Span.start spanned
  have bytes : label.span.length = byteLength marked := by
    rw [spanned, Span.length, Nat.add_sub_cancel_left]
  have left : (lastLine before ++ firstLine (marked ++ after)).length - (lastLine before).length =
      (firstLine (marked ++ after)).length := by
    rw [List.length_append, Nat.add_sub_cancel_left]
  have position : (LineTable.ofSource source).position label.span.start =
      ⟨1 + before.count '\n', 1 + (lastLine before).length⟩ := by
    rw [start, LineTable.position_eq parts]
  unfold labelInSource SourceFile.ofText lines
  dsimp only
  rw [position]
  dsimp only
  rw [LineTable.lineChars_eq parts, underline_eq, bytes, left]

/-- The underline of a label starts below the first character of its span. It has one marker for
each character of the part of the span on its first line, and at least one, exactly if the
characters of this part are single bytes or the part goes on to the end of the line. Otherwise it
has more markers, but none of them is past the end of the line. -/
theorem labelInSource_exact_iff (colored : Bool) (path : String)
    (parts : source.toList = before ++ (marked ++ after))
    (spanned : label.span = ⟨byteLength before, byteLength before + byteLength marked⟩) :
    let covered := (firstLine marked).length
    let left := (firstLine (marked ++ after)).length
    (∃ count, labelInSource colored (.ofText path source) label =
        lines colored path before (marked ++ after) label count ∧
      max 1 covered ≤ count ∧ count ≤ max 1 left) ∧
    (labelInSource colored (.ofText path source) label =
        lines colored path before (marked ++ after) label (max 1 covered) ↔
      (∀ c ∈ firstLine marked, c.utf8Size = 1) ∨ covered = left) := by
  intro covered left
  obtain ⟨enough, inside, exact⟩ := markerCount_bounds marked after
  rw [labelInSource_eq colored path parts spanned, lines_inj]
  exact ⟨⟨_, rfl, enough, inside⟩, exact⟩

/-- A span of two lines whose first character has two bytes. -/
theorem labelInSource_exact_iff_twoLines :
    "(λx\ny)".toList = ['('] ++ (['λ', 'x', '\n', 'y'] ++ [')']) ∧
      labelInSource false (.ofText "a" "(λx\ny)") (.primary ⟨1, 6⟩ "here") =
        "a:1:2\n    |\n  1 | (λx\n    |  ^^ here\n" := by
  have parts : "(λx\ny)".toList = ['('] ++ (['λ', 'x', '\n', 'y'] ++ [')']) := by decide
  have spanned : (Label.primary ⟨1, 6⟩ "here").span =
      ⟨byteLength ['('], byteLength ['('] + byteLength ['λ', 'x', '\n', 'y']⟩ := by decide
  have exact := labelInSource_exact_iff false "a" parts spanned
  refine ⟨parts, (exact.2.mpr (.inr (by decide))).trans ?_⟩
  decide

/-- The span of one character of two bytes has two markers. -/
theorem labelInSource_not_exact :
    ¬ ∀ (colored : Bool) (path source : String) (before marked after : List Char) (label : Label),
      source.toList = before ++ (marked ++ after) →
      label.span = ⟨byteLength before, byteLength before + byteLength marked⟩ →
      labelInSource colored (.ofText path source) label =
        lines colored path before (marked ++ after) label (max 1 (firstLine marked).length) := by
  intro exact
  have parts : "λx".toList = [] ++ (['λ'] ++ ['x']) := by decide
  have spanned : (Label.primary ⟨0, 2⟩ "here").span =
      ⟨byteLength [], byteLength [] + byteLength ['λ']⟩ := by decide
  have shown := exact false "a" "λx" [] ['λ'] ['x'] _ parts spanned
  rw [labelInSource_eq false "a" parts spanned, lines_inj] at shown
  exact absurd shown (by decide)

end Labels

end Reduct.Render
