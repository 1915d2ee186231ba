import Mathlib.Data.List.DropRight
import Reduct.Diagnostic.Lines
import Reduct.Proofs.FaultPlaces

/-!
# Lines and columns of a source

An offset between two characters splits a source into the text before it and the text after it. Its
line is told by the newlines before it, and its column by the characters since the last of them.
Positions are in the order of their offsets.

The main result is `LineTable.position_exact`.
-/

namespace Reduct

open Token (byteLength byteLength_cons byteLength_append byteLength_toList)

/-- The characters of a text after its last newline. -/
def lastLine (text : List Char) : List Char := text.rtakeWhile fun c => decide (c ≠ '\n')

/-- The characters of a text before its first newline. -/
def firstLine (text : List Char) : List Char := text.takeWhile fun c => decide (c ≠ '\n')

theorem lastLine_concat (text : List Char) (c : Char) :
    lastLine (text ++ [c]) = if c = '\n' then [] else lastLine text ++ [c] := by
  rw [lastLine, List.rtakeWhile_concat]
  by_cases newline : c = '\n' <;> simp [newline, lastLine]

theorem not_mem_lastLine (text : List Char) : '\n' ∉ lastLine text := by
  intro listed
  have passed := List.mem_rtakeWhile_imp listed
  simp at passed

/-- The last line of a text comes first in it, or after a newline. -/
theorem exists_lastLine (text : List Char) : ∃ earlier, text = earlier ++ lastLine text ∧
    (earlier = [] ∨ ∃ front, earlier = front ++ ['\n']) := by
  induction text using List.reverseRecOn with
  | nil => exact ⟨[], rfl, .inl rfl⟩
  | append_singleton text c ih =>
    rw [lastLine_concat]
    split
    · rename_i newline
      subst newline
      exact ⟨text ++ ['\n'], (List.append_nil _).symm, .inr ⟨text, rfl⟩⟩
    · obtain ⟨earlier, whole, first⟩ := ih
      exact ⟨earlier, by rw [← List.append_assoc, ← whole], first⟩

/-- A text without newlines goes on with the line before it. -/
theorem lastLine_append {text more : List Char} (inLine : '\n' ∉ more) :
    lastLine (text ++ more) = lastLine text ++ more := by
  induction more using List.reverseRecOn with
  | nil => rw [List.append_nil, List.append_nil]
  | append_singleton more c ih =>
    rw [List.mem_append, not_or, List.mem_singleton] at inLine
    rw [← List.append_assoc, lastLine_concat, if_neg (Ne.symm inLine.2), ih inLine.1,
      List.append_assoc]

/-- A text without newlines comes before the first newline of what follows it. -/
theorem firstLine_append {text more : List Char} (inLine : '\n' ∉ text) :
    firstLine (text ++ more) = text ++ firstLine more := by
  refine List.takeWhile_append_of_pos fun c listed => decide_eq_true ?_
  rintro rfl
  exact inLine listed

section Offsets

theorem dropBytes_append (front back : List Char) :
    dropBytes (byteLength front) (front ++ back) = some back := by
  induction front with
  | nil => cases back <;> rfl
  | cons c rest ih =>
    obtain ⟨bytes, size⟩ : ∃ bytes, byteLength (c :: rest) = bytes + 1 :=
      Nat.exists_eq_add_of_le' (Nat.le_trans c.utf8Size_pos (Nat.le_add_right _ _))
    have whole : bytes + 1 = c.utf8Size + byteLength rest := by rw [← size, byteLength_cons]
    rw [size, List.cons_append, dropBytes, if_pos (by omega),
      show bytes + 1 - c.utf8Size = byteLength rest by omega, ih]

theorem countChars_append (front back : List Char) :
    countChars (byteLength front) (front ++ back) = some front.length := by
  induction front with
  | nil => cases back <;> rfl
  | cons c rest ih =>
    obtain ⟨bytes, size⟩ : ∃ bytes, byteLength (c :: rest) = bytes + 1 :=
      Nat.exists_eq_add_of_le' (Nat.le_trans c.utf8Size_pos (Nat.le_add_right _ _))
    have whole : bytes + 1 = c.utf8Size + byteLength rest := by rw [← size, byteLength_cons]
    rw [size, List.cons_append, countChars, if_pos (by omega),
      show bytes + 1 - c.utf8Size = byteLength rest by omega, ih]
    rfl

theorem length_le_byteLength (text : List Char) : text.length ≤ byteLength text := by
  induction text with
  | nil => exact Nat.le_refl 0
  | cons c rest ih =>
    have bytes := c.utf8Size_pos
    rw [List.length_cons, byteLength_cons]
    omega

theorem startsAfter_append (offset : Nat) (front back : List Char) :
    startsAfter offset (front ++ back) =
      startsAfter offset front ++ startsAfter (offset + byteLength front) back := by
  induction front generalizing offset with
  | nil => rfl
  | cons c rest ih =>
    have moved : offset + c.utf8Size + byteLength rest = offset + byteLength (c :: rest) := by
      rw [byteLength_cons, Nat.add_assoc]
    rw [List.cons_append, startsAfter, startsAfter, ih, moved]
    split
    · rw [List.cons_append]
    · rfl

/-- A line starts after every newline. -/
theorem length_startsAfter (offset : Nat) (text : List Char) :
    (startsAfter offset text).length = text.count '\n' := by
  induction text generalizing offset with
  | nil => rfl
  | cons c rest ih =>
    rw [startsAfter]
    split
    · rename_i newline
      rw [List.length_cons, ih, newline, List.count_cons_self]
    · rename_i other
      rw [ih, List.count_cons_of_ne other]

/-- A line starts in the text, after a character of it. -/
theorem bounds_of_mem_startsAfter {offset start : Nat} {text : List Char}
    (listed : start ∈ startsAfter offset text) :
    offset < start ∧ start ≤ offset + byteLength text := by
  induction text generalizing offset start with
  | nil => cases listed
  | cons c rest ih =>
    have bytes := c.utf8Size_pos
    have later : ∀ {start}, start ∈ startsAfter (offset + c.utf8Size) rest →
        offset < start ∧ start ≤ offset + byteLength (c :: rest) := by
      intro start there
      obtain ⟨above, below⟩ := ih there
      rw [byteLength_cons]
      omega
    rw [startsAfter] at listed
    split at listed
    · rcases List.mem_cons.mp listed with rfl | there
      · rw [byteLength_cons]
        omega
      · exact later there
    · exact later listed

end Offsets

/-- The places at which a binary search of the starts of lines may end: that of a start that equals
the offset, or the one before the place where the offset would stand. -/
inductive Searched (starts : List Nat) (offset : Nat) : Nat → Prop
  | equal {front back : List Nat} (parts : starts = front ++ offset :: back) :
      Searched starts offset front.length
  | between {front back : List Nat} (parts : starts = front ++ back)
      (below : ∀ start ∈ front, start < offset) (above : ∀ start ∈ back, offset < start) :
      Searched starts offset (front.length - 1)

namespace LineTable

variable {source : String} {before after : List Char}

theorem starts_eq (parts : source.toList = before ++ after) :
    (ofSource source).starts =
      (0 :: startsAfter 0 before) ++ startsAfter (byteLength before) after := by
  change 0 :: startsAfter 0 source.toList = _
  rw [parts, startsAfter_append, Nat.zero_add, List.cons_append]

theorem increasing_startsAfter (offset : Nat) (text : List Char) :
    (startsAfter offset text).Pairwise (· < ·) := by
  induction text generalizing offset with
  | nil => exact .nil
  | cons c rest ih =>
    rw [startsAfter]
    split
    · exact .cons (fun _ listed => (bounds_of_mem_startsAfter listed).1) (ih _)
    · exact ih _

theorem increasing_starts (source : String) : (ofSource source).starts.Pairwise (· < ·) :=
  .cons (fun _ listed => (bounds_of_mem_startsAfter listed).1) (increasing_startsAfter 0 _)

/-- As many lines start up to an offset as there are in the part of the starts up to it. -/
theorem lineAt_of_parts {table : LineTable} {offset : Nat} {front back : List Nat}
    (parts : table.starts = front ++ back) (below : ∀ start ∈ front, start ≤ offset)
    (above : ∀ start ∈ back, offset < start) : table.lineAt offset = front.length := by
  have kept : front.filter (fun start => decide (start ≤ offset)) = front :=
    List.filter_eq_self.mpr fun start listed => decide_eq_true (below start listed)
  have left : back.filter (fun start => decide (start ≤ offset)) = [] :=
    List.filter_eq_nil_iff.mpr fun start listed passed =>
      Nat.not_le_of_gt (above start listed) (of_decide_eq_true passed)
  rw [lineAt, parts, List.filter_append, kept, left, List.append_nil]

/-- The line of an offset is one more than the place where a binary search ends. -/
theorem lineAt_of_searched {offset place : Nat}
    (searched : Searched (ofSource source).starts offset place) :
    (ofSource source).lineAt offset = place + 1 := by
  have increasing := increasing_starts source
  cases searched with
  | @equal front back parts =>
    rw [parts] at increasing
    obtain ⟨_, later, apart⟩ := List.pairwise_append.mp increasing
    have split : (ofSource source).starts = (front ++ [offset]) ++ back := by
      rw [parts, List.append_assoc, List.singleton_append]
    rw [lineAt_of_parts split, List.length_append, List.length_singleton]
    · intro start listed
      rcases List.mem_append.mp listed with there | here
      · exact Nat.le_of_lt (apart start there offset List.mem_cons_self)
      · exact Nat.le_of_eq (List.mem_singleton.mp here)
    · exact (List.pairwise_cons.mp later).1
  | @between front back parts below above =>
    rw [lineAt_of_parts parts (fun start listed => Nat.le_of_lt (below start listed)) above]
    -- The first line starts at the start of the source, so the offset is behind some start.
    cases front with
    | nil =>
      have first : 0 ∈ back := by
        rw [List.nil_append] at parts
        rw [← parts]
        exact List.mem_cons_self
      exact absurd (above 0 first) (Nat.not_lt_zero offset)
    | cons start rest => rfl

/-- The starts of lines up to an offset, and those after it. -/
theorem starts_around (before after : List Char) :
    (∀ start ∈ 0 :: startsAfter 0 before, start ≤ byteLength before) ∧
      ∀ start ∈ startsAfter (byteLength before) after, byteLength before < start := by
  refine ⟨fun start listed => ?_, fun start listed => (bounds_of_mem_startsAfter listed).1⟩
  rcases List.mem_cons.mp listed with rfl | there
  · exact Nat.zero_le _
  · have bounds := bounds_of_mem_startsAfter there
    omega

theorem lineAt_exact (parts : source.toList = before ++ after) :
    (ofSource source).lineAt (byteLength before) = 1 + before.count '\n' := by
  obtain ⟨below, above⟩ := starts_around before after
  rw [lineAt_of_parts (starts_eq parts) below above, List.length_cons, length_startsAfter,
    Nat.add_comm]

/-- A binary search of the starts ends, and at the place that the newlines before tell. -/
theorem searched_iff (parts : source.toList = before ++ after) {place : Nat} :
    Searched (ofSource source).starts (byteLength before) place ↔ place = before.count '\n' := by
  have exact : ∀ {place}, Searched (ofSource source).starts (byteLength before) place →
      place = before.count '\n' := by
    intro place searched
    have line := lineAt_of_searched searched
    rw [lineAt_exact parts] at line
    omega
  have ends : ∃ place, Searched (ofSource source).starts (byteLength before) place := by
    by_cases listed : byteLength before ∈ (ofSource source).starts
    · obtain ⟨front, back, split⟩ := List.append_of_mem listed
      exact ⟨_, .equal split⟩
    · obtain ⟨below, above⟩ := starts_around before after
      refine ⟨_, .between (starts_eq parts) (fun start early => ?_) above⟩
      refine Nat.lt_of_le_of_ne (below start early) ?_
      rintro rfl
      exact listed ((starts_eq parts).symm ▸ List.mem_append_left _ early)
  refine ⟨exact, ?_⟩
  rintro rfl
  obtain ⟨place, searched⟩ := ends
  exact exact searched ▸ searched

/-- The last line of the text before an offset starts at the start of the line of the offset. -/
theorem startOf_exact (parts : source.toList = before ++ after) {earlier : List Char}
    (whole : before = earlier ++ lastLine before)
    (first : earlier = [] ∨ ∃ front, earlier = front ++ ['\n']) :
    (ofSource source).startOf (1 + before.count '\n') = byteLength earlier := by
  have inLine : (lastLine before).count '\n' = 0 :=
    List.count_eq_zero.mpr (not_mem_lastLine before)
  have starts : (ofSource source).starts = (0 :: startsAfter 0 earlier) ++
      startsAfter (byteLength earlier) (lastLine before ++ after) :=
    starts_eq (by rw [parts, ← List.append_assoc, ← whole])
  have lines : before.count '\n' = earlier.count '\n' := by
    conv_lhs => rw [whole, List.count_append, inLine, Nat.add_zero]
  rw [startOf, Nat.add_sub_cancel_left, starts, lines]
  rcases first with rfl | ⟨front, rfl⟩
  · rfl
  · have last : startsAfter 0 (front ++ ['\n']) =
        startsAfter 0 front ++ [byteLength (front ++ ['\n'])] := by
      rw [startsAfter_append, Nat.zero_add, byteLength_append]
      rfl
    have place : (front ++ ['\n']).count '\n' = (0 :: startsAfter 0 front).length := by
      rw [List.count_append, List.length_cons, length_startsAfter]
      rfl
    rw [last, place, ← List.cons_append, List.append_assoc, List.getElem?_append_right
      (Nat.le_refl _), Nat.sub_self]
    rfl

theorem position_eq (parts : source.toList = before ++ after) :
    (ofSource source).position (byteLength before) =
      ⟨1 + before.count '\n', 1 + (lastLine before).length⟩ := by
  obtain ⟨earlier, whole, first⟩ := exists_lastLine before
  have line := lineAt_exact parts
  have start := startOf_exact parts whole first
  have size : (ofSource source).size = byteLength before + byteLength after := by
    rw [← byteLength_append, ← parts, byteLength_toList]
    rfl
  have chars : (ofSource source).chars = earlier ++ (lastLine before ++ after) := by
    rw [← List.append_assoc, ← whole, ← parts]
    rfl
  have bytes : byteLength before = byteLength earlier + byteLength (lastLine before) := by
    rw [← byteLength_append, ← whole]
  have inside : min (byteLength before) (ofSource source).size - byteLength earlier =
      byteLength (lastLine before) := by omega
  rw [position, line, start, chars, dropBytes_append, Option.bind_some, inside, countChars_append,
    Option.getD_some, Nat.add_comm (lastLine before).length]

theorem lineChars_eq (parts : source.toList = before ++ after) :
    (ofSource source).lineChars (1 + before.count '\n') = lastLine before ++ firstLine after := by
  obtain ⟨earlier, whole, first⟩ := exists_lastLine before
  have chars : (ofSource source).chars = earlier ++ (lastLine before ++ after) := by
    rw [← List.append_assoc, ← whole, ← parts]
    rfl
  rw [lineChars, startOf_exact parts whole first, chars, dropBytes_append, Option.getD_some,
    ← firstLine, firstLine_append (not_mem_lastLine before)]

/-- A position comes before another one in the order of lines and columns. -/
def Precedes (one two : Position) : Prop :=
  one.line < two.line ∨ (one.line = two.line ∧ one.column < two.column)

/-- Positions are in the order of their offsets: between two offsets of one line there is no
newline, so all characters between them count for the column. -/
theorem precedes_of_lt {front back : List Char} (parts : source.toList = before ++ after)
    (others : source.toList = front ++ back) (less : byteLength before < byteLength front) :
    Precedes ((ofSource source).position (byteLength before))
      ((ofSource source).position (byteLength front)) := by
  obtain ⟨between, rfl⟩ : before <+: front := by
    have one : before <+: source.toList := ⟨after, parts.symm⟩
    have two : front <+: source.toList := ⟨back, others.symm⟩
    rcases List.prefix_or_prefix_of_prefix one two with shorter | ⟨more, rfl⟩
    · exact shorter
    · rw [byteLength_append] at less
      omega
  have filled : between ≠ [] := by
    rintro rfl
    rw [List.append_nil] at less
    exact Nat.lt_irrefl _ less
  rw [position_eq parts, position_eq others]
  by_cases newline : '\n' ∈ between
  · have counted := List.count_pos_iff.mpr newline
    refine .inl ?_
    change 1 + before.count '\n' < 1 + (before ++ between).count '\n'
    rw [List.count_append]
    omega
  · have counted := List.length_pos_iff.mpr filled
    refine .inr ⟨?_, ?_⟩
    · change 1 + before.count '\n' = 1 + (before ++ between).count '\n'
      rw [List.count_append, List.count_eq_zero.mpr newline, Nat.add_zero]
    · change 1 + (lastLine before).length < 1 + (lastLine (before ++ between)).length
      rw [lastLine_append newline, List.length_append]
      omega

theorem Precedes.irrefl (one : Position) : ¬ Precedes one one := by
  rintro (less | ⟨_, less⟩) <;> exact Nat.lt_irrefl _ less

theorem Precedes.asymm {one two : Position} (precedes : Precedes one two) :
    ¬ Precedes two one := by
  unfold Precedes at *
  omega

/-- Positions are compared as their offsets are. -/
theorem precedes_iff_and_eq_iff {front back : List Char} (parts : source.toList = before ++ after)
    (others : source.toList = front ++ back) :
    (Precedes ((ofSource source).position (byteLength before))
        ((ofSource source).position (byteLength front)) ↔ byteLength before < byteLength front) ∧
      ((ofSource source).position (byteLength before) =
        (ofSource source).position (byteLength front) ↔ byteLength before = byteLength front) := by
  rcases Nat.lt_trichotomy (byteLength before) (byteLength front) with less | same | more
  · have precedes := precedes_of_lt parts others less
    refine ⟨iff_of_true precedes less, iff_of_false (fun equal => ?_) (Nat.ne_of_lt less)⟩
    rw [equal] at precedes
    exact Precedes.irrefl _ precedes
  · rw [same]
    exact ⟨iff_of_false (Precedes.irrefl _) (Nat.lt_irrefl _), iff_of_true rfl rfl⟩
  · have precedes := precedes_of_lt others parts more
    refine ⟨iff_of_false precedes.asymm (Nat.lt_asymm more),
      iff_of_false (fun equal => ?_) (Nat.ne_of_gt more)⟩
    rw [equal] at precedes
    exact Precedes.irrefl _ precedes

/-- No start of a line, no number of newlines and no number of characters is more than the bytes of
the source. -/
theorem counts_le (parts : source.toList = before ++ after) :
    (∀ start ∈ (ofSource source).starts, start ≤ source.utf8ByteSize) ∧
      before.count '\n' ≤ source.utf8ByteSize ∧
      (lastLine before).length ≤ source.utf8ByteSize := by
  have size : byteLength before + byteLength after = source.utf8ByteSize := by
    rw [← byteLength_append, ← parts, byteLength_toList]
  have length := length_le_byteLength before
  obtain ⟨earlier, whole, _⟩ := exists_lastLine before
  have last : (lastLine before).length ≤ before.length := by
    conv_rhs => rw [whole, List.length_append]
    exact Nat.le_add_left _ _
  have newlines : before.count '\n' ≤ before.length := List.count_le_length
  refine ⟨fun start listed => ?_, by omega, by omega⟩
  rcases List.mem_cons.mp listed with rfl | there
  · exact Nat.zero_le _
  · have bound := (bounds_of_mem_startsAfter there).2
    rwa [Nat.zero_add, byteLength_toList] at bound

/-- The lines and columns of a source are exact. The offset between the two parts of a source has
the line that the newlines before it tell, wherever a binary search of the starts ends, and the
column that the characters since the last of them tell. The text of this line is what stands
between the newlines around the offset. Different offsets have different positions, in the same
order. In a source of fewer than `2 ^ 32` bytes all starts of lines, the newlines and the
characters are counted within a word of 32 bits, so that none of them is clipped. -/
theorem position_exact (parts : source.toList = before ++ after) :
    (ofSource source).position (byteLength before) =
        ⟨1 + before.count '\n', 1 + (lastLine before).length⟩ ∧
      (ofSource source).lineText (1 + before.count '\n') =
        .ofList (lastLine before ++ firstLine after) ∧
      (∀ place, Searched (ofSource source).starts (byteLength before) place ↔
        place = before.count '\n') ∧
      (∀ front back, source.toList = front ++ back →
        (Precedes ((ofSource source).position (byteLength before))
            ((ofSource source).position (byteLength front)) ↔
          byteLength before < byteLength front) ∧
        ((ofSource source).position (byteLength before) =
            (ofSource source).position (byteLength front) ↔
          byteLength before = byteLength front)) ∧
      (source.utf8ByteSize < 2 ^ 32 → (∀ start ∈ (ofSource source).starts, start < 2 ^ 32) ∧
        before.count '\n' < 2 ^ 32 ∧ (lastLine before).length < 2 ^ 32) := by
  refine ⟨position_eq parts, congrArg String.ofList (lineChars_eq parts),
    fun place => searched_iff parts,
    fun front back others => precedes_iff_and_eq_iff parts others, fun short => ?_⟩
  obtain ⟨starts, newlines, chars⟩ := counts_le parts
  exact ⟨fun start listed => Nat.lt_of_le_of_lt (starts start listed) short,
    Nat.lt_of_le_of_lt newlines short, Nat.lt_of_le_of_lt chars short⟩

/-- The offset behind `é` on the last of three lines, after an empty line. -/
theorem position_exact_afterEmptyLine :
    "λx\n\néy".toList = "λx\n\né".toList ++ ['y'] ∧
      (ofSource "λx\n\néy").position 7 = ⟨3, 2⟩ ∧
      (ofSource "λx\n\néy").lineText 3 = "éy" ∧
      Searched (ofSource "λx\n\néy").starts 7 2 ∧
      Precedes ((ofSource "λx\n\néy").position 4) ((ofSource "λx\n\néy").position 7) ∧
      "λx\n\néy".utf8ByteSize < 2 ^ 32 := by
  have here : "λx\n\néy".toList = "λx\n\né".toList ++ ['y'] := by decide
  have there : "λx\n\néy".toList = "λx\n".toList ++ "\néy".toList := by decide
  have exact := position_exact here
  have order := ((position_exact there).2.2.2.1 _ _ here).1
  have between : Searched (ofSource "λx\n\néy").starts 7 2 := (exact.2.2.1 2).mpr (by decide)
  exact ⟨here, exact.1, exact.2.1, between, order.mpr (by decide), by decide⟩

end LineTable

end Reduct
