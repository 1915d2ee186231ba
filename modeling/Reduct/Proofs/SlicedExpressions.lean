import Reduct.Proofs.FaultPlaces

/-!
# Expressions read by slices

The parts of a list or of a text can be taken by position: a guard makes sure that something is
there, and then the items from a position on, or the bytes between two positions, are sliced off. A
slice that starts or ends outside gives nothing at all, and so does one of a text that splits a
character. String literals, patterns and templates are read in this way without leaving the range,
and what is read is what the expression writes.
-/

namespace Reduct

/-- The items from a position on. A position after the end is out of range. -/
def suffix? {α : Type} (items : List α) (start : Nat) : Option (List α) :=
  if start ≤ items.length then some (items.drop start) else none

/-- The items from one position up to another. Positions that are not in order or after the end
are out of range. -/
def between? {α : Type} (items : List α) (start stop : Nat) : Option (List α) :=
  if start ≤ stop ∧ stop ≤ items.length then some ((items.take stop).drop start) else none

/-- A text parted at a byte. A byte inside a character or after the end is out of range. -/
def partAt? : List Char → Nat → Option (List Char × List Char)
  | text, 0 => some ([], text)
  | [], _ + 1 => none
  | first :: rest, byte + 1 =>
    if first.utf8Size ≤ byte + 1 then
      (partAt? rest (byte + 1 - first.utf8Size)).map fun parts => (first :: parts.1, parts.2)
    else none

/-- The part of a text from one byte up to another. -/
def textBetween? (text : List Char) (start stop : Nat) : Option (List Char) := do
  let (front, _) ← partAt? text stop
  let (_, inside) ← partAt? front start
  some inside

theorem suffix?_cons {α : Type} (first : α) (rest : List α) : suffix? (first :: rest) 1 = some rest :=
  if_pos (Nat.le_add_left 1 rest.length)

theorem suffix?_getD {α : Type} (items : List α) (start : Nat) :
    (suffix? items start).getD [] = items.drop start := by
  unfold suffix?
  split
  · rfl
  · exact (List.drop_eq_nil_of_le (by omega)).symm

/-- The end of one part and the start of the next is always in range. -/
theorem partAt?_append (front back : List Char) :
    partAt? (front ++ back) (Token.byteLength front) = some (front, back) := by
  induction front with
  | nil => exact partAt?.eq_1 back
  | cons first rest ih =>
    obtain ⟨byte, size⟩ : ∃ byte, Token.byteLength (first :: rest) = byte + 1 :=
      Nat.exists_eq_add_of_le' (Nat.le_trans first.utf8Size_pos (Nat.le_add_right _ _))
    have whole : byte + 1 = first.utf8Size + Token.byteLength rest := by
      rw [← size, Token.byteLength_cons]
    rw [size, List.cons_append, partAt?, if_pos (by omega), whole, Nat.add_sub_cancel_left, ih]
    rfl

/-- The text before the first underscore ends in range. -/
theorem partAt?_stem (symbol : Symbol) :
    ((partAt? symbol.toList (Token.byteLength (symbol.toList.takeWhile (· ≠ '_')))).map
      fun parts => String.ofList parts.1) = some (Symbol.stem symbol) := by
  have found := partAt?_append (symbol.toList.takeWhile (· ≠ '_'))
    (symbol.toList.dropWhile (· ≠ '_'))
  rw [List.takeWhile_append_dropWhile] at found
  rw [found]
  rfl

/-- Reading by positions: a result, a fault, or nothing when a position is out of range. -/
abbrev Slicing := ExceptT Fault Option

namespace Slicing

open Sexp

/-- Part of a list or a text that has to be in range. -/
def cut {α : Type} (found : Option α) : Slicing α := ExceptT.mk (found.map .ok)

/-- A part that is read without positions. -/
def read {α : Type} (found : Except Fault α) : Slicing α := ExceptT.mk (some found)

/-! ## Readers -/

/-- The string of a literal, whose body is between its quotes. -/
def literal (taken : List Char) (span : Span) : Slicing Atom := do
  let body ← cut (textBetween? taken 1 (Token.byteLength taken - 1))
  read (Token.stringAtom body span)

/-- The lexeme at the front of a text, with the characters it takes. -/
def lexeme (total offset : Nat) (first : Char) (rest : List Char) :
    Option (Token.Lexeme × List Char) :=
  let found := Token.lexeme total offset first rest
  if first = '"' ∧ (Token.stringBody? rest).isSome then
    (literal found.2 ⟨offset, offset + Token.byteLength found.2⟩).run.map fun atom =>
      (.ofAtom atom, found.2)
  else some found

mutual

/-- The pattern that an expression writes. -/
def pattern : Sexp → Slicing Pattern
  | .atom value span => read (Sexp.atom value span).toPattern
  | .list items span =>
    match (Sexp.list items span).head? with
    | some "in-hole" =>
      match items with
      | [_, context, contents] => do
        let outer ← pattern context
        let inner ← pattern contents
        pure (.inHole outer inner [])
      | _ => throw (keywordFault .inHolePattern span)
    | some "variable-except" => do
      let excluded ← cut (suffix? items 1)
      match symbols? excluded with
      | some (first :: rest) =>
        let kind := BuiltIn.variableExcept (first :: rest)
        pure (.builtIn kind kind.keyword)
      | _ => throw (keywordFault .variableExcept span)
    | _ => do
      let patterns ← patternsAfter .leading items
      pure (.sequence patterns)

/-- The patterns of the items of a sequence, the element before an ellipsis repeated. -/
def patternsAfter (fault : EllipsisFault) : List Sexp → Slicing (List Pattern)
  | [] => pure []
  | [item] =>
    if item.isSymbol ellipsis then throw (ellipsisFault fault item.span)
    else do
      let first ← pattern item
      pure [first]
  | item :: next :: rest =>
    if item.isSymbol ellipsis then throw (ellipsisFault fault item.span)
    else do
      let first ← pattern item
      if next.isSymbol ellipsis then do
        let others ← patternsAfter .doubled rest
        pure (.repeated first .exhaustive :: others)
      else do
        let others ← patternsAfter .leading (next :: rest)
        pure (first :: others)

end

/-- The patterns of the items of a sequence. -/
def patterns (items : List Sexp) : Slicing (List Pattern) := patternsAfter .leading items

mutual

/-- The template that an expression writes. -/
def template : Sexp → Slicing Template
  | .atom value span => read (Sexp.atom value span).toTemplate
  | .list items span =>
    match (Sexp.list items span).head? with
    | some "in-hole" =>
      match items with
      | [_, context, contents] => do
        let outer ← template context
        let inner ← template contents
        pure (.inHole outer inner)
      | _ => throw (keywordFault .inHoleTemplate span)
    | head =>
      match head.bind insertMode? with
      | some mode =>
        match items[1]?.bind Sexp.symbol? with
        | some name => do
          let arguments ← foreignArguments items
          pure (.foreign name arguments mode)
        | none => throw (keywordFault (.foreign mode) span)
      | none => do
        let templates ← templatesAfter .leading items
        pure (.sequence templates)

/-- The templates of the items from the third on, out of range if there are fewer than two. -/
def foreignArguments : List Sexp → Slicing (List Template)
  | _ :: _ :: rest => templatesAfter .leading rest
  | _ => cut none

/-- The templates of the items of a sequence, the element before an ellipsis repeated. -/
def templatesAfter (fault : EllipsisFault) : List Sexp → Slicing (List Template)
  | [] => pure []
  | [item] =>
    if item.isSymbol ellipsis then throw (ellipsisFault fault item.span)
    else do
      let first ← template item
      pure [first]
  | item :: next :: rest =>
    if item.isSymbol ellipsis then throw (ellipsisFault fault item.span)
    else do
      let first ← template item
      if next.isSymbol ellipsis then do
        let others ← templatesAfter .doubled rest
        pure (.repeated first :: others)
      else do
        let others ← templatesAfter .leading (next :: rest)
        pure (first :: others)

end

/-! ## They stay in range -/

/-- Reading by positions stays in range and gives a result or a fault. -/
def Gives {α : Type} (sliced : Slicing α) (found : Except Fault α) : Prop :=
  sliced.run = some found

section Rules

variable {α β : Type}

theorem gives_pure (value : α) : Gives (pure value) (.ok value) := rfl

theorem gives_throw (fault : Fault) : Gives (throw fault : Slicing α) (.error fault) := rfl

theorem gives_read (found : Except Fault α) : Gives (read found) found := rfl

/-- A part that is read goes on to the next. -/
theorem Gives.andThen {first : Slicing α} {value : α} {next : α → Slicing β} {result : Except Fault β}
    (one : Gives first (.ok value)) (two : Gives (next value) result) :
    Gives (first >>= next) result := by
  unfold Gives
  rw [ExceptT.run_bind, show first.run = some (.ok value) from one]
  exact two

/-- A fault ends the reading. -/
theorem Gives.stop {first : Slicing α} {fault : Fault} (one : Gives first (.error fault))
    (next : α → Slicing β) : Gives (first >>= next) (.error fault) := by
  unfold Gives
  rw [ExceptT.run_bind, show first.run = some (.error fault) from one]
  rfl

theorem Gives.bind {first : Slicing α} {found : Except Fault α} {next : α → Slicing β}
    {rest : α → Except Fault β} (one : Gives first found)
    (two : ∀ value, found = .ok value → Gives (next value) (rest value)) :
    Gives (first >>= next) (found.bind rest) := by
  cases found with
  | ok value => exact one.andThen (two value rfl)
  | error fault => exact one.stop next

/-- A part in range is what is cut. -/
theorem Gives.cut {part : Option α} {value : α} {next : α → Slicing β} {result : Except Fault β}
    (inside : part = some value) (rest : Gives (next value) result) :
    Gives (Slicing.cut part >>= next) result := by
  subst inside
  exact rest

theorem Gives.map {first : Slicing α} {found : Except Fault α} (one : Gives first found)
    (change : α → β) : Gives (change <$> first) (found.map change) := by
  unfold Gives
  rw [ExceptT.run_map, show first.run = some found from one]
  rfl

theorem Gives.mapM {step : α → Slicing β} {found : α → Except Fault β} {items : List α}
    (each : ∀ item ∈ items, Gives (step item) (found item)) :
    Gives (items.mapM step) (items.mapM found) := by
  induction items with
  | nil => exact gives_pure []
  | cons item rest ih =>
    obtain ⟨here, later⟩ := List.forall_mem_cons.mp each
    rw [List.mapM_cons, List.mapM_cons]
    exact here.bind fun first _ => (ih later).bind fun others _ => gives_pure _

end Rules

/-! ### Literals -/

/-- Both quotes of a literal are single bytes. -/
theorem gives_literal (body : List Char) (span : Span) :
    Gives (literal ('"' :: body ++ ['"']) span) (Token.stringAtom body span) := by
  have stop : Token.byteLength ('"' :: body ++ ['"']) - 1 = Token.byteLength ('"' :: body) := by
    rw [Token.byteLength_append]
    exact Nat.add_sub_cancel _ 1
  have inside : textBetween? ('"' :: body ++ ['"']) 1
      (Token.byteLength ('"' :: body ++ ['"']) - 1) = some body := by
    rw [textBetween?, stop, partAt?_append]
    have start : partAt? ('"' :: body) 1 = some (['"'], body) := partAt?_append ['"'] body
    simp [start]
  exact .cut inside (gives_read _)

theorem lexeme_eq (total offset : Nat) (first : Char) (rest : List Char) :
    lexeme total offset first rest = some (Token.lexeme total offset first rest) := by
  unfold lexeme
  split
  · rename_i quoted
    obtain ⟨rfl, closed⟩ := quoted
    obtain ⟨⟨body, after⟩, found⟩ := Option.isSome_iff_exists.mp closed
    have taken : Token.lexeme total offset '"' rest =
        (.ofAtom (Token.stringAtom body
          ⟨offset, offset + Token.byteLength ('"' :: body ++ ['"'])⟩), '"' :: body ++ ['"']) := by
      simp [Token.lexeme, Token.isBlank, Token.delimiter?, found]
    rw [taken]
    exact congrArg (Option.map fun atom => (Token.Lexeme.ofAtom atom, '"' :: body ++ ['"']))
      (gives_literal body _)
  · rfl

/-! ### Patterns and templates -/

/-- A list that starts with a symbol has a first item. -/
theorem suffix?_tail_of_head? {items : List Sexp} {span : Span} {name : Symbol}
    (named : (Sexp.list items span).head? = some name) : suffix? items 1 = some items.tail := by
  cases items with
  | nil => cases named
  | cons first rest => exact suffix?_cons first rest

mutual

theorem gives_pattern : (sexp : Sexp) → Gives (pattern sexp) sexp.toPattern
  | .atom value span => by
    rw [pattern]
    exact gives_read _
  | .list items span => by
    unfold pattern
    split
    · rename_i named
      unfold toPattern
      rw [named]
      match items with
      | [] | [_] | [_, _] | _ :: _ :: _ :: _ :: _ => exact gives_throw _
      | [_, context, contents] =>
        refine (gives_pattern context).bind fun _ _ => ?_
        exact (gives_pattern contents).bind fun _ _ => gives_pure _
    · rename_i named
      unfold toPattern
      rw [named]
      refine .cut (suffix?_tail_of_head? named) ?_
      match symbols? items.tail with
      | none | some [] => exact gives_throw _
      | some (_ :: _) => exact gives_pure _
    · unfold toPattern
      split
      · contradiction
      · contradiction
      · exact (gives_patternsAfter .leading items).bind fun _ _ => gives_pure _

theorem gives_patternsAfter (fault : EllipsisFault) : (items : List Sexp) →
    Gives (patternsAfter fault items) (toPatternsAfter fault items)
  | [] => by
    rw [patternsAfter, toPatternsAfter]
    exact gives_pure _
  | [item] => by
    rw [patternsAfter, toPatternsAfter]
    split
    · exact gives_throw _
    · exact (gives_pattern item).bind fun _ _ => gives_pure _
  | item :: next :: rest => by
    rw [patternsAfter, toPatternsAfter]
    split
    · exact gives_throw _
    · refine (gives_pattern item).bind fun _ _ => ?_
      split
      · exact (gives_patternsAfter .doubled rest).bind fun _ _ => gives_pure _
      · exact (gives_patternsAfter .leading (next :: rest)).bind fun _ _ => gives_pure _

end

theorem gives_patterns (items : List Sexp) : Gives (patterns items) (toPatterns items) :=
  gives_patternsAfter .leading items

mutual

theorem gives_template : (sexp : Sexp) → Gives (template sexp) sexp.toTemplate
  | .atom value span => by
    rw [template]
    exact gives_read _
  | .list items span => by
    unfold toTemplate
    split
    · rename_i named
      unfold template
      rw [named]
      match items with
      | [] | [_] | [_, _] | _ :: _ :: _ :: _ :: _ => exact gives_throw _
      | [_, context, contents] =>
        refine (gives_template context).bind fun _ _ => ?_
        exact (gives_template contents).bind fun _ _ => gives_pure _
    · split
      · rename_i mode foreign
        unfold template
        split
        · contradiction
        · rw [foreign]
          match items with
          | [] | [_] => exact gives_throw _
          | _ :: function :: rest =>
            rw [foreignArguments]
            simp only [List.getElem?_cons_succ, List.getElem?_cons_zero, Option.bind_some]
            cases function.symbol? with
            | none => exact gives_throw _
            | some name => exact (gives_templatesAfter .leading rest).bind fun _ _ => gives_pure _
      · rename_i plain
        unfold template
        split
        · contradiction
        · rw [plain]
          exact (gives_templatesAfter .leading items).bind fun _ _ => gives_pure _

theorem gives_templatesAfter (fault : EllipsisFault) : (items : List Sexp) →
    Gives (templatesAfter fault items) (toTemplatesAfter fault items)
  | [] => by
    rw [templatesAfter, toTemplatesAfter]
    exact gives_pure _
  | [item] => by
    rw [templatesAfter, toTemplatesAfter]
    split
    · exact gives_throw _
    · exact (gives_template item).bind fun _ _ => gives_pure _
  | item :: next :: rest => by
    rw [templatesAfter, toTemplatesAfter]
    split
    · exact gives_throw _
    · refine (gives_template item).bind fun _ _ => ?_
      split
      · exact (gives_templatesAfter .doubled rest).bind fun _ _ => gives_pure _
      · exact (gives_templatesAfter .leading (next :: rest)).bind fun _ _ => gives_pure _

end

end Slicing

end Reduct
