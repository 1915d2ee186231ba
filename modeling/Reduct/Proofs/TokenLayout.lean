import Reduct.Proofs.FaultPlaces
import Reduct.Proofs.ReadingBack

/-!
# The layout of tokens

A text is laid out as blanks, comments and tokens, each as long as its rule allows, and a token
spans the bytes of its characters. Scanning gives exactly the tokens of such a layout. So the text
from the start of one token to the end of a later one is laid out as these tokens by itself, with
their spans counted from its own start.
-/

namespace Reduct

/-- A span that is moved towards the end of a text. -/
def Span.shift (bytes : Nat) (span : Span) : Span := ⟨span.start + bytes, span.stop + bytes⟩

/-- Moving commutes with merging. -/
theorem Span.shift_merge (bytes : Nat) (left right : Span) :
    (left.shift bytes).merge (right.shift bytes) = (left.merge right).shift bytes := by
  simp only [Span.shift, Span.merge, Span.mk.injEq]
  omega

namespace Token

/-- A token that is moved towards the end of a text. -/
def shift (bytes : Nat) (token : Token) : Token := ⟨token.kind, token.span.shift bytes⟩

/-- A run of characters that pass a test, which ends where the next one does not pass. -/
structure Run (passes : Char → Bool) (body remaining : List Char) : Prop where
  within : ∀ c ∈ body, passes c = true
  ends : ∀ c ∈ remaining.head?, passes c = false

namespace Run

variable {passes : Char → Bool} {body remaining : List Char}

theorem takeWhile_eq (run : Run passes body remaining) :
    (body ++ remaining).takeWhile passes = body := by
  have after : remaining.takeWhile passes = [] := by
    cases remaining with
    | nil => rfl
    | cons c rest =>
      have stops := run.ends c rfl
      rw [List.takeWhile_cons_of_neg]
      rw [stops]
      decide
  rw [List.takeWhile_append_of_pos run.within, after, List.append_nil]

/-- A run ends at the end of the text too. -/
theorem cut {short : List Char} (run : Run passes body remaining) (front : short <+: remaining) :
    Run passes body short where
  within := run.within
  ends := by
    intro c first
    obtain ⟨rest, rfl⟩ := front
    apply run.ends c
    cases short with
    | nil => cases first
    | cons d more => exact first

theorem of_takeWhile (passes : Char → Bool) (text : List Char) :
    Run passes (text.takeWhile passes) (text.dropWhile passes) where
  within c among := List.mem_takeWhile_imp among
  ends c first := by
    have stops := List.head?_dropWhile_not passes text
    rw [Option.mem_def.mp first] at stops
    exact stops

end Run

/-- The body of a string literal ends at its quote, whatever comes after it. -/
theorem stringBody?_append : ∀ {chars body rest : List Char},
    stringBody? chars = some (body, rest) →
      ∀ other, stringBody? (body ++ '"' :: other) = some (body, other) := by
  intro chars
  induction chars using stringBody?.induct with
  | case1 =>
    intro body after found
    cases found
  | case2 rest =>
    intro body after found other
    cases found
    rfl
  | case3 =>
    intro body after found
    cases found
  | case4 rest =>
    intro body after found
    rw [stringBody?, if_pos rfl] at found
    cases found
  | case5 c rest plain ih =>
    intro body after found other
    rw [stringBody?, if_neg plain, Option.map_eq_some_iff] at found
    obtain ⟨⟨inner, left⟩, inside, same⟩ := found
    cases same
    rw [List.cons_append, List.cons_append, stringBody?, if_neg plain, ih inside other]
    rfl
  | case6 c rest unquoted alone ends ih =>
    intro body after found other
    rw [stringBody?.eq_5 _ _ unquoted alone ends] at found
    obtain ⟨⟨inner, left⟩, inside, same⟩ := Option.map_eq_some_iff.mp found
    cases same
    have unescaped : c ≠ '\\' := by
      intro escaped
      cases rest with
      | nil => exact alone escaped rfl
      | cons d more => exact ends d more escaped rfl
    rw [List.cons_append, stringBody?.eq_5, ih inside other]
    · rfl
    · exact unquoted
    · exact fun escaped _ => unescaped escaped
    · exact fun _ _ escaped _ => unescaped escaped

/-- The lexeme at the front of a text, the characters it takes and those that remain, as the rules
of the language say. -/
inductive Lexed : Lexeme → List Char → List Char → Prop
  | blank {c : Char} {remaining : List Char} (blank : isBlank c = true) :
      Lexed .skipped [c] remaining
  | comment {body remaining : List Char} (run : Run (· ≠ '\n') body remaining) :
      Lexed .skipped (';' :: body) remaining
  | delimiter {c : Char} {kind : TokenKind} {remaining : List Char}
      (delimits : delimiter? c = some kind) : Lexed (.token kind) [c] remaining
  | string {body text remaining : List Char}
      (closed : ∀ other, stringBody? (body ++ '"' :: other) = some (body, other))
      (plain : Text.unescape body = .ok text) :
      Lexed (.token (.atom (.string (String.ofList text)))) ('"' :: body ++ ['"']) remaining
  | atom {first : Char} {body remaining : List Char} {value : Atom}
      (starts : isAtomChar first = true) (run : Run isAtomChar body remaining)
      (read : Atom.ofChars (first :: body) = .ok value) :
      Lexed (.token (.atom value)) (first :: body) remaining

/-- A lexeme is the same when the text ends at any later place. -/
theorem Lexed.cut {found : Lexeme} {taken remaining short : List Char}
    (lexed : Lexed found taken remaining) (front : short <+: remaining) :
    Lexed found taken short := by
  cases lexed with
  | blank blank => exact .blank blank
  | comment run => exact .comment (run.cut front)
  | delimiter delimits => exact .delimiter delimits
  | string closed plain => exact .string closed plain
  | atom starts run read => exact .atom starts (run.cut front) read

/-- A lexeme takes at least one character. -/
theorem Lexed.byteLength_pos {found : Lexeme} {taken remaining : List Char}
    (lexed : Lexed found taken remaining) : 0 < byteLength taken := by
  have one : ∀ (c : Char) (rest : List Char), 0 < byteLength (c :: rest) := by
    intro c rest
    have bytes := c.utf8Size_pos
    rw [byteLength_cons]
    omega
  cases lexed with
  | blank => exact one _ _
  | comment => exact one _ _
  | delimiter => exact one _ _
  | string => exact one _ _
  | atom => exact one _ _

/-- The rules determine the lexeme at the front of a text. -/
theorem Lexed.lexeme_eq {found : Lexeme} {taken remaining rest : List Char} {first : Char}
    (lexed : Lexed found taken remaining) (whole : taken ++ remaining = first :: rest)
    (total offset : Nat) : lexeme total offset first rest = (found, taken) := by
  cases lexed with
  | @blank c _ blank =>
    have parts : c = first ∧ remaining = rest := List.cons.inj whole
    obtain ⟨rfl, rfl⟩ := parts
    rw [lexeme, if_pos blank]
  | @comment body _ run =>
    have parts : ';' = first ∧ body ++ remaining = rest := List.cons.inj whole
    obtain ⟨rfl, rfl⟩ := parts
    rw [lexeme, if_neg (by decide), if_pos rfl, run.takeWhile_eq]
  | @delimiter c kind _ delimits =>
    have parts : c = first ∧ remaining = rest := List.cons.inj whole
    obtain ⟨rfl, rfl⟩ := parts
    have other : isBlank c = false ∧ c ≠ ';' := by
      unfold delimiter? at delimits
      split at delimits <;> first | (constructor <;> decide) | cases delimits
    rw [lexeme, if_neg (by rw [other.1]; decide), if_neg other.2]
    simp only [delimits]
  | @string body text _ closed plain =>
    have parts : '"' = first ∧ (body ++ ['"']) ++ remaining = rest := List.cons.inj whole
    obtain ⟨rfl, rfl⟩ := parts
    rw [List.append_assoc, List.singleton_append, lexeme, if_neg (by decide), if_neg (by decide)]
    simp only [show delimiter? '"' = none from rfl, if_pos, closed remaining, stringAtom, plain]
    rfl
  | @atom c body _ value starts run read =>
    have parts : c = first ∧ body ++ remaining = rest := List.cons.inj whole
    obtain ⟨rfl, rfl⟩ := parts
    have blank := isBlank_of_isAtomChar starts
    obtain ⟨_, plain, unquoted, uncommented⟩ := isAtomChar_iff.mp starts
    rw [lexeme, if_neg (by rw [blank]; decide), if_neg uncommented]
    simp only [plain]
    rw [if_neg unquoted, if_pos starts]
    simp only [run.takeWhile_eq, plainAtom, read]
    rfl

/-- A lexeme is refused exactly if its atom is. -/
theorem exists_atom {result : Except Fault Atom}
    (accepted : ∀ fault, Lexeme.ofAtom result ≠ .refused fault) : ∃ value, result = .ok value := by
  cases result with
  | ok value => exact ⟨value, rfl⟩
  | error fault => exact absurd rfl (accepted fault)

theorem unescape_of_stringAtom {body : List Char} {span : Span} {value : Atom}
    (read : stringAtom body span = .ok value) :
    ∃ text, Text.unescape body = .ok text ∧ value = .string (String.ofList text) := by
  unfold stringAtom at read
  split at read
  · rename_i text plain
    cases read
    exact ⟨text, plain, rfl⟩
  · cases read
  · cases read

theorem ofChars_of_plainAtom {chars : List Char} {span : Span} {value : Atom}
    (read : plainAtom chars span = .ok value) : Atom.ofChars chars = .ok value := by
  unfold plainAtom at read
  split at read
  · rename_i atom found
    cases read
    exact found
  · cases read
  · cases read

/-- What stands at the front of a text and is not refused is a lexeme of the rules. -/
theorem lexed_of_lexeme {total offset : Nat} {first : Char} {rest : List Char}
    (accepted : ∀ fault, (lexeme total offset first rest).1 ≠ .refused fault) :
    ∃ remaining, first :: rest = (lexeme total offset first rest).2 ++ remaining ∧
      Lexed (lexeme total offset first rest).1 (lexeme total offset first rest).2 remaining := by
  unfold lexeme at accepted ⊢
  by_cases blank : isBlank first = true
  · rw [if_pos blank]
    exact ⟨rest, rfl, .blank blank⟩
  rw [if_neg blank] at accepted ⊢
  by_cases comment : first = ';'
  · rw [if_pos comment, comment]
    refine ⟨rest.dropWhile (· ≠ '\n'), ?_, .comment (.of_takeWhile _ rest)⟩
    rw [List.cons_append, List.takeWhile_append_dropWhile]
  rw [if_neg comment] at accepted ⊢
  cases delimits : delimiter? first with
  | some kind => exact ⟨rest, rfl, .delimiter delimits⟩
  | none =>
    simp only [delimits] at accepted ⊢
    by_cases quoted : first = '"'
    · rw [if_pos quoted] at accepted ⊢
      cases closes : stringBody? rest with
      | none =>
        simp only [closes] at accepted
        exact absurd rfl (accepted _)
      | some found =>
        obtain ⟨body, after⟩ := found
        simp only [closes] at accepted ⊢
        obtain ⟨value, read⟩ := exists_atom accepted
        obtain ⟨text, plain, rfl⟩ := unescape_of_stringAtom read
        rw [read, quoted]
        refine ⟨after, ?_, .string (stringBody?_append closes) plain⟩
        rw [stringBody?_eq_some closes, List.append_assoc, List.singleton_append, List.cons_append]
    · rw [if_neg quoted] at accepted ⊢
      by_cases starts : isAtomChar first = true
      · rw [if_pos starts] at accepted ⊢
        obtain ⟨value, read⟩ := exists_atom accepted
        have found := ofChars_of_plainAtom read
        simp only [read]
        refine ⟨rest.dropWhile isAtomChar, ?_, .atom starts (.of_takeWhile _ rest) found⟩
        rw [List.cons_append, List.takeWhile_append_dropWhile]
      · rw [if_neg starts] at accepted
        exact absurd rfl (accepted _)

/-- A text that starts at some byte is laid out as tokens: lexemes up to its end. -/
inductive Laid : Nat → List Char → List Token → Prop
  | nil {offset : Nat} : Laid offset [] []
  | skipped {offset : Nat} {taken remaining : List Char} {tokens : List Token}
      (lexed : Lexed .skipped taken remaining)
      (later : Laid (offset + byteLength taken) remaining tokens) :
      Laid offset (taken ++ remaining) tokens
  | token {offset : Nat} {taken remaining : List Char} {kind : TokenKind} {tokens : List Token}
      (lexed : Lexed (.token kind) taken remaining)
      (later : Laid (offset + byteLength taken) remaining tokens) :
      Laid offset (taken ++ remaining) (⟨kind, ⟨offset, offset + byteLength taken⟩⟩ :: tokens)

/-- What a lexeme at a span makes of the tokens after it. -/
def Lexeme.before (span : Span) (later : Except Fault (List Token)) :
    Lexeme → Except Fault (List Token)
  | .skipped => later
  | .token kind => later.map (⟨kind, span⟩ :: ·)
  | .refused fault => .error fault

/-- One lexeme is scanned, and then what remains. -/
theorem Lexed.scanFrom_eq {found : Lexeme} {taken remaining : List Char}
    (lexed : Lexed found taken remaining) (total offset : Nat) :
    scanFrom total offset (taken ++ remaining) =
      found.before ⟨offset, offset + byteLength taken⟩
        (scanFrom total (offset + byteLength taken) remaining) := by
  have some_ : taken ++ remaining ≠ [] := by
    intro empty
    have bytes := lexed.byteLength_pos
    rw [(List.append_eq_nil_iff.mp empty).1] at bytes
    exact absurd bytes (by decide)
  obtain ⟨first, rest, whole⟩ := List.exists_cons_of_ne_nil some_
  have left : (first :: rest).drop taken.length = remaining := by
    rw [← whole]
    exact List.drop_left
  rw [whole, scanFrom, lexed.lexeme_eq whole total offset]
  simp only [left]
  cases found with
  | refused fault => rfl
  | skipped => rfl
  | token kind => rfl

theorem Laid.scanFrom_eq {offset : Nat} {chars : List Char} {tokens : List Token}
    (laid : Laid offset chars tokens) (total : Nat) : scanFrom total offset chars = .ok tokens := by
  induction laid with
  | nil => rw [scanFrom]
  | skipped lexed _ ih => rw [lexed.scanFrom_eq, Lexeme.before, ih]
  | token lexed _ ih =>
    rw [lexed.scanFrom_eq, Lexeme.before, ih]
    rfl

/-- Scanned tokens are laid out in their text. -/
theorem laid_of_scanFrom {total : Nat} (chars : List Char) : ∀ {offset : Nat} {tokens : List Token},
    scanFrom total offset chars = .ok tokens → Laid offset chars tokens := by
  induction size : chars.length using Nat.strong_induction_on generalizing chars with
  | _ count ih =>
    intro offset tokens scanned
    cases chars with
    | nil =>
      rw [scanFrom] at scanned
      cases scanned
      exact .nil
    | cons first rest =>
      have accepted : ∀ fault, (lexeme total offset first rest).1 ≠ .refused fault := by
        intro fault refused
        rw [scanFrom] at scanned
        simp only [refused] at scanned
        cases scanned
      obtain ⟨remaining, whole, lexed⟩ := lexed_of_lexeme accepted
      have taken := lexeme_taken_pos total offset first rest
      have fewer : remaining.length < count := by
        have lengths := congrArg List.length whole
        rw [List.length_append] at lengths
        omega
      generalize lexeme total offset first rest = found at whole lexed accepted
      obtain ⟨found, taken⟩ := found
      have one := lexed.scanFrom_eq total offset
      rw [← whole, scanned] at one
      rw [whole]
      cases found with
      | refused fault => exact absurd rfl (accepted fault)
      | skipped => exact .skipped lexed (ih _ fewer remaining rfl one.symm)
      | token kind =>
        obtain ⟨later, scans, same⟩ := Except.map_eq_ok.mp one.symm
        cases same
        exact .token lexed (ih _ fewer remaining rfl scans)

/-- A text in front of which nothing is left out is laid out from the start of any token on. -/
theorem Laid.drop {offset : Nat} {chars : List Char} {front later : List Token} {token : Token}
    (laid : Laid offset chars (front ++ token :: later)) :
    ∃ before rest, chars = before ++ rest ∧ token.span.start = offset + byteLength before ∧
      Laid token.span.start rest (token :: later) := by
  generalize same : front ++ token :: later = tokens at laid
  induction laid generalizing front with
  | nil => simp at same
  | @skipped offset taken remaining tokens lexed _ ih =>
    obtain ⟨before, rest, rfl, starts, laid⟩ := ih same
    refine ⟨taken ++ before, rest, (List.append_assoc ..).symm, ?_, laid⟩
    rw [starts, byteLength_append, Nat.add_assoc]
  | @token offset taken remaining kind tokens lexed remains ih =>
    cases front with
    | nil =>
      obtain ⟨rfl, rfl⟩ := List.cons.inj same
      exact ⟨[], taken ++ remaining, rfl, rfl, .token lexed remains⟩
    | cons other front =>
      obtain ⟨_, same⟩ := List.cons.inj same
      obtain ⟨before, rest, rfl, starts, laid⟩ := ih same
      refine ⟨taken ++ before, rest, (List.append_assoc ..).symm, ?_, laid⟩
      rw [starts, byteLength_append, Nat.add_assoc]

/-- A text is laid out up to the end of any token, by itself and from any byte on. -/
theorem Laid.cut {offset bytes : Nat} {chars : List Char} {front later : List Token}
    {last : Token} (laid : Laid (offset + bytes) chars (front ++ last :: later)) :
    ∃ text rest tokens, chars = text ++ rest ∧
      last.span.stop = offset + bytes + byteLength text ∧
      tokens.map (shift bytes) = front ++ [last] ∧ Laid offset text tokens := by
  generalize same : front ++ last :: later = all at laid
  generalize start : offset + bytes = origin at laid
  induction laid generalizing front offset with
  | nil => simp at same
  | @skipped origin taken remaining _ lexed _ ih =>
    subst start
    obtain ⟨text, rest, tokens, rfl, stops, moved, laid⟩ :=
      @ih (offset + byteLength taken) front same (by omega)
    refine ⟨taken ++ text, rest, tokens, (List.append_assoc ..).symm, ?_, moved, ?_⟩
    · rw [stops, byteLength_append]
      omega
    · exact .skipped (lexed.cut ⟨rest, rfl⟩) laid
  | @token origin taken remaining kind _ lexed remains ih =>
    subst start
    have moves : shift bytes ⟨kind, ⟨offset, offset + byteLength taken⟩⟩ =
        ⟨kind, ⟨offset + bytes, offset + bytes + byteLength taken⟩⟩ := by
      simp only [shift, Span.shift, Token.mk.injEq, Span.mk.injEq, true_and]
      omega
    cases front with
    | nil =>
      obtain ⟨rfl, rfl⟩ := List.cons.inj same
      have alone : Laid offset (taken ++ []) [⟨kind, ⟨offset, offset + byteLength taken⟩⟩] :=
        .token (lexed.cut List.nil_prefix) .nil
      rw [List.append_nil] at alone
      refine ⟨taken, remaining, _, rfl, rfl, ?_, alone⟩
      rw [List.map_singleton, moves, List.nil_append]
    | cons other front =>
      obtain ⟨rfl, remain⟩ := List.cons.inj same
      obtain ⟨text, rest, tokens, rfl, stops, moved, laid⟩ :=
        @ih (offset + byteLength taken) front remain (by omega)
      refine ⟨taken ++ text, rest, _, (List.append_assoc ..).symm, ?_, ?_,
        .token (lexed.cut ⟨rest, rfl⟩) laid⟩
      · rw [stops, byteLength_append]
        omega
      · rw [List.map_cons, moved, moves, List.cons_append]

/-- Tokens one after another, none of them empty. -/
structure Ordered (tokens : List Token) : Prop where
  apart : tokens.Pairwise fun one other => one.span.stop ≤ other.span.start
  filled : ∀ token ∈ tokens, token.span.start < token.span.stop

theorem Ordered.sublist {some_ tokens : List Token} (ordered : Ordered tokens)
    (part : List.Sublist some_ tokens) : Ordered some_ where
  apart := ordered.apart.sublist part
  filled token among := ordered.filled token (part.subset among)

/-- The tokens of a text stand one after another. -/
theorem Laid.ordered {offset : Nat} {chars : List Char} {tokens : List Token}
    (laid : Laid offset chars tokens) :
    Ordered tokens ∧ ∀ token ∈ tokens, offset ≤ token.span.start := by
  induction laid with
  | nil => exact ⟨⟨.nil, List.forall_mem_nil _⟩, List.forall_mem_nil _⟩
  | skipped _ _ ih =>
    obtain ⟨ordered, behind⟩ := ih
    refine ⟨ordered, fun token among => ?_⟩
    have after := behind token among
    omega
  | token lexed _ ih =>
    obtain ⟨ordered, behind⟩ := ih
    have bytes := lexed.byteLength_pos
    refine ⟨⟨.cons behind ordered.apart, List.forall_mem_cons.mpr ⟨?_, ordered.filled⟩⟩,
      List.forall_mem_cons.mpr ⟨Nat.le_refl _, fun token among => ?_⟩⟩
    · exact Nat.lt_add_of_pos_right bytes
    · have after := behind token among
      omega

end Token

end Reduct
