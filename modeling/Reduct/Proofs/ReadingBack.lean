import Mathlib.Data.String.Basic
import Mathlib.Tactic.IntervalCases
import Reduct.Proofs.DecimalText
import Reduct.Proofs.MatcherCalls
import Reduct.Sexp

/-!
# Written terms read back

The reader gives atoms that are legible: their written forms are read as the same atoms. A term
whose atoms are legible reads back too, except that a variable named `hole` becomes the hole. The
written form of an atom ends where a blank or a closing parenthesis follows, so a text of several
terms is scanned term by term.
-/

namespace Reduct

namespace Atom

/-- The written form of an atom is read as the atom. -/
def Legible : Atom → Prop
  | float value => value.isFinite = true
  | symbol name =>
    name.toList ≠ [] ∧ (∀ c ∈ name.toList, Token.isAtomChar c = true) ∧
      ofChars name.toList = .ok (.symbol name)
  | _ => True

theorem digit_isAtomChar {c : Char} (digit : c.isDigit = true) : Token.isAtomChar c = true := by
  have bounds : 48 ≤ c.toNat ∧ c.toNat ≤ 57 := by
    simp only [Char.isDigit, Bool.and_eq_true, decide_eq_true_eq, ge_iff_le,
      UInt32.le_iff_toNat_le] at digit
    exact digit
  have same : c = Char.ofNat c.toNat := (Char.ofNat_toNat c).symm
  rw [same]
  generalize c.toNat = code at bounds
  obtain ⟨lower, upper⟩ := bounds
  interval_cases code <;> decide

theorem decimal?_digits {digits : List Char} (some_ : digits ≠ [])
    (each : ∀ digit ∈ digits, digit.isDigit = true) :
    decimal? digits = some (digitsValue digits : Int) ∧
      decimal? ('-' :: digits) = some (-(digitsValue digits : Int)) := by
  have full : digits.all Char.isDigit = true := List.all_eq_true.mpr each
  cases digits with
  | nil => exact absurd rfl some_
  | cons first rest =>
    have unsigned := splitSign_digit (each first List.mem_cons_self) rest
    constructor
    · simp only [decimal?, unsigned, full]
      rfl
    · simp only [decimal?, splitSign, full]
      rfl

/-- The written form of an integer. -/
theorem toList_integer (value : Int) :
    (toString value).toList = signText (decide (value < 0)) ++ Nat.toDigits 10 value.natAbs := by
  cases value with
  | ofNat number =>
    have plain : decide (Int.ofNat number < 0) = false := by simp
    rw [plain]
    exact toList_toString number
  | negSucc number =>
    have negative : decide (Int.negSucc number < 0) = true := by simp
    rw [negative]
    change ("-" ++ toString (number + 1)).toList = _
    rw [String.toList_append, toList_toString]
    rfl

theorem decimal?_integer (value : Int) : decimal? (toString value).toList = some value := by
  have digits := @isDigit_of_mem_toDigits value.natAbs
  obtain ⟨plain, negated⟩ := decimal?_digits (Nat.toDigits_ne_nil) (fun digit => digits)
  rw [digitsValue_toDigits] at plain negated
  rw [toList_integer]
  by_cases negative : value < 0
  · rw [decide_eq_true negative]
    refine negated.trans ?_
    congr 1
    omega
  · rw [decide_eq_false negative]
    refine plain.trans ?_
    congr 1
    omega

theorem ofChars_integer (value : Int64) :
    ofChars (toString value.toInt).toList = .ok (.integer value) := by
  have read := decimal?_integer value.toInt
  have fits : fitsWord value.toInt = true := by
    simp only [fitsWord, Bool.and_eq_true, decide_eq_true_eq]
    exact ⟨Int64.le_toInt value, Int64.toInt_le value⟩
  have none_ : boolean? (toString value.toInt).toList = none := by
    unfold boolean?
    have words : ∀ word ∈ ["#t", "#true", "#f", "#false"], decimal? word.toList = none := by decide
    have apart : ∀ word ∈ ["#t", "#true", "#f", "#false"],
        (toString value.toInt).toList ≠ word.toList := by
      intro word listed same
      rw [same, words word listed] at read
      cases read
    rw [if_neg, if_neg]
    · exact fun same => same.elim (apart _ (by decide)) (apart _ (by decide))
    · exact fun same => same.elim (apart _ (by decide)) (apart _ (by decide))
  simp only [ofChars, none_, integer?, read, fits, if_true, Int64.ofInt_toInt]

theorem ofChars_boolean (value : Bool) : ofChars (booleanText value).toList = .ok (.boolean value) := by
  cases value <;> decide

/-- The characters of a number's written form. -/
theorem signText_isAtomChar (negative : Bool) :
    ∀ c ∈ signText negative, Token.isAtomChar c = true := by
  refine List.all_eq_true.mp ?_
  cases negative <;> decide

/-- The written form of a legible atom that is no string is a run of characters that is read as
the atom. -/
theorem Legible.plain {value : Atom} (legible : value.Legible) (unquoted : value.kind ≠ .string) :
    value.text.toList ≠ [] ∧ (∀ c ∈ value.text.toList, Token.isAtomChar c = true) ∧
      ofChars value.text.toList = .ok value := by
  cases value with
  | integer value =>
    refine ⟨?_, ?_, ofChars_integer value⟩
    · rw [text, toList_integer]
      simp [Nat.toDigits_ne_nil]
    · rw [text, toList_integer]
      intro c listed
      rcases List.mem_append.mp listed with sign | digit
      · exact signText_isAtomChar _ c sign
      · exact digit_isAtomChar (isDigit_of_mem_toDigits digit)
  | float value =>
    obtain ⟨first, whole, fraction, same, digit, left, right, _⟩ := Binary64.text_pointed legible
    refine ⟨?_, ?_, Binary64.ofChars_text legible⟩
    · rw [text, same]
      simp
    · rw [text, same]
      intro c listed
      rw [List.mem_append, List.mem_cons, List.mem_append, List.mem_cons] at listed
      rcases listed with sign | rfl | before | rfl | after
      · exact signText_isAtomChar _ c sign
      · exact digit_isAtomChar digit
      · exact digit_isAtomChar (left c before)
      · decide
      · exact digit_isAtomChar (right c after)
  | string => exact absurd rfl unquoted
  | boolean value =>
    have read := ofChars_boolean value
    refine ⟨?_, List.all_eq_true.mp ?_, read⟩ <;> cases value <;> decide
  | symbol name => exact legible

end Atom

namespace Token

/-- What may follow an atom: nothing, a blank or a closing parenthesis. -/
def Ends (rest : List Char) : Prop := rest = [] ∨ ∃ c more, rest = c :: more ∧ (c = ' ' ∨ c = ')')

/-- A text is scanned as tokens of some kinds, wherever it stands in front of what may follow. -/
def Scans (text : List Char) (kinds : List TokenKind) : Prop :=
  ∀ total offset rest, Ends rest → ∃ tokens stop, tokens.map Token.kind = kinds ∧
    scanFrom total offset (text ++ rest) = (scanFrom total stop rest).map (tokens ++ ·)

/-- A lexeme that is one token is followed by what is scanned after it. -/
theorem scanFrom_token {total offset : Nat} {first : Char} {taken rest : List Char}
    {kind : TokenKind}
    (found : lexeme total offset first (taken ++ rest) = (.token kind, first :: taken)) :
    ∃ token stop, token.kind = kind ∧ scanFrom total offset (first :: (taken ++ rest)) =
      (scanFrom total stop rest).map ([token] ++ ·) := by
  refine ⟨⟨kind, offset, offset + byteLength (first :: taken)⟩,
    offset + byteLength (first :: taken), rfl, ?_⟩
  rw [scanFrom, found]
  have remaining : (first :: (taken ++ rest)).drop (first :: taken).length = rest :=
    show ((first :: taken) ++ rest).drop (first :: taken).length = rest from List.drop_left
  simp only [remaining]
  rfl

/-- A blank in front is skipped. -/
theorem scanFrom_blank (total offset : Nat) (rest : List Char) :
    ∃ stop, scanFrom total offset (' ' :: rest) = scanFrom total stop rest := by
  refine ⟨offset + byteLength [' '], ?_⟩
  rw [scanFrom]
  have blank : lexeme total offset ' ' rest = (.skipped, [' ']) := by
    unfold lexeme
    rw [if_pos (by decide)]
  simp only [blank]
  rfl

theorem Ends.takeWhile {rest : List Char} (ends : Ends rest) :
    rest.takeWhile isAtomChar = [] := by
  rcases ends with rfl | ⟨c, more, rfl, rfl | rfl⟩
  · rfl
  · exact List.takeWhile_cons_of_neg (by decide)
  · exact List.takeWhile_cons_of_neg (by decide)

/-- A character of an atom is neither blank, delimiter, quote nor semicolon. -/
theorem isAtomChar_iff {c : Char} : isAtomChar c = true ↔
    isSpace c = false ∧ delimiter? c = none ∧ c ≠ '"' ∧ c ≠ ';' := by
  simp [isAtomChar, and_assoc]

theorem isBlank_of_isAtomChar {c : Char} (plain : isAtomChar c = true) : isBlank c = false := by
  by_contra blank
  rw [Bool.not_eq_false] at blank
  have cases_ : c = ' ' ∨ c = '\t' ∨ c = '\r' ∨ c = '\n' ∨ c = '\x0c' := by
    simpa [isBlank, or_assoc] using blank
  rcases cases_ with rfl | rfl | rfl | rfl | rfl <;> revert plain <;> decide

/-- A run of characters that is read as an atom is scanned as the atom. -/
theorem scans_plain {chars : List Char} {value : Atom} (some_ : chars ≠ [])
    (each : ∀ c ∈ chars, isAtomChar c = true) (read : Atom.ofChars chars = .ok value) :
    Scans chars [.atom value] := by
  intro total offset rest ends
  obtain ⟨first, taken, rfl⟩ := List.exists_cons_of_ne_nil some_
  obtain ⟨here, later⟩ := List.forall_mem_cons.mp each
  obtain ⟨_, plain, unquoted, uncommented⟩ := isAtomChar_iff.mp here
  have run : (taken ++ rest).takeWhile isAtomChar = taken := by
    rw [List.takeWhile_append_of_pos later, ends.takeWhile, List.append_nil]
  have found : lexeme total offset first (taken ++ rest) =
      (.token (.atom value), first :: taken) := by
    unfold lexeme
    rw [if_neg (by rw [isBlank_of_isAtomChar here]; decide), if_neg uncommented]
    simp only [plain]
    rw [if_neg unquoted, if_pos here, run]
    simp only [plainAtom, read, Lexeme.ofAtom]
  obtain ⟨token, stop, kind, same⟩ := scanFrom_token found
  refine ⟨[token], stop, ?_, same⟩
  rw [List.map_singleton, kind]

/-- The written body of a string runs to the closing quote. -/
theorem stringBody?_escapeAll (chars rest : List Char) :
    stringBody? (Text.escapeAll chars ++ '"' :: rest) = some (Text.escapeAll chars, rest) := by
  induction chars with
  | nil => rfl
  | cons c others ih =>
    have split : Text.escapeAll (c :: others) = Text.escape c ++ Text.escapeAll others := by
      simp [Text.escapeAll]
    rw [split, List.append_assoc]
    unfold Text.escape
    split
    · simp [stringBody?, ih]
    · simp [stringBody?, ih]
    · simp [stringBody?, ih]
    · simp [stringBody?, ih]
    · rename_i unquoted notBackslash _ _
      rw [List.singleton_append, stringBody?, ih]
      · rfl
      · exact fun equal => absurd equal unquoted
      · exact fun equal => absurd equal notBackslash
      · exact fun _ _ equal => absurd equal notBackslash

/-- A string literal is scanned as the string. -/
theorem scans_quote (text : String) : Scans (Text.quote text).toList [.atom (.string text)] := by
  intro total offset rest _
  have written : (Text.quote text).toList ++ rest =
      '"' :: ((Text.escapeAll text.toList ++ ['"']) ++ rest) := by
    simp [Text.quote]
  have found : lexeme total offset '"' ((Text.escapeAll text.toList ++ ['"']) ++ rest) =
      (.token (.atom (.string text)), '"' :: (Text.escapeAll text.toList ++ ['"'])) := by
    unfold lexeme
    rw [if_neg (by decide), if_neg (by decide), List.append_assoc]
    change (if '"' = '"' then _ else _) = _
    rw [if_pos rfl, List.singleton_append, stringBody?_escapeAll]
    simp only [stringAtom, Text.unescape_escapeAll, Lexeme.ofAtom, String.ofList_toList]
    rfl
  obtain ⟨token, stop, kind, same⟩ := scanFrom_token found
  refine ⟨[token], stop, ?_, ?_⟩
  · rw [List.map_singleton, kind]
  · rw [written]
    exact same

/-- A legible atom is scanned as itself. -/
theorem scans_atom {value : Atom} (legible : value.Legible) :
    Scans value.text.toList [.atom value] := by
  by_cases unquoted : value.kind = .string
  · cases value with
    | string text => exact scans_quote text
    | _ => cases unquoted
  · obtain ⟨some_, each, read⟩ := legible.plain unquoted
    exact scans_plain some_ each read

/-- A delimiter is scanned wherever it stands. -/
theorem scanFrom_delimiter {c : Char} {kind : TokenKind} (delimits : delimiter? c = some kind)
    (unblank : isBlank c = false) (uncommented : c ≠ ';') (total offset : Nat) (rest : List Char) :
    ∃ token stop, token.kind = kind ∧
      scanFrom total offset (c :: rest) = (scanFrom total stop rest).map ([token] ++ ·) := by
  have found : lexeme total offset c ([] ++ rest) = (.token kind, [c]) := by
    unfold lexeme
    rw [if_neg (by rw [unblank]; decide), if_neg uncommented]
    simp only [delimits]
  exact scanFrom_token found

end Token

namespace Term

/-- A term whose atoms are good. -/
inductive Composed (good : Atom → Prop) : Term → Prop
  | atom {value : Atom} (here : good value) : Composed good (.atom value)
  | hole : Composed good .hole
  | sequence {items : List Term} (each : ∀ item ∈ items, Composed good item) :
      Composed good (.sequence items)

/-- A term whose atoms are legible. -/
abbrev Legible : Term → Prop := Composed Atom.Legible

mutual

/-- The kinds of the tokens of a written term. -/
def tokenKinds : Term → List TokenKind
  | .atom value => [.atom value]
  | .hole => [.atom (.symbol "hole")]
  | .sequence items => .opening .parenthesis :: (tokenKindsAll items ++ [.closing .parenthesis])

/-- The kinds of the tokens of written terms. -/
def tokenKindsAll : List Term → List TokenKind
  | [] => []
  | term :: rest => term.tokenKinds ++ tokenKindsAll rest

end

/-- Terms after the first, each with a blank in front of it. -/
def blankSeparated (terms : List Term) : List Char :=
  terms.flatMap fun term => ' ' :: term.text.toList

theorem toList_spaced (first : Term) (rest : List Term) :
    (Text.spaced (textAll (first :: rest))).toList = first.text.toList ++ blankSeparated rest := by
  rw [Text.spaced, Text.join, textAll_eq_map, String.toList_intercalate, List.map_cons,
    List.map_cons]
  induction rest generalizing first with
  | nil => simp [blankSeparated]
  | cons next others ih =>
    rw [List.map_cons, List.map_cons, List.intercalate_cons_cons, ih next]
    simp [blankSeparated]

theorem ends_blankSeparated (terms : List Term) {rest : List Char} (ends : Token.Ends rest) :
    Token.Ends (blankSeparated terms ++ rest) := by
  cases terms with
  | nil => exact ends
  | cons term others => exact .inr ⟨' ', _, rfl, .inl rfl⟩

/-- Scanning goes on behind what was scanned. -/
theorem scans_then {first second : List Char} {left right : List TokenKind}
    (one : Token.Scans first left) (two : Token.Scans second right)
    (ends : ∀ rest, Token.Ends rest → Token.Ends (second ++ rest)) :
    Token.Scans (first ++ second) (left ++ right) := by
  intro total offset rest after
  obtain ⟨tokens, middle, kinds, scanned⟩ := one total offset (second ++ rest) (ends rest after)
  obtain ⟨others, stop, moreKinds, further⟩ := two total middle rest after
  refine ⟨tokens ++ others, stop, ?_, ?_⟩
  · rw [List.map_append, kinds, moreKinds]
  · rw [List.append_assoc, scanned, further]
    cases Token.scanFrom total stop rest <;> simp [Except.map]

theorem scans_blankSeparated {terms : List Term}
    (each : ∀ term ∈ terms, Token.Scans term.text.toList term.tokenKinds) :
    Token.Scans (blankSeparated terms) (tokenKindsAll terms) := by
  induction terms with
  | nil =>
    intro total offset rest _
    refine ⟨[], offset, rfl, ?_⟩
    rw [blankSeparated, List.flatMap_nil, List.nil_append]
    cases Token.scanFrom total offset rest <;> rfl
  | cons term others ih =>
    obtain ⟨here, later⟩ := List.forall_mem_cons.mp each
    have both := scans_then here (ih later) fun rest => ends_blankSeparated others
    intro total offset rest after
    obtain ⟨start, skipped⟩ := Token.scanFrom_blank total offset
      (term.text.toList ++ blankSeparated others ++ rest)
    obtain ⟨tokens, stop, kinds, scanned⟩ := both total start rest after
    refine ⟨tokens, stop, kinds, ?_⟩
    rw [← scanned, ← skipped]
    rfl

/-- A term is scanned as the tokens of its written form. -/
theorem Legible.scans {term : Term} (legible : term.Legible) :
    Token.Scans term.text.toList term.tokenKinds := by
  induction legible with
  | atom legible => exact Token.scans_atom legible
  | hole =>
    refine Token.scans_plain ?_ (List.all_eq_true.mp ?_) ?_
    · decide
    · decide
    · decide
  | @sequence items _ each =>
    have inner : ∃ chars, (Term.sequence items).text.toList = '(' :: (chars ++ [')']) ∧
        Token.Scans chars (tokenKindsAll items) := by
      cases items with
      | nil =>
        refine ⟨[], by decide, ?_⟩
        have none_ : ∀ term ∈ ([] : List Term), Token.Scans term.text.toList term.tokenKinds := nofun
        exact scans_blankSeparated none_
      | cons first rest =>
        obtain ⟨here, later⟩ := List.forall_mem_cons.mp each
        refine ⟨first.text.toList ++ blankSeparated rest, ?_, ?_⟩
        · rw [text, String.toList_append, String.toList_append, toList_spaced]
          rfl
        · exact scans_then here (scans_blankSeparated later) fun rest' => ends_blankSeparated rest
    obtain ⟨chars, written, scans⟩ := inner
    intro total offset rest after
    have opened : ∃ token stop, token.kind = TokenKind.opening .parenthesis ∧
        Token.scanFrom total offset ('(' :: (chars ++ ')' :: rest)) =
          (Token.scanFrom total stop (chars ++ ')' :: rest)).map ([token] ++ ·) :=
      Token.scanFrom_delimiter (by decide) (by decide) (by decide) _ _ _
    obtain ⟨opener, start, opens, first⟩ := opened
    obtain ⟨tokens, middle, kinds, second⟩ :=
      scans total start (')' :: rest) (.inr ⟨')', rest, rfl, .inr rfl⟩)
    have closed : ∃ token stop, token.kind = TokenKind.closing .parenthesis ∧
        Token.scanFrom total middle (')' :: rest) =
          (Token.scanFrom total stop rest).map ([token] ++ ·) :=
      Token.scanFrom_delimiter (by decide) (by decide) (by decide) _ _ _
    obtain ⟨closer, stop, closes, third⟩ := closed
    refine ⟨opener :: (tokens ++ [closer]), stop, ?_, ?_⟩
    · rw [tokenKinds, List.map_cons, List.map_append, opens, kinds, List.map_singleton, closes]
    · have whole : (Term.sequence items).text.toList ++ rest = '(' :: (chars ++ ')' :: rest) := by
        rw [written]
        simp
      rw [whole, first, second, third]
      cases Token.scanFrom total stop rest <;> simp [Except.map]

/-- Tokens are collected into one expression that writes a term. -/
def Collects (tokens : List Token) (term : Term) : Prop :=
  ∃ sexp : Sexp, sexp.toTerm = term ∧ ∀ stop rest stack items,
    Sexp.collect stop (tokens ++ rest) stack items = Sexp.collect stop rest stack (sexp :: items)

/-- Tokens are collected into expressions that write some terms, one behind the other. -/
def CollectsAll (tokens : List Token) (terms : List Term) : Prop :=
  ∃ sexps : List Sexp, Sexp.toTerms sexps = terms ∧ ∀ stop rest stack items,
    Sexp.collect stop (tokens ++ rest) stack items =
      Sexp.collect stop rest stack (sexps.reverse ++ items)

theorem collectsAll_of_each {terms : List Term}
    (each : ∀ term ∈ terms, ∀ tokens : List Token, tokens.map Token.kind = term.tokenKinds →
      Collects tokens term.reread) {tokens : List Token}
    (kinds : tokens.map Token.kind = tokenKindsAll terms) :
    CollectsAll tokens (rereadAll terms) := by
  induction terms generalizing tokens with
  | nil =>
    have none_ : tokens = [] := List.map_eq_nil_iff.mp kinds
    subst none_
    exact ⟨[], rfl, fun _ _ _ _ => rfl⟩
  | cons term others ih =>
    obtain ⟨here, later⟩ := List.forall_mem_cons.mp each
    obtain ⟨front, back, rfl, one, two⟩ := List.map_eq_append_iff.mp kinds
    obtain ⟨sexp, writes, collects⟩ := here front one
    obtain ⟨sexps, writing, collecting⟩ := ih later two
    refine ⟨sexp :: sexps, ?_, ?_⟩
    · rw [Sexp.toTerms, writes, writing, rereadAll]
    · intro stop rest stack items
      rw [List.append_assoc, collects, collecting, List.reverse_cons, List.append_assoc]
      rfl

/-- The tokens of a written term are collected into an expression that writes it, but for
variables named `hole`. -/
theorem collects_tokens (term : Term) : ∀ tokens : List Token,
    tokens.map Token.kind = term.tokenKinds → Collects tokens term.reread := by
  induction term using Term.induction with
  | atom value =>
    intro tokens kinds
    obtain ⟨⟨kind, span⟩, rfl, same⟩ := List.map_eq_singleton_iff.mp kinds
    change kind = _ at same
    subst same
    refine ⟨.atom value span, ?_, fun _ _ _ _ => rfl⟩
    cases value <;> simp only [Sexp.toTerm, reread, symbol]
  | hole =>
    intro tokens kinds
    obtain ⟨⟨kind, span⟩, rfl, same⟩ := List.map_eq_singleton_iff.mp kinds
    change kind = _ at same
    subst same
    refine ⟨.atom (.symbol "hole") span, ?_, fun _ _ _ _ => rfl⟩
    rw [Sexp.toTerm, if_pos rfl, reread] <;> simp
  | sequence items each =>
    intro tokens kinds
    rw [tokenKinds] at kinds
    obtain ⟨opener, others, rfl, opens, further⟩ := List.map_eq_cons_iff.mp kinds
    obtain ⟨inner, last, rfl, within, closing⟩ := List.map_eq_append_iff.mp further
    obtain ⟨closer, rfl, closes⟩ := List.map_eq_singleton_iff.mp closing
    obtain ⟨sexps, writing, collecting⟩ := collectsAll_of_each each within
    obtain ⟨openKind, start⟩ := opener
    obtain ⟨closeKind, finish⟩ := closer
    change openKind = _ at opens
    change closeKind = _ at closes
    subst opens closes
    refine ⟨.list sexps (start.merge finish), ?_, ?_⟩
    · rw [Sexp.toTerm, writing, reread]
    · intro stop rest stack before
      rw [List.cons_append, List.append_assoc, Sexp.collect, collecting, List.singleton_append,
        Sexp.collect, if_pos rfl, List.append_nil, List.reverse_reverse]

/-- A legible term is read from its written form, but for variables named `hole`. -/
theorem Legible.read_text {term : Term} (legible : term.Legible) :
    Term.read term.text = .ok term.reread := by
  obtain ⟨tokens, stop, kinds, scanned⟩ := legible.scans term.text.utf8ByteSize 0 [] (.inl rfl)
  obtain ⟨sexp, writes, collects⟩ := collects_tokens term tokens kinds
  have ended : Token.scanFrom term.text.utf8ByteSize stop [] = .ok [] := by rw [Token.scanFrom]
  have whole : Token.scan term.text = .ok tokens := by
    rw [List.append_nil, ended] at scanned
    simpa [Token.scan, Except.map] using scanned
  have collected := collects (.point term.text.utf8ByteSize) [] [] []
  rw [List.append_nil] at collected
  have one : Sexp.readOne term.text = .ok sexp := by
    simp only [Sexp.readOne, Sexp.readAll, whole, bind, Except.bind, Sexp.ofTokens, collected,
      Sexp.collect, List.reverse_singleton]
  rw [read, one, Except.map, writes]

end Term

namespace Binary64

theorem isFinite_ofDecimal? {negative : Bool} {digits : Nat} {exponent : Int} {number : Binary64}
    (found : ofDecimal? negative digits exponent = some number) : number.isFinite = true := by
  simp only [ofDecimal?] at found
  split at found
  · rename_i below
    cases found
    generalize wordOfDecimal digits exponent = word at below
    have small : word < signBit := Nat.lt_trans below (by decide)
    have same : (ofMagnitude negative word).magnitude = word := by
      have bits : (ofMagnitude negative word).bits.toNat = (if negative then signBit else 0) + word := by
        refine UInt64.toNat_ofNat_of_lt ?_
        rw [signBit] at small ⊢
        rw [UInt64.size]
        split <;> omega
      rw [magnitude, bits]
      split
      · rw [Nat.add_mod_left, Nat.mod_eq_of_lt small]
      · rw [Nat.zero_add, Nat.mod_eq_of_lt small]
    rw [isFinite, decide_eq_true_eq, same]
    exact below
  · cases found

end Binary64

namespace Atom

theorem isFinite_of_float? {chars : List Char} {number : Binary64}
    (found : float? chars = some number) : number.isFinite = true := by
  unfold float? at found
  dsimp only at found
  generalize (splitSign chars).2.dropWhile Char.isDigit = afterWhole at found
  split at found
  all_goals
    split at found
    · cases found
    · split at found
      · cases found
      · exact Binary64.isFinite_ofDecimal? found

/-- An atom that is read from characters of atoms is legible. -/
theorem legible_of_ofChars {chars : List Char} {value : Atom} (some_ : chars ≠ [])
    (each : ∀ c ∈ chars, Token.isAtomChar c = true) (read : ofChars chars = .ok value) :
    value.Legible := by
  have given := read
  unfold ofChars at read
  split at read
  · cases read
    trivial
  · split at read
    · cases read
      trivial
    · split at read
      · cases read
        refine ⟨?_, ?_, ?_⟩ <;> rw [String.toList_ofList]
        · exact some_
        · exact each
        · exact given
      · split at read
        · cases read
        · split at read
          · rename_i number found
            cases read
            exact isFinite_of_float? found
          · cases read

end Atom

namespace Token

/-- A token that is an atom is a legible one. -/
def Legible (token : Token) : Prop := ∀ value, token.kind = .atom value → value.Legible

/-- An atom at the front of a text is legible. -/
theorem legible_of_lexeme {total offset : Nat} {first : Char} {rest : List Char} {value : Atom}
    (found : (lexeme total offset first rest).1 = .token (.atom value)) : value.Legible := by
  unfold lexeme at found
  split at found
  · cases found
  · split at found
    · cases found
    · split at found
      · rename_i kind delimits
        cases found
        unfold delimiter? at delimits
        split at delimits <;> cases delimits
      · split at found
        · split at found
          · cases found
          · unfold stringAtom at found
            split at found
            · cases found
              trivial
            · cases found
            · cases found
        · split at found
          · rename_i plain
            have chars : ∀ c ∈ first :: rest.takeWhile isAtomChar, isAtomChar c = true :=
              List.forall_mem_cons.mpr ⟨plain, fun c listed => List.mem_takeWhile_imp listed⟩
            cases read : Atom.ofChars (first :: rest.takeWhile isAtomChar) with
            | ok other =>
              simp only [plainAtom, read, Lexeme.ofAtom] at found
              cases found
              exact Atom.legible_of_ofChars (List.cons_ne_nil _ _) chars read
            | error error =>
              cases error <;> simp only [plainAtom, read, Lexeme.ofAtom] at found <;> cases found
          · cases found

/-- The tokens of a text are legible, and no more than its characters. -/
theorem legible_of_scanFrom {total : Nat} (chars : List Char) : ∀ {offset : Nat}
    {tokens : List Token}, scanFrom total offset chars = .ok tokens →
      tokens.length ≤ chars.length ∧ ∀ token ∈ tokens, token.Legible := by
  induction size : chars.length using Nat.strong_induction_on generalizing chars with
  | _ count ih =>
    intro offset tokens scanned
    cases chars with
    | nil =>
      rw [scanFrom] at scanned
      cases scanned
      exact ⟨Nat.zero_le _, List.forall_mem_nil _⟩
    | cons first rest =>
      have taken := lexeme_taken_pos total offset first rest
      have fewer : ((first :: rest).drop (lexeme total offset first rest).2.length).length < count := by
        rw [List.length_drop]
        simp only [List.length_cons] at size ⊢
        omega
      rw [scanFrom] at scanned
      split at scanned
      · cases scanned
      · obtain ⟨short, legible⟩ := ih _ fewer _ rfl scanned
        exact ⟨by omega, legible⟩
      · rename_i kind found
        obtain ⟨others, further, same⟩ := Except.bind_eq_ok.mp scanned
        cases same
        obtain ⟨short, legible⟩ := ih _ fewer _ rfl further
        refine ⟨?_, List.forall_mem_cons.mpr ⟨?_, legible⟩⟩
        · rw [List.length_cons]
          omega
        · rintro value rfl
          exact legible_of_lexeme found

end Token

namespace Sexp

/-- An expression whose atoms are legible and whose lists have a bounded length. -/
inductive Readable (bound : Nat) : Sexp → Prop
  | atom {value : Atom} {span : Span} (legible : value.Legible) : Readable bound (.atom value span)
  | list {items : List Sexp} {span : Span} (short : items.length ≤ bound)
      (each : ∀ item ∈ items, Readable bound item) : Readable bound (.list items span)

/-- Legible tokens are collected into readable expressions, with lists no longer than there are
tokens. -/
theorem readable_of_collect {bound : Nat} {stop : Span} {tokens : List Token} :
    ∀ {stack : List Opened} {items sexps : List Sexp}, (∀ token ∈ tokens, token.Legible) →
      items.length + tokens.length ≤ bound → (∀ item ∈ items, item.Readable bound) →
      (∀ opened ∈ stack, opened.before.length + tokens.length ≤ bound ∧
        ∀ item ∈ opened.before, item.Readable bound) →
      collect stop tokens stack items = .ok sexps → ∀ sexp ∈ sexps, sexp.Readable bound := by
  induction tokens with
  | nil =>
    intro stack items sexps _ _ fine _ collected
    cases stack with
    | nil =>
      rw [collect] at collected
      cases collected
      exact fun sexp listed => fine sexp (List.mem_reverse.mp listed)
    | cons opened outer =>
      rw [collect] at collected
      cases collected
  | cons token rest ih =>
    intro stack items sexps legible short fine open_ collected
    obtain ⟨here, later⟩ := List.forall_mem_cons.mp legible
    rw [List.length_cons] at short
    have opening : ∀ opened ∈ stack, opened.before.length + rest.length ≤ bound ∧
        ∀ item ∈ opened.before, item.Readable bound := by
      intro opened listed
      have held := open_ opened listed
      rw [List.length_cons] at held
      exact ⟨by omega, held.2⟩
    obtain ⟨kind, span⟩ := token
    cases kind with
    | atom value =>
      refine ih later ?_ (List.forall_mem_cons.mpr ⟨.atom (here value rfl), fine⟩) opening collected
      rw [List.length_cons]
      omega
    | opening delimiter =>
      refine ih later ?_ (List.forall_mem_nil _) (List.forall_mem_cons.mpr ⟨⟨?_, fine⟩, opening⟩)
        collected
      · rw [List.length_nil]
        omega
      · change items.length + rest.length ≤ bound
        omega
    | closing delimiter =>
      cases stack with
      | nil =>
        rw [collect] at collected
        cases collected
      | cons opened outer =>
        obtain ⟨⟨room, before⟩, outside⟩ := List.forall_mem_cons.mp open_
        rw [List.length_cons] at room
        rw [collect] at collected
        split at collected
        · refine ih later ?_ (List.forall_mem_cons.mpr ⟨.list ?_ ?_, before⟩)
            (fun other listed => opening other (List.mem_cons_of_mem _ listed)) collected
          · rw [List.length_cons]
            omega
          · rw [List.length_reverse]
            omega
          · exact fun item listed => fine item (List.mem_reverse.mp listed)
        · cases collected

/-- The expressions of a source are readable, with lists no longer than the source. -/
theorem readable_of_readAll {source : String} {sexps : List Sexp}
    (read : readAll source = .ok sexps) :
    ∀ sexp ∈ sexps, sexp.Readable source.utf8ByteSize := by
  obtain ⟨tokens, scanned, collected⟩ := Except.bind_eq_ok.mp read
  obtain ⟨few, legible⟩ := Token.legible_of_scanFrom source.toList scanned
  have short : source.toList.length ≤ source.utf8ByteSize := by
    have bytes : ∀ chars : List Char, chars.length ≤ String.utf8Len chars := by
      intro chars
      induction chars with
      | nil => exact Nat.le_refl _
      | cons c rest ih =>
        have positive := c.utf8Size_pos
        rw [String.utf8Len_cons, List.length_cons]
        omega
    have whole := String.utf8ByteSize_ofList source.toList
    rw [String.ofList_toList] at whole
    rw [whole]
    exact bytes source.toList
  refine readable_of_collect legible ?_ (List.forall_mem_nil _) (List.forall_mem_nil _) collected
  rw [List.length_nil]
  omega

theorem toTerms_eq_map (sexps : List Sexp) : toTerms sexps = sexps.map toTerm := by
  induction sexps with
  | nil => rfl
  | cons sexp rest ih => rw [toTerms, ih, List.map_cons]

/-- The term that a readable expression writes is legible, and proper if its lists can be
counted. -/
theorem Readable.toTerm {bound : Nat} {sexp : Sexp} (readable : sexp.Readable bound)
    (small : bound ≤ mostCount) : sexp.toTerm.Legible ∧ sexp.toTerm.Proper := by
  induction readable with
  | @atom value span legible =>
    cases value with
    | symbol name =>
      rw [Sexp.toTerm]
      split
      · exact ⟨.hole, .hole⟩
      · rename_i named
        refine ⟨.atom legible, .atom ?_⟩
        rintro ⟨rfl⟩
        exact named rfl
    | _ => exact ⟨.atom legible, .atom nofun⟩
  | @list items span short _ each =>
    have all : ∀ term ∈ items.map Sexp.toTerm, term.Legible ∧ term.Proper := by
      intro term listed
      obtain ⟨item, among, rfl⟩ := List.mem_map.mp listed
      exact each item among
    rw [Sexp.toTerm, toTerms_eq_map]
    refine ⟨.sequence fun term listed => (all term listed).1,
      .sequence ?_ fun term listed => (all term listed).2⟩
    rw [List.length_map]
    omega

end Sexp

end Reduct
