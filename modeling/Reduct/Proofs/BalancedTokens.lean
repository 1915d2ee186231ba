import Reduct.Sexp

/-!
# Balanced tokens

Tokens are read exactly if their delimiters are balanced. What is read then spells the tokens: an
atom is its token, and a list is its items between an opening and a closing delimiter. Otherwise
reading stops at the first token after which nothing could balance the tokens any more, or at the
end, and tells which delimiter was still open there.
-/

namespace Reduct

namespace Token

/-- Tokens in which every opening delimiter is closed by one of its own kind, and in which nothing
else is closed. -/
inductive Balanced : List Token → Prop
  | nil : Balanced []
  | atom {value : Atom} {span : Span} {rest : List Token} (others : Balanced rest) :
      Balanced (⟨.atom value, span⟩ :: rest)
  | list {delimiter : Delimiter} {opened closed : Span} {inner rest : List Token}
      (inside : Balanced inner) (others : Balanced rest) :
      Balanced (⟨.opening delimiter, opened⟩ :: (inner ++ ⟨.closing delimiter, closed⟩ :: rest))

/-- Tokens that can be continued to balanced ones. -/
def Viable (tokens : List Token) : Prop := ∃ more, Balanced (tokens ++ more)

/-- The innermost delimiter that is open after some tokens: what follows it is balanced. -/
def Innermost (tokens : List Token) (delimiter : Delimiter) (opened : Span) : Prop :=
  ∃ before after, tokens = before ++ ⟨.opening delimiter, opened⟩ :: after ∧ Balanced after

/-- The first token after which no continuation is balanced, and the tokens in front of it. -/
structure Stuck (tokens kept : List Token) (token : Token) : Prop where
  split : ∃ rest, tokens = kept ++ token :: rest
  viable : Viable kept
  stuck : ¬ Viable (kept ++ [token])

/-- How tokens are rejected: the first token that cannot be continued closes where nothing is open,
or closes with the wrong delimiter; or the tokens end while a delimiter is open. -/
inductive Rejected (bytes : Nat) (tokens : List Token) : Fault → Prop
  | nothingOpen {kept : List Token} {delimiter : Delimiter} {span : Span}
      (first : Stuck tokens kept ⟨.closing delimiter, span⟩) (closed : Balanced kept) :
      Rejected bytes tokens (.located .unexpectedClose span "nothing to close here")
  | wrongKind {kept : List Token} {delimiter expected : Delimiter} {span opened : Span}
      (first : Stuck tokens kept ⟨.closing delimiter, span⟩)
      (innermost : Innermost kept expected opened) (differ : delimiter ≠ expected) :
      Rejected bytes tokens
        (.related (.mismatched expected) span "wrong delimiter" opened "opened here")
  | ended {delimiter : Delimiter} {opened : Span} (viable : Viable tokens)
      (innermost : Innermost tokens delimiter opened) :
      Rejected bytes tokens
        (.related .unclosed (.point bytes) "input ends here" opened "opened here")

theorem Balanced.append {first second : List Token} (one : Balanced first)
    (two : Balanced second) : Balanced (first ++ second) := by
  induction one with
  | nil => exact two
  | atom _ ih => exact .atom ih
  | list inside _ _ ih =>
    rw [List.cons_append, List.append_assoc]
    exact .list inside ih

/-- What can be continued could be continued all along. -/
theorem Viable.before {first second : List Token} (viable : Viable (first ++ second)) :
    Viable first := by
  obtain ⟨more, balanced⟩ := viable
  rw [List.append_assoc] at balanced
  exact ⟨second ++ more, balanced⟩

theorem Balanced.viable {tokens : List Token} (balanced : Balanced tokens) : Viable tokens :=
  ⟨[], by rwa [List.append_nil]⟩

/-- The kind of a token, without regard to the kind of its delimiter. -/
def shape (token : Token) : TokenKind :=
  match token.kind with
  | .opening _ => .opening .parenthesis
  | .closing _ => .closing .parenthesis
  | kind => kind

end Token

namespace Sexp

open Token

mutual

/-- An expression is what some tokens spell, with their spans. -/
inductive Spells : Sexp → List Token → Prop
  | atom {value : Atom} {span : Span} : Spells (.atom value span) [⟨.atom value, span⟩]
  | list {items : List Sexp} {delimiter : Delimiter} {opened closed : Span} {inner : List Token}
      (inside : SpellAll items inner) :
      Spells (.list items (opened.merge closed))
        (⟨.opening delimiter, opened⟩ :: (inner ++ [⟨.closing delimiter, closed⟩]))

/-- Expressions are what some tokens spell, one after another. -/
inductive SpellAll : List Sexp → List Token → Prop
  | nil : SpellAll [] []
  | cons {sexp : Sexp} {rest : List Sexp} {tokens others : List Token}
      (first : Spells sexp tokens) (later : SpellAll rest others) :
      SpellAll (sexp :: rest) (tokens ++ others)

end

mutual

/-- The tokens of an expression, up to the kind of its delimiters. -/
def flatten : Sexp → List TokenKind
  | .atom value _ => [.atom value]
  | .list items _ => .opening .parenthesis :: (flattenAll items ++ [.closing .parenthesis])

/-- The tokens of expressions, up to the kind of their delimiters. -/
def flattenAll : List Sexp → List TokenKind
  | [] => []
  | item :: rest => item.flatten ++ flattenAll rest

end

theorem SpellAll.append {first second : List Sexp} {tokens others : List Token}
    (one : SpellAll first tokens) (two : SpellAll second others) :
    SpellAll (first ++ second) (tokens ++ others) := by
  induction first generalizing tokens with
  | nil =>
    cases one
    exact two
  | cons sexp rest ih =>
    cases one with
    | cons here later =>
      rw [List.cons_append, List.append_assoc]
      exact .cons here (ih later)

theorem SpellAll.single {sexp : Sexp} {tokens : List Token} (spells : Spells sexp tokens) :
    SpellAll [sexp] tokens := by
  have alone := SpellAll.cons spells .nil
  rwa [List.append_nil] at alone

mutual

/-- Spelled tokens are balanced, whatever comes after them. -/
theorem Spells.balanced {rest : List Token} (others : Balanced rest) :
    ∀ {sexp : Sexp} {tokens : List Token}, Spells sexp tokens → Balanced (tokens ++ rest)
  | .atom _ _, _, .atom => .atom others
  | .list _ _, _, .list inside => by
    rw [List.cons_append, List.append_assoc]
    have inner := SpellAll.balanced .nil inside
    rw [List.append_nil] at inner
    exact .list inner others

theorem SpellAll.balanced {rest : List Token} (others : Balanced rest) :
    ∀ {sexps : List Sexp} {tokens : List Token}, SpellAll sexps tokens → Balanced (tokens ++ rest)
  | [], _, .nil => others
  | _ :: _, _, .cons first later => by
    rw [List.append_assoc]
    exact Spells.balanced (SpellAll.balanced others later) first

end

mutual

/-- Flattening gives the tokens back that an expression was spelled by. -/
theorem Spells.flatten_eq : ∀ {sexp : Sexp} {tokens : List Token}, Spells sexp tokens →
    sexp.flatten = tokens.map Token.shape
  | .atom _ _, _, .atom => by
    rw [flatten]
    rfl
  | .list _ _, _, .list inside => by
    have within := SpellAll.flattenAll_eq inside
    simp [flatten, within, Token.shape]

theorem SpellAll.flattenAll_eq : ∀ {sexps : List Sexp} {tokens : List Token},
    SpellAll sexps tokens → flattenAll sexps = tokens.map Token.shape
  | [], _, .nil => by
    rw [flattenAll]
    rfl
  | _ :: _, _, .cons first later => by
    rw [flattenAll, Spells.flatten_eq first, SpellAll.flattenAll_eq later, List.map_append]

end

mutual

/-- The tokens of an expression are collected to it, wherever they stand. -/
theorem Spells.collect_eq (stop : Span) : ∀ {sexp : Sexp} {tokens : List Token},
    Spells sexp tokens → ∀ rest stack items,
      collect stop (tokens ++ rest) stack items = collect stop rest stack (sexp :: items)
  | .atom _ _, _, .atom, rest, stack, items => by
    rw [List.singleton_append, collect]
  | .list _ _, _, .list inside, rest, stack, items => by
    rw [List.cons_append, List.append_assoc, collect, SpellAll.collect_eq stop inside,
      List.singleton_append, collect, if_pos rfl, List.append_nil, List.reverse_reverse]

theorem SpellAll.collect_eq (stop : Span) : ∀ {sexps : List Sexp} {tokens : List Token},
    SpellAll sexps tokens → ∀ rest stack items,
      collect stop (tokens ++ rest) stack items = collect stop rest stack (sexps.reverse ++ items)
  | [], _, .nil, rest, stack, items => rfl
  | sexp :: sexps, _, .cons first later, rest, stack, items => by
    rw [List.append_assoc, Spells.collect_eq stop first, SpellAll.collect_eq stop later,
      List.reverse_cons, List.append_assoc, List.singleton_append]

end

/-- Balanced tokens spell some expressions. -/
theorem exists_spellAll {tokens : List Token} (balanced : Balanced tokens) :
    ∃ sexps, SpellAll sexps tokens := by
  induction balanced with
  | nil => exact ⟨[], .nil⟩
  | @atom value span rest _ ih =>
    obtain ⟨sexps, later⟩ := ih
    exact ⟨.atom value span :: sexps, .cons .atom later⟩
  | @list delimiter opened closed inner rest _ _ within after =>
    obtain ⟨items, inside⟩ := within
    obtain ⟨sexps, later⟩ := after
    have here : Spells (.list items (opened.merge closed))
        (⟨.opening delimiter, opened⟩ :: (inner ++ [⟨.closing delimiter, closed⟩])) := .list inside
    have whole := SpellAll.cons here later
    rw [List.cons_append, List.append_assoc] at whole
    exact ⟨_, whole⟩

/-- Spelled tokens are read as what they spell. -/
theorem SpellAll.ofTokens_eq {sexps : List Sexp} {tokens : List Token}
    (spells : SpellAll sexps tokens) (bytes : Nat) : ofTokens bytes tokens = .ok sexps := by
  have collected := spells.collect_eq (.point bytes) [] [] []
  rw [List.append_nil, List.append_nil] at collected
  rw [ofTokens, collected, collect, List.reverse_reverse]

/-- The state of a reader after some tokens. The items so far spell the tokens after the innermost
open delimiter; those of the lists around it spell the tokens before it. -/
inductive Reached : List Token → List Opened → List Sexp → Prop
  | top {kept : List Token} {items : List Sexp} (spelled : SpellAll items.reverse kept) :
      Reached kept [] items
  | inside {before after : List Token} {opened : Opened} {outer : List Opened} {items : List Sexp}
      (around : Reached before outer opened.before) (spelled : SpellAll items.reverse after) :
      Reached (before ++ ⟨.opening opened.delimiter, opened.span⟩ :: after) (opened :: outer) items

/-- A list is opened. -/
theorem Reached.enter {kept : List Token} {stack : List Opened} {items : List Sexp}
    (reached : Reached kept stack items) (delimiter : Delimiter) (span : Span) :
    Reached (kept ++ [⟨.opening delimiter, span⟩]) (⟨delimiter, span, items⟩ :: stack) [] :=
  @Reached.inside kept [] ⟨delimiter, span, items⟩ stack [] reached .nil

/-- One more expression is read. -/
theorem Reached.push {kept tokens : List Token} {stack : List Opened} {items : List Sexp}
    {sexp : Sexp} (reached : Reached kept stack items) (spells : Spells sexp tokens) :
    Reached (kept ++ tokens) stack (sexp :: items) := by
  cases reached with
  | top spelled =>
    refine .top ?_
    rw [List.reverse_cons]
    exact spelled.append (.single spells)
  | @inside before after opened outer _ around spelled =>
    rw [List.append_assoc, List.cons_append]
    refine .inside around ?_
    rw [List.reverse_cons]
    exact spelled.append (.single spells)

/-- The innermost list is closed by its own kind of delimiter. -/
theorem Reached.close {kept : List Token} {opened : Opened} {outer : List Opened}
    {items : List Sexp} (reached : Reached kept (opened :: outer) items) (closed : Span) :
    Reached (kept ++ [⟨.closing opened.delimiter, closed⟩]) outer
      (.list items.reverse (opened.span.merge closed) :: opened.before) := by
  cases reached with
  | @inside before after _ _ _ around spelled =>
    rw [List.append_assoc, List.cons_append]
    exact around.push (.list spelled)

/-- What was reached can be continued: the open lists are closed one by one. -/
theorem Reached.viable {kept : List Token} {stack : List Opened} {items : List Sexp}
    (reached : Reached kept stack items) : Viable kept := by
  induction stack generalizing kept items with
  | nil =>
    cases reached with
    | top spelled =>
      have balanced := spelled.balanced .nil
      rw [List.append_nil] at balanced
      exact balanced.viable
  | cons opened outer ih =>
    obtain ⟨more, balanced⟩ := ih (reached.close opened.span)
    exact ⟨⟨.closing opened.delimiter, opened.span⟩ :: more, by
      rwa [List.append_assoc, List.singleton_append] at balanced⟩

/-- A reader that is in a state after some tokens goes on from it. -/
theorem Reached.collect_eq (stop : Span) {kept : List Token} {stack : List Opened}
    {items : List Sexp} (reached : Reached kept stack items) (rest : List Token) :
    collect stop (kept ++ rest) [] [] = collect stop rest stack items := by
  induction reached generalizing rest with
  | top spelled =>
    rw [spelled.collect_eq, List.reverse_reverse, List.append_nil]
  | inside around spelled ih =>
    rw [List.append_assoc, List.cons_append, ih, collect, spelled.collect_eq,
      List.reverse_reverse, List.append_nil]

/-- A token that is refused after viable ones is the first that cannot be continued. -/
theorem Reached.stuck {kept rest : List Token} {stack : List Opened} {items : List Sexp}
    {token : Token} (reached : Reached kept stack items)
    (refused : ∀ stop more, ∃ fault, collect stop (token :: more) stack items = .error fault) :
    Stuck (kept ++ token :: rest) kept token where
  split := ⟨rest, rfl⟩
  viable := reached.viable
  stuck := by
    rintro ⟨more, balanced⟩
    obtain ⟨sexps, spells⟩ := exists_spellAll balanced
    have accepted := spells.ofTokens_eq 0
    rw [List.append_assoc, List.singleton_append, ofTokens, reached.collect_eq] at accepted
    obtain ⟨fault, fails⟩ := refused (.point 0) more
    rw [fails] at accepted
    cases accepted

/-- What a reader gives, from a state on: expressions that spell all tokens, or the fault of their
rejection. -/
theorem Reached.read {bytes : Nat} {rest : List Token} : ∀ {kept : List Token}
    {stack : List Opened} {items : List Sexp}, Reached kept stack items →
    match collect (.point bytes) rest stack items with
    | .ok sexps => SpellAll sexps (kept ++ rest)
    | .error fault => Rejected bytes (kept ++ rest) fault := by
  induction rest with
  | nil =>
    intro kept stack items reached
    rw [List.append_nil]
    cases reached with
    | top spelled =>
      rw [collect]
      exact spelled
    | @inside before after opened outer _ around spelled =>
      rw [collect]
      have balanced := spelled.balanced .nil
      rw [List.append_nil] at balanced
      exact .ended (Reached.inside around spelled).viable ⟨before, after, rfl, balanced⟩
  | cons token rest ih =>
    intro kept stack items reached
    obtain ⟨kind, span⟩ := token
    cases kind with
    | atom value =>
      have here : Spells (.atom value span) [⟨.atom value, span⟩] := .atom
      have further := ih (reached.push here)
      rw [List.append_assoc, List.singleton_append] at further
      rw [collect]
      exact further
    | opening delimiter =>
      have further := ih (reached.enter delimiter span)
      rw [List.append_assoc, List.singleton_append] at further
      rw [collect]
      exact further
    | closing delimiter =>
      cases stack with
      | nil =>
        rw [collect]
        have stuck : Stuck (kept ++ ⟨.closing delimiter, span⟩ :: rest) kept
            ⟨.closing delimiter, span⟩ :=
          reached.stuck fun stop more => ⟨_, by rw [collect]⟩
        cases reached with
        | top spelled =>
          have balanced := spelled.balanced .nil
          rw [List.append_nil] at balanced
          exact .nothingOpen stuck balanced
      | cons opened outer =>
        rw [collect]
        by_cases same : delimiter = opened.delimiter
        · rw [if_pos same]
          have further := ih (reached.close span)
          rw [List.append_assoc, List.singleton_append, ← same] at further
          exact further
        · rw [if_neg same]
          have stuck : Stuck (kept ++ ⟨.closing delimiter, span⟩ :: rest) kept
              ⟨.closing delimiter, span⟩ :=
            reached.stuck fun stop more => ⟨_, by rw [collect, if_neg same]⟩
          cases reached with
          | @inside before after _ _ _ around spelled =>
            have balanced := spelled.balanced .nil
            rw [List.append_nil] at balanced
            exact .wrongKind stuck ⟨before, after, rfl, balanced⟩ same

/-- Viable tokens bring a reader into a state. -/
theorem exists_reached {tokens : List Token} (viable : Viable tokens) :
    ∃ stack items, Reached tokens stack items := by
  obtain ⟨more, balanced⟩ := viable
  have goes : ∀ {rest kept : List Token} {stack : List Opened} {items : List Sexp},
      Reached kept stack items →
      (∃ sexps, collect (.point 0) (rest ++ more) stack items = .ok sexps) →
      ∃ stack items, Reached (kept ++ rest) stack items := by
    intro rest
    induction rest with
    | nil =>
      intro kept stack items reached _
      exact ⟨stack, items, by rwa [List.append_nil]⟩
    | cons token rest ih =>
      intro kept stack items reached accepted
      have split : kept ++ token :: rest = (kept ++ [token]) ++ rest := by simp
      rw [split]
      rw [List.cons_append] at accepted
      obtain ⟨kind, span⟩ := token
      cases kind with
      | atom value =>
        rw [collect] at accepted
        exact ih (reached.push .atom) accepted
      | opening delimiter =>
        rw [collect] at accepted
        exact ih (reached.enter delimiter span) accepted
      | closing delimiter =>
        cases stack with
        | nil =>
          rw [collect] at accepted
          obtain ⟨_, impossible⟩ := accepted
          cases impossible
        | cons opened outer =>
          rw [collect] at accepted
          by_cases same : delimiter = opened.delimiter
          · rw [if_pos same] at accepted
            rw [same]
            exact ih (reached.close span) accepted
          · rw [if_neg same] at accepted
            obtain ⟨_, impossible⟩ := accepted
            cases impossible
  obtain ⟨sexps, spells⟩ := exists_spellAll balanced
  have accepted := spells.ofTokens_eq 0
  have start : Reached [] [] [] := .top .nil
  exact goes start ⟨sexps, accepted⟩

/-- After viable tokens the reader holds their innermost open delimiter on top of its stack. -/
theorem exists_reached_innermost {tokens : List Token} {delimiter : Delimiter} {span : Span}
    (viable : Viable tokens) (innermost : Innermost tokens delimiter span) :
    ∃ before outer items, Reached tokens (⟨delimiter, span, before⟩ :: outer) items := by
  obtain ⟨around, after, rfl, balanced⟩ := innermost
  obtain ⟨outer, before, reached⟩ := exists_reached viable.before
  obtain ⟨sexps, spells⟩ := exists_spellAll balanced
  have spelled : SpellAll sexps.reverse.reverse after := by rwa [List.reverse_reverse]
  refine ⟨before, outer, sexps.reverse, ?_⟩
  exact @Reached.inside around after ⟨delimiter, span, before⟩ outer _ reached spelled

/-- Rejected tokens are read to the fault of their rejection. -/
theorem ofTokens_eq_error {bytes : Nat} {tokens : List Token} {fault : Fault}
    (rejected : Rejected bytes tokens fault) : ofTokens bytes tokens = .error fault := by
  rw [ofTokens]
  cases rejected with
  | nothingOpen first closed =>
    obtain ⟨rest, rfl⟩ := first.split
    obtain ⟨sexps, spells⟩ := exists_spellAll closed
    rw [spells.collect_eq, List.append_nil, collect]
  | wrongKind first innermost differ =>
    obtain ⟨rest, rfl⟩ := first.split
    obtain ⟨before, outer, items, reached⟩ := exists_reached_innermost first.viable innermost
    rw [reached.collect_eq, collect, if_neg differ]
  | ended viable innermost =>
    obtain ⟨before, outer, items, reached⟩ := exists_reached_innermost viable innermost
    have collected := reached.collect_eq (.point bytes) []
    rw [List.append_nil] at collected
    rw [collected, collect]

/-- What tokens are read to: the expressions they spell, or the fault of their rejection. -/
theorem ofTokens_cases (bytes : Nat) (tokens : List Token) :
    match ofTokens bytes tokens with
    | .ok sexps => SpellAll sexps tokens
    | .error fault => Rejected bytes tokens fault := by
  have start : Reached [] [] [] := .top .nil
  exact start.read

theorem ofTokens_eq_ok_iff {bytes : Nat} {tokens : List Token} {sexps : List Sexp} :
    ofTokens bytes tokens = .ok sexps ↔ SpellAll sexps tokens := by
  constructor
  · intro accepted
    have spelled := ofTokens_cases bytes tokens
    rwa [accepted] at spelled
  · intro spells
    exact spells.ofTokens_eq bytes

theorem ofTokens_eq_error_iff {bytes : Nat} {tokens : List Token} {fault : Fault} :
    ofTokens bytes tokens = .error fault ↔ Rejected bytes tokens fault := by
  constructor
  · intro refused
    have rejected := ofTokens_cases bytes tokens
    rwa [refused] at rejected
  · exact ofTokens_eq_error

/-- Tokens are read exactly if they are balanced, and flattening gives them back; other tokens are
refused where they can no longer be continued to balanced ones, with the innermost open delimiter
if there is one. The faults of a wrong closing delimiter and of an early end share a code. -/
theorem balanced_tokens_read (bytes : Nat) (tokens : List Token) :
    ((∃ sexps, ofTokens bytes tokens = .ok sexps) ↔ Balanced tokens) ∧
    (∀ sexps, ofTokens bytes tokens = .ok sexps ↔ SpellAll sexps tokens) ∧
    (∀ sexps, ofTokens bytes tokens = .ok sexps →
      flattenAll sexps = tokens.map Token.shape) ∧
    (∀ fault, ofTokens bytes tokens = .error fault ↔ Rejected bytes tokens fault) ∧
    (Cause.unexpectedClose.code.text = "E1001" ∧ Cause.unclosed.code.text = "E1002" ∧
      ∀ expected, (Cause.mismatched expected).code.text = "E1002") := by
  refine ⟨⟨?_, ?_⟩, ?_, ?_, ?_, rfl, rfl, fun _ => rfl⟩
  · rintro ⟨sexps, accepted⟩
    have balanced := (ofTokens_eq_ok_iff.mp accepted).balanced .nil
    rwa [List.append_nil] at balanced
  · intro balanced
    obtain ⟨sexps, spells⟩ := exists_spellAll balanced
    exact ⟨sexps, spells.ofTokens_eq bytes⟩
  · intro sexps
    exact ofTokens_eq_ok_iff
  · intro sexps accepted
    exact (ofTokens_eq_ok_iff.mp accepted).flattenAll_eq
  · intro fault
    exact ofTokens_eq_error_iff

/-- A bracketed list within a list is flattened to its tokens, and a list that is closed by the
wrong kind is rejected there. -/
theorem balanced_tokens_read_nested :
    flattenAll [.list [.list [.atom (.boolean true) ⟨2, 4⟩] ⟨1, 5⟩] ⟨0, 6⟩] =
      [.opening .parenthesis, .opening .parenthesis, .atom (.boolean true),
        .closing .parenthesis, .closing .parenthesis] ∧
    Rejected 5 [⟨.opening .parenthesis, ⟨0, 1⟩⟩, ⟨.opening .bracket, ⟨1, 2⟩⟩,
        ⟨.atom (.boolean true), ⟨2, 4⟩⟩, ⟨.closing .parenthesis, ⟨4, 5⟩⟩]
      (.related (.mismatched .bracket) ⟨4, 5⟩ "wrong delimiter" ⟨1, 2⟩ "opened here") := by
  constructor
  · exact (balanced_tokens_read 6 [⟨.opening .parenthesis, ⟨0, 1⟩⟩, ⟨.opening .bracket, ⟨1, 2⟩⟩,
      ⟨.atom (.boolean true), ⟨2, 4⟩⟩, ⟨.closing .bracket, ⟨4, 5⟩⟩,
      ⟨.closing .parenthesis, ⟨5, 6⟩⟩]).2.2.1 _ rfl
  · exact ((balanced_tokens_read 5 _).2.2.2.1 _).mp rfl

end Sexp

end Reduct
