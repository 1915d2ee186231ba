import Reduct.Proofs.BalancedTokens
import Reduct.Proofs.TokenLayout

/-!
# Slices of a source

The span of an expression is the place of its text. The expressions of a source stand one after
another, and the items of a list stand inside of it. The text that an expression spans is read as
this expression by itself, with all spans counted from the start of the text.
-/

namespace Reduct.Sexp

open Token

mutual

/-- An expression with all of its spans moved towards the end of a text. -/
def shift (bytes : Nat) : Sexp → Sexp
  | .atom value span => .atom value (span.shift bytes)
  | .list items span => .list (shiftAll bytes items) (span.shift bytes)

/-- Expressions with all of their spans moved. -/
def shiftAll (bytes : Nat) : List Sexp → List Sexp
  | [] => []
  | sexp :: rest => sexp.shift bytes :: shiftAll bytes rest

end

/-- An expression stands in another one at some depth, which may be none. -/
inductive Inside (part : Sexp) : Sexp → Prop
  | here : Inside part part
  | deeper {items : List Sexp} {span : Span} {item : Sexp} (listed : item ∈ items)
      (inside : Inside part item) : Inside part (.list items span)

/-- Expressions stand one after another. -/
def Apart (sexps : List Sexp) : Prop :=
  sexps.Pairwise fun one other => one.span.stop ≤ other.span.start

/-- An item stands between the delimiters of a list. -/
structure Enclosed (span : Span) (item : Sexp) : Prop where
  starts : span.start < item.span.start
  stops : item.span.stop < span.stop

/-- The items of an expression stand one after another between its delimiters. -/
inductive Nested : Sexp → Prop
  | atom {value : Atom} {span : Span} : Nested (.atom value span)
  | list {items : List Sexp} {span : Span} (apart : Apart items)
      (enclosed : ∀ item ∈ items, Enclosed span item) : Nested (.list items span)

/-- The span of an expression is the place of a text of the source, and this text is read as the
expression, with its spans counted from the start of the text. -/
structure Slice (source : String) (sexp : Sexp) : Prop where
  read : ∃ before text after : List Char, source.toList = before ++ text ++ after ∧
    sexp.span.start = byteLength before ∧
    sexp.span.stop = byteLength before + byteLength text ∧
    ∃ one : Sexp, readAll (String.ofList text) = .ok [one] ∧
      one.shift (byteLength before) = sexp

/-- The tokens of an expression of several are some of theirs. -/
theorem SpellAll.part {sexps : List Sexp} {tokens : List Token} (spells : SpellAll sexps tokens)
    {sexp : Sexp} (listed : sexp ∈ sexps) :
    ∃ front part back, tokens = front ++ part ++ back ∧ Spells sexp part := by
  induction sexps generalizing tokens with
  | nil => cases listed
  | cons first rest ih =>
    cases spells with
    | @cons _ _ here others one later =>
      rcases List.mem_cons.mp listed with rfl | listed
      · exact ⟨[], here, others, rfl, one⟩
      · obtain ⟨front, part, back, rfl, spells⟩ := ih later listed
        refine ⟨here ++ front, part, back, ?_, spells⟩
        rw [List.append_assoc, List.append_assoc, List.append_assoc]

/-- The tokens of a part of an expression are some of its tokens. -/
theorem Spells.part {sexp part : Sexp} {tokens : List Token} (spells : Spells sexp tokens)
    (inside : Inside part sexp) :
    ∃ front among back, tokens = front ++ among ++ back ∧ Spells part among := by
  induction inside generalizing tokens with
  | here => exact ⟨[], tokens, [], by rw [List.append_nil, List.nil_append], spells⟩
  | deeper listed _ ih =>
    cases spells with
    | @list items delimiter opened closed inner within =>
      obtain ⟨front, middle, back, rfl, one⟩ := within.part listed
      obtain ⟨before, among, after, rfl, spells⟩ := ih one
      refine ⟨⟨.opening delimiter, opened⟩ :: (front ++ before), among,
        after ++ (back ++ [⟨.closing delimiter, closed⟩]), ?_, spells⟩
      simp only [List.append_assoc, List.cons_append]

/-- An expression spans the bytes from the start of its first token to the end of its last. -/
theorem Spells.ends {sexp : Sexp} {tokens : List Token} (spells : Spells sexp tokens)
    (ordered : Ordered tokens) :
    (∃ first later, tokens = first :: later ∧ first.span.start = sexp.span.start) ∧
    (∃ earlier last, tokens = earlier ++ [last] ∧ last.span.stop = sexp.span.stop) := by
  cases spells with
  | @atom value span => exact ⟨⟨_, [], rfl, rfl⟩, [], ⟨.atom value, span⟩, rfl, rfl⟩
  | @list items delimiter opened closed inner within =>
    have behind := (List.pairwise_cons.mp ordered.apart).1 ⟨.closing delimiter, closed⟩
      (List.mem_append_right _ (List.mem_singleton.mpr rfl))
    have begun := ordered.filled ⟨.opening delimiter, opened⟩ List.mem_cons_self
    have ended := ordered.filled ⟨.closing delimiter, closed⟩
      (List.mem_cons_of_mem _ (List.mem_append_right _ (List.mem_singleton.mpr rfl)))
    simp only at behind begun ended
    refine ⟨⟨_, _, rfl, ?_⟩, ⟨.opening delimiter, opened⟩ :: inner, _,
      (List.cons_append ..).symm, ?_⟩
    · change opened.start = min opened.start closed.start
      omega
    · change closed.stop = max opened.stop closed.stop
      omega

/-- An expression of several starts and stops with tokens of theirs. -/
theorem SpellAll.ends {sexps : List Sexp} {tokens : List Token} (spells : SpellAll sexps tokens)
    (ordered : Ordered tokens) {sexp : Sexp} (listed : sexp ∈ sexps) :
    (∃ token ∈ tokens, token.span.start = sexp.span.start) ∧
    ∃ token ∈ tokens, token.span.stop = sexp.span.stop := by
  obtain ⟨front, part, back, rfl, one⟩ := spells.part listed
  have middle : List.Sublist part (front ++ part ++ back) :=
    (List.sublist_append_right front part).trans (List.sublist_append_left _ back)
  have ends := one.ends (ordered.sublist middle)
  obtain ⟨⟨first, later, rfl, starts⟩, earlier, last, same, stops⟩ := ends
  have final : last ∈ first :: later := by
    rw [same]
    exact List.mem_append_right _ (List.mem_singleton.mpr rfl)
  exact ⟨⟨first, middle.subset List.mem_cons_self, starts⟩, last, middle.subset final, stops⟩

/-- Expressions that are spelled one after another stand apart. -/
theorem SpellAll.apart {sexps : List Sexp} {tokens : List Token} (spells : SpellAll sexps tokens)
    (ordered : Ordered tokens) : Apart sexps := by
  induction sexps generalizing tokens with
  | nil => exact .nil
  | cons sexp rest ih =>
    cases spells with
    | @cons _ _ here others one later =>
      have front := ordered.sublist (List.sublist_append_left here others)
      have back := ordered.sublist (List.sublist_append_right here others)
      refine .cons (fun other listed => ?_) (ih later back)
      obtain ⟨_, earlier, last, same, stops⟩ := one.ends front
      obtain ⟨⟨token, among, starts⟩, _⟩ := later.ends back listed
      have final : last ∈ here := by
        rw [same]
        exact List.mem_append_right _ (List.mem_singleton.mpr rfl)
      have behind := (List.pairwise_append.mp ordered.apart).2.2 last final token among
      omega

/-- The items of a spelled expression stand one after another between its delimiters. -/
theorem Spells.nested {sexp : Sexp} {tokens : List Token} (spells : Spells sexp tokens)
    (ordered : Ordered tokens) : Nested sexp := by
  obtain ⟨⟨first, later, whole, starts⟩, earlier, last, whole', stops⟩ := spells.ends ordered
  cases spells with
  | atom => exact .atom
  | @list items delimiter opened closed inner within =>
    obtain ⟨rfl, rfl⟩ := List.cons.inj whole
    obtain ⟨rfl, same⟩ := List.append_inj' (show (⟨.opening delimiter, opened⟩ :: inner) ++
      [⟨.closing delimiter, closed⟩] = earlier ++ [last] from whole') rfl
    obtain rfl := List.singleton_inj.mp same
    have parts := List.pairwise_cons.mp ordered.apart
    have inner_ : List.Sublist inner (⟨.opening delimiter, opened⟩ ::
        (inner ++ [⟨.closing delimiter, closed⟩])) :=
      .cons _ (List.sublist_append_left inner _)
    have ordering := ordered.sublist inner_
    have begun := ordered.filled ⟨.opening delimiter, opened⟩ List.mem_cons_self
    have ended := ordered.filled ⟨.closing delimiter, closed⟩
      (List.mem_cons_of_mem _ (List.mem_append_right _ (List.mem_singleton.mpr rfl)))
    refine .list (within.apart ordering) fun item listed => ?_
    obtain ⟨⟨one, among, starting⟩, other, also, stopping⟩ := within.ends ordering listed
    have behind := parts.1 one (List.mem_append_left _ among)
    have before := (List.pairwise_append.mp parts.2).2.2 other also _ (List.mem_singleton.mpr rfl)
    simp only [Sexp.span] at starts stops behind before begun ended
    constructor <;> omega

mutual

/-- What moved tokens spell is what the tokens spell, moved. -/
theorem Spells.unshift (bytes : Nat) : ∀ {sexp : Sexp} {moved : List Token}, Spells sexp moved →
    ∀ {tokens : List Token}, tokens.map (Token.shift bytes) = moved →
      ∃ one : Sexp, Spells one tokens ∧ one.shift bytes = sexp
  | .atom value span, _, .atom, tokens, same => by
    obtain ⟨⟨kind, place⟩, rfl, moves⟩ := List.map_eq_singleton_iff.mp same
    simp only [Token.shift, Token.mk.injEq] at moves
    obtain ⟨rfl, rfl⟩ := moves
    refine ⟨.atom value place, .atom, ?_⟩
    rw [shift]
  | .list _ _, _, .list inside, tokens, same => by
    obtain ⟨⟨first, opened⟩, rest, rfl, starts, remain⟩ := List.map_eq_cons_iff.mp same
    obtain ⟨inner, back, rfl, within, ends⟩ := List.map_eq_append_iff.mp remain
    obtain ⟨⟨last, ended⟩, rfl, stops⟩ := List.map_eq_singleton_iff.mp ends
    simp only [Token.shift, Token.mk.injEq] at starts stops
    obtain ⟨rfl, rfl⟩ := starts
    obtain ⟨rfl, rfl⟩ := stops
    obtain ⟨contents, spells, rfl⟩ := SpellAll.unshift bytes inside within
    refine ⟨.list contents (opened.merge ended), .list spells, ?_⟩
    rw [shift, Span.shift_merge]

theorem SpellAll.unshift (bytes : Nat) : ∀ {sexps : List Sexp} {moved : List Token},
    SpellAll sexps moved → ∀ {tokens : List Token}, tokens.map (Token.shift bytes) = moved →
      ∃ ones : List Sexp, SpellAll ones tokens ∧ shiftAll bytes ones = sexps
  | [], _, .nil, tokens, same => by
    obtain rfl := List.map_eq_nil_iff.mp same
    exact ⟨[], .nil, by rw [shiftAll]⟩
  | sexp :: rest, _, .cons first later, tokens, same => by
    obtain ⟨front, back, rfl, here, behind⟩ := List.map_eq_append_iff.mp same
    obtain ⟨one, spells, rfl⟩ := Spells.unshift bytes first here
    obtain ⟨others, spellings, rfl⟩ := SpellAll.unshift bytes later behind
    exact ⟨one :: others, .cons spells spellings, by rw [shiftAll]⟩

end

/-- Tokens of a text that spell an expression are read as it from their part of the text. -/
theorem slice_of_laid {source : String} {front among back : List Token} {sexp : Sexp}
    (laid : Laid 0 source.toList (front ++ among ++ back)) (spells : Spells sexp among) :
    Slice source sexp := by
  have middle : List.Sublist among (front ++ among ++ back) :=
    (List.sublist_append_right front among).trans (List.sublist_append_left _ back)
  have ends := spells.ends (laid.ordered.1.sublist middle)
  obtain ⟨⟨first, later, rfl, starts⟩, earlier, last, whole, stops⟩ := ends
  rw [List.append_assoc, List.cons_append] at laid
  obtain ⟨before, rest, parts, start, within⟩ := laid.drop
  rw [Nat.zero_add] at start
  rw [← List.cons_append, whole, List.append_assoc, List.singleton_append, start,
    ← Nat.zero_add (byteLength before)] at within
  obtain ⟨text, after, tokens, rfl, stop, moved, alone⟩ := within.cut
  rw [← whole] at moved
  obtain ⟨one, spelled, shifted⟩ := spells.unshift (byteLength before) moved
  refine ⟨before, text, after, ?_, ?_, ?_, one, ?_, shifted⟩
  · rw [parts, List.append_assoc]
  · rw [← starts, start]
  · rw [← stops, stop, Nat.zero_add]
  · have scanned := alone.scanFrom_eq (String.ofList text).utf8ByteSize
    have read := (SpellAll.single spelled).ofTokens_eq (String.ofList text).utf8ByteSize
    rw [readAll, scan, String.toList_ofList, scanned]
    exact read

/-- The tokens of a source that is read spell its expressions. -/
theorem exists_laid {source : String} {sexps : List Sexp} (read : readAll source = .ok sexps) :
    ∃ tokens, Laid 0 source.toList tokens ∧ SpellAll sexps tokens := by
  rw [readAll] at read
  cases scanned : scan source with
  | error fault =>
    rw [scanned] at read
    cases read
  | ok tokens =>
    rw [scanned] at read
    exact ⟨tokens, laid_of_scanFrom _ scanned, ofTokens_eq_ok_iff.mp read⟩

/-- Spans are faithful: the expressions of a source stand one after another; and every expression
in one of them spans a text of the source that is read as it by itself, and holds its items one
after another between its delimiters. -/
theorem spans_are_faithful {source : String} {sexps : List Sexp}
    (read : readAll source = .ok sexps) :
    Apart sexps ∧ ∀ sexp ∈ sexps, ∀ part, Inside part sexp → Slice source part ∧ Nested part := by
  obtain ⟨tokens, laid, spells⟩ := exists_laid read
  have ordered := laid.ordered.1
  refine ⟨spells.apart ordered, fun sexp listed part inside => ?_⟩
  obtain ⟨front, among, back, rfl, one⟩ := spells.part listed
  obtain ⟨before, own, after, rfl, spelled⟩ := one.part inside
  have split : front ++ (before ++ own ++ after) ++ back =
      (front ++ before) ++ own ++ (after ++ back) := by
    simp only [List.append_assoc]
  rw [split] at laid ordered
  have middle : List.Sublist own ((front ++ before) ++ own ++ (after ++ back)) :=
    (List.sublist_append_right _ own).trans (List.sublist_append_left _ _)
  exact ⟨slice_of_laid laid spelled, spelled.nested (ordered.sublist middle)⟩

/-- Tokens without blanks between them, a delimiter in a string and one in a comment. -/
theorem spans_are_faithful_without_blanks :
    ∃ sexps, readAll "a(é#t[\"(\"1]);)" = .ok sexps ∧ sexps.length = 2 ∧ Apart sexps ∧
      ∀ sexp ∈ sexps, ∀ part, Inside part sexp →
        Slice "a(é#t[\"(\"1]);)" part ∧ Nested part := by
  have tested : (readAll "a(é#t[\"(\"1]);)").toOption.map List.length = some 2 := by
    decide +kernel
  cases read : readAll "a(é#t[\"(\"1]);)" with
  | error _ =>
    rw [read] at tested
    cases tested
  | ok sexps =>
    rw [read] at tested
    exact ⟨sexps, rfl, Option.some.inj tested, spans_are_faithful read⟩

end Reduct.Sexp
