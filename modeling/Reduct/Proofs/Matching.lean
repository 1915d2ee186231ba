import Reduct.Proofs.Occurrences

/-!
# Matches of patterns

A match gives a term to every bound symbol. Parts of a pattern that share a symbol have to give it
the same term, and a repetition gives each of its symbols the sequence of the terms of its
rounds. Checks relate the terms of two symbols at the node they stand at.

A pattern without checks is matched as it is written. A pattern that binds every symbol once and
has no checks is matched by every term that it describes.
-/

namespace Reduct

/-- The terms that a match gives to symbols. -/
abbrev Assignment := Symbol → Option Term

namespace Assignment

/-- No symbol has a term. -/
def empty : Assignment := fun _ => none

/-- One symbol has a term. -/
def single (symbol : Symbol) (term : Term) : Assignment :=
  fun other => if other = symbol then some term else none

/-- The terms of two assignments, those of the first coming first. -/
def union (first second : Assignment) : Assignment := fun symbol => (first symbol).or (second symbol)

/-- Symbols that both assignments know have the same term in both. -/
def Agrees (first second : Assignment) : Prop :=
  ∀ symbol left right, first symbol = some left → second symbol = some right → left = right

/-- Both symbols of a check have the same term. -/
def Satisfies (assignment : Assignment) (test : Check) : Prop :=
  ∃ term, assignment test.left = some term ∧ assignment test.right = some term

/-- Every listed symbol has the sequence of its terms in the rounds. -/
def collect (symbols : List Symbol) (rounds : List Assignment) : Assignment := fun symbol =>
  if symbol ∈ symbols then some (.sequence (rounds.filterMap fun round => round symbol)) else none

theorem union_eq_left {first second : Assignment} {symbol : Symbol} {term : Term}
    (found : first symbol = some term) : first.union second symbol = some term := by
  rw [union, found]
  rfl

theorem union_eq_right {first second : Assignment} {symbol : Symbol}
    (absent : first symbol = none) : first.union second symbol = second symbol := by
  rw [union, absent]
  rfl

theorem union_assoc (first second third : Assignment) :
    (first.union second).union third = first.union (second.union third) := by
  funext symbol
  exact Option.or_assoc

theorem empty_union (assignment : Assignment) : empty.union assignment = assignment := rfl

theorem union_empty (assignment : Assignment) : assignment.union empty = assignment := by
  funext symbol
  exact Option.or_none

theorem isSome_union {first second : Assignment} {symbol : Symbol} :
    (first.union second symbol).isSome = true ↔
      (first symbol).isSome = true ∨ (second symbol).isSome = true := by
  rw [union, Option.isSome_or, Bool.or_eq_true]

theorem isSome_single {symbol other : Symbol} {term : Term} :
    (single symbol term other).isSome = true ↔ other = symbol := by
  unfold single
  split <;> simp_all

theorem isSome_collect {symbols : List Symbol} {rounds : List Assignment} {symbol : Symbol} :
    (collect symbols rounds symbol).isSome = true ↔ symbol ∈ symbols := by
  unfold collect
  split <;> simp_all

theorem collect_of_mem {symbols : List Symbol} {symbol : Symbol} (listed : symbol ∈ symbols)
    (rounds : List Assignment) : collect symbols rounds symbol =
      some (.sequence (rounds.filterMap fun round => round symbol)) := if_pos listed

theorem collect_of_not_mem {symbols : List Symbol} {symbol : Symbol} (outside : symbol ∉ symbols)
    (rounds : List Assignment) : collect symbols rounds symbol = none := if_neg outside

/-- An assignment agrees with a union exactly when it agrees with both, if these agree. -/
theorem agrees_union_right {first second third : Assignment} (compatible : second.Agrees third) :
    first.Agrees (second.union third) ↔ first.Agrees second ∧ first.Agrees third := by
  constructor
  · intro agree
    refine ⟨?_, ?_⟩
    · intro symbol left right here there
      exact agree symbol left right here (union_eq_left there)
    · intro symbol left right here there
      cases known : second symbol with
      | none => exact agree symbol left right here (by rw [union_eq_right known, there])
      | some other =>
        have same := compatible symbol other right known there
        rw [← same]
        exact agree symbol left other here (union_eq_left known)
  · rintro ⟨one, two⟩ symbol left right here there
    cases known : second symbol with
    | none =>
      rw [union_eq_right known] at there
      exact two symbol left right here there
    | some other =>
      rw [union_eq_left known] at there
      cases there
      exact one symbol left right here known

/-- A union agrees with an assignment exactly when both parts do, if these agree. -/
theorem agrees_union_left {first second third : Assignment} (compatible : first.Agrees second) :
    (first.union second).Agrees third ↔ first.Agrees third ∧ second.Agrees third := by
  constructor
  · intro agree
    refine ⟨?_, ?_⟩
    · intro symbol left right here there
      exact agree symbol left right (union_eq_left here) there
    · intro symbol left right here there
      cases known : first symbol with
      | none => exact agree symbol left right (by rw [union_eq_right known, here]) there
      | some other =>
        have same := compatible symbol other left known here
        rw [← same]
        exact agree symbol other right (union_eq_left known) there
  · rintro ⟨one, two⟩ symbol left right here there
    cases known : first symbol with
    | none =>
      rw [union_eq_right known] at here
      exact two symbol left right here there
    | some other =>
      rw [union_eq_left known] at here
      cases here
      exact one symbol left right known there

/-- Assignments without a common symbol agree. -/
theorem agrees_of_disjoint {first second : Assignment}
    (disjoint : ∀ symbol, (first symbol).isSome = true → (second symbol).isSome = false) :
    first.Agrees second := by
  intro symbol left right here there
  have absent := disjoint symbol (by rw [here]; rfl)
  rw [there] at absent
  cases absent

end Assignment

mutual

/-- A pattern that takes one term matches it, and gives its symbols their terms. -/
inductive Matches (reading : Reading) : Pattern → Term → Assignment → Prop
  | literal {value : Atom} : Matches reading (.literal value) (.atom value) .empty
  | nonTerminal {stem symbol : Symbol} {term : Term} (derived : Derives reading stem term) :
      Matches reading (.nonTerminal stem symbol) term (.single symbol term)
  | builtIn {kind : BuiltIn} {symbol : Symbol} {term : Term}
      (passed : kind.holdsOf reading.mentioned term = true) :
      Matches reading (.builtIn kind symbol) term
        (if kind.isBindable then .single symbol term else .empty)
  | sequence {items : List Pattern} {terms : List Term} {assignment : Assignment}
      (all : MatchesAll reading items terms assignment)
      (tested : ∀ test, .check test ∈ items → assignment.Satisfies test) :
      Matches reading (.sequence items) (.sequence terms) assignment
  | inHole {context contents : Pattern} {checks : List Check} {outer inner term : Term}
      {first second : Assignment} (around : Matches reading context outer first)
      (within : Matches reading contents inner second)
      (decomposed : term.Decomposes outer inner) (agree : first.Agrees second)
      (tested : ∀ test ∈ checks, (first.union second).Satisfies test) :
      Matches reading (.inHole context contents checks) term (first.union second)

/-- Items match consecutive terms: one for an item of fixed width, none for a check, and one for
each round of a repetition. -/
inductive MatchesAll (reading : Reading) : List Pattern → List Term → Assignment → Prop
  | nil : MatchesAll reading [] [] .empty
  | check {test : Check} {rest : List Pattern} {terms : List Term} {assignment : Assignment}
      (others : MatchesAll reading rest terms assignment) :
      MatchesAll reading (.check test :: rest) terms assignment
  | item {head : Pattern} {rest : List Pattern} {term : Term} {terms : List Term}
      {first second : Assignment} (fixed : head.isFixedWidth = true)
      (here : Matches reading head term first) (others : MatchesAll reading rest terms second)
      (agree : first.Agrees second) :
      MatchesAll reading (head :: rest) (term :: terms) (first.union second)
  | repeated {inner : Pattern} {mode : RepeatMode} {rest : List Pattern} {terms : List Term}
      {second : Assignment} (rounds : List (Term × Assignment))
      (each : ∀ round ∈ rounds, Matches reading inner round.1 round.2)
      (others : MatchesAll reading rest terms second)
      (agree : (Assignment.collect inner.boundSymbols (rounds.map (·.2))).Agrees second) :
      MatchesAll reading (.repeated inner mode :: rest) (rounds.map (·.1) ++ terms)
        ((Assignment.collect inner.boundSymbols (rounds.map (·.2))).union second)

end

section Inversion

variable {reading : Reading}

theorem matches_sequence {items : List Pattern} {term : Term} {assignment : Assignment} :
    Matches reading (.sequence items) term assignment ↔
      ∃ terms, term = .sequence terms ∧ MatchesAll reading items terms assignment ∧
        ∀ test, .check test ∈ items → assignment.Satisfies test := by
  constructor
  · intro found
    cases found with
    | sequence all tested => exact ⟨_, rfl, all, tested⟩
  · rintro ⟨terms, rfl, all, tested⟩
    exact .sequence all tested

theorem matches_inHole {context contents : Pattern} {checks : List Check} {term : Term}
    {assignment : Assignment} :
    Matches reading (.inHole context contents checks) term assignment ↔
      ∃ outer inner first second, Matches reading context outer first ∧
        Matches reading contents inner second ∧ term.Decomposes outer inner ∧
        first.Agrees second ∧ (∀ test ∈ checks, (first.union second).Satisfies test) ∧
        assignment = first.union second := by
  constructor
  · intro found
    cases found with
    | inHole around within decomposed agree tested =>
      exact ⟨_, _, _, _, around, within, decomposed, agree, tested, rfl⟩
  · rintro ⟨outer, inner, first, second, around, within, decomposed, agree, tested, rfl⟩
    exact .inHole around within decomposed agree tested

theorem matchesAll_nil {terms : List Term} {assignment : Assignment} :
    MatchesAll reading [] terms assignment ↔ terms = [] ∧ assignment = .empty := by
  constructor
  · rintro ⟨⟩
    exact ⟨rfl, rfl⟩
  · rintro ⟨rfl, rfl⟩
    exact .nil

theorem matchesAll_check {test : Check} {rest : List Pattern} {terms : List Term}
    {assignment : Assignment} :
    MatchesAll reading (.check test :: rest) terms assignment ↔
      MatchesAll reading rest terms assignment := by
  constructor
  · intro all
    cases all with
    | check others => exact others
    | item fixed _ _ _ => cases fixed
  · exact .check

theorem matchesAll_item {head : Pattern} {rest : List Pattern} {terms : List Term}
    {assignment : Assignment} (fixed : head.isFixedWidth = true) :
    MatchesAll reading (head :: rest) terms assignment ↔
      ∃ term others first second, terms = term :: others ∧ Matches reading head term first ∧
        MatchesAll reading rest others second ∧ first.Agrees second ∧
        assignment = first.union second := by
  constructor
  · intro all
    cases all with
    | check _ => cases fixed
    | item _ here others agree => exact ⟨_, _, _, _, rfl, here, others, agree, rfl⟩
    | repeated _ _ _ _ => cases fixed
  · rintro ⟨term, others, first, second, rfl, here, all, agree, rfl⟩
    exact .item fixed here all agree

theorem matchesAll_repeated {inner : Pattern} {mode : RepeatMode} {rest : List Pattern}
    {terms : List Term} {assignment : Assignment} :
    MatchesAll reading (.repeated inner mode :: rest) terms assignment ↔
      ∃ (rounds : List (Term × Assignment)) (others : List Term) (second : Assignment),
        terms = rounds.map (·.1) ++ others ∧
        (∀ round ∈ rounds, Matches reading inner round.1 round.2) ∧
        MatchesAll reading rest others second ∧
        (Assignment.collect inner.boundSymbols (rounds.map (·.2))).Agrees second ∧
        assignment = (Assignment.collect inner.boundSymbols (rounds.map (·.2))).union second := by
  constructor
  · intro all
    cases all with
    | item fixed _ _ _ => cases fixed
    | repeated rounds each others agree => exact ⟨rounds, _, _, rfl, each, others, agree, rfl⟩
  · rintro ⟨rounds, others, second, rfl, each, all, agree, rfl⟩
    exact .repeated rounds each all agree

end Inversion

section Shape

variable {reading : Reading}

mutual

/-- A match gives terms to the symbols that occur, and to no others. -/
theorem Matches.isSome_iff {pattern : Pattern} {term : Term} {assignment : Assignment} :
    Matches reading pattern term assignment → ∀ symbol,
      ((assignment symbol).isSome = true ↔ symbol ∈ pattern.occurrences)
  | .literal, symbol => by simp [Assignment.empty, Pattern.occurrences, Pattern.bindingSymbol?]
  | .nonTerminal _, symbol => by
    rw [Assignment.isSome_single]
    simp [Pattern.occurrences, Pattern.bindingSymbol?]
  | @Matches.builtIn _ kind name _ _, symbol => by
    cases bindable : kind.isBindable with
    | true =>
      rw [if_pos rfl, Assignment.isSome_single]
      simp [Pattern.occurrences, Pattern.bindingSymbol?, bindable]
    | false =>
      rw [if_neg nofun]
      simp [Assignment.empty, Pattern.occurrences, Pattern.bindingSymbol?, bindable]
  | .sequence all _, symbol => MatchesAll.isSome_iff all symbol
  | .inHole around within _ _ _, symbol => by
    rw [Assignment.isSome_union, Matches.isSome_iff around, Matches.isSome_iff within,
      Pattern.occurrences, List.mem_append]

theorem MatchesAll.isSome_iff {items : List Pattern} {terms : List Term}
    {assignment : Assignment} :
    MatchesAll reading items terms assignment → ∀ symbol,
      ((assignment symbol).isSome = true ↔ symbol ∈ Pattern.occurrencesAll items)
  | .nil, symbol => by simp [Assignment.empty, Pattern.occurrencesAll]
  | .check others, symbol => MatchesAll.isSome_iff others symbol
  | .item _ here others _, symbol => by
    rw [Assignment.isSome_union, Matches.isSome_iff here, MatchesAll.isSome_iff others,
      Pattern.occurrencesAll, List.mem_append]
  | .repeated _ _ others _, symbol => by
    rw [Assignment.isSome_union, Assignment.isSome_collect, MatchesAll.isSome_iff others,
      Pattern.occurrencesAll, List.mem_append, Pattern.mem_boundSymbols, Pattern.occurrences]

end

mutual

/-- A pattern describes every term that it matches. -/
theorem Matches.fits {pattern : Pattern} {term : Term} {assignment : Assignment} :
    Matches reading pattern term assignment → Fits reading pattern term
  | .literal => .literal
  | .nonTerminal derived => .nonTerminal derived
  | .builtIn passed => .builtIn passed
  | .sequence all _ => .sequence (MatchesAll.fits all)
  | .inHole around within decomposed _ _ =>
    .inHole (Matches.fits around) (Matches.fits within) decomposed

theorem MatchesAll.fits {items : List Pattern} {terms : List Term} {assignment : Assignment} :
    MatchesAll reading items terms assignment → FitsAll reading items terms
  | .nil => .nil
  | .check others => .check (MatchesAll.fits others)
  | .item fixed here others _ => .item fixed (Matches.fits here) (MatchesAll.fits others)
  | .repeated rounds each others _ => by
    refine .repeated ?_ (MatchesAll.fits others)
    intro term listed
    obtain ⟨round, there, same⟩ := List.mem_map.mp listed
    rw [← same]
    exact Matches.fits (each round there)

end

/-- Matches of parts that share no symbol agree. -/
theorem agrees_of_occurrences {first second : Assignment} {left right : List Symbol}
    (one : ∀ symbol, (first symbol).isSome = true ↔ symbol ∈ left)
    (two : ∀ symbol, (second symbol).isSome = true ↔ symbol ∈ right)
    (distinct : (left ++ right).Nodup) : first.Agrees second := by
  refine Assignment.agrees_of_disjoint ?_
  intro symbol here
  cases there : (second symbol).isSome with
  | false => rfl
  | true =>
    have apart := (List.nodup_append.mp distinct).2.2 symbol ((one symbol).mp here) symbol
      ((two symbol).mp there)
    exact absurd rfl apart

/-- Items match the terms of two parts of them one after the other. -/
theorem matchesAll_append {first second : List Pattern} {terms : List Term}
    {assignment : Assignment} :
    MatchesAll reading (first ++ second) terms assignment ↔
      ∃ left right one two, terms = left ++ right ∧ MatchesAll reading first left one ∧
        MatchesAll reading second right two ∧ one.Agrees two ∧ assignment = one.union two := by
  induction first generalizing terms assignment with
  | nil =>
    constructor
    · intro all
      exact ⟨[], terms, .empty, assignment, rfl, .nil, all, nofun, rfl⟩
    · rintro ⟨left, right, one, two, rfl, none, all, _, rfl⟩
      obtain ⟨rfl, rfl⟩ := matchesAll_nil.mp none
      exact all
  | cons head rest ih =>
    rw [List.cons_append]
    by_cases fixed : head.isFixedWidth = true
    · constructor
      · intro all
        obtain ⟨term, others, one, two, rfl, here, later, agree, rfl⟩ :=
          (matchesAll_item fixed).mp all
        obtain ⟨left, right, three, four, rfl, before, after, compatible, rfl⟩ := ih.mp later
        obtain ⟨near, far⟩ := (Assignment.agrees_union_right compatible).mp agree
        refine ⟨term :: left, right, one.union three, four, rfl,
          .item fixed here before near, after, ?_, (Assignment.union_assoc _ _ _).symm⟩
        exact (Assignment.agrees_union_left near).mpr ⟨far, compatible⟩
      · rintro ⟨left, right, one, two, rfl, before, after, agree, rfl⟩
        obtain ⟨term, others, three, four, rfl, here, later, compatible, rfl⟩ :=
          (matchesAll_item fixed).mp before
        obtain ⟨near, far⟩ := (Assignment.agrees_union_left compatible).mp agree
        refine (matchesAll_item fixed).mpr ⟨term, others ++ right, three, four.union two, rfl, here,
          ih.mpr ⟨others, right, four, two, rfl, later, after, far, rfl⟩, ?_,
          Assignment.union_assoc _ _ _⟩
        exact (Assignment.agrees_union_right far).mpr ⟨compatible, near⟩
    · cases head with
      | check test =>
        constructor
        · intro all
          obtain ⟨left, right, one, two, same, before, after, agree, union⟩ :=
            ih.mp (matchesAll_check.mp all)
          exact ⟨left, right, one, two, same, .check before, after, agree, union⟩
        · rintro ⟨left, right, one, two, same, before, after, agree, union⟩
          exact .check (ih.mpr ⟨left, right, one, two, same, matchesAll_check.mp before, after,
            agree, union⟩)
      | repeated inner mode =>
        constructor
        · intro all
          obtain ⟨rounds, others, two, rfl, each, later, agree, rfl⟩ := matchesAll_repeated.mp all
          obtain ⟨left, right, three, four, rfl, before, after, compatible, rfl⟩ := ih.mp later
          obtain ⟨near, far⟩ := (Assignment.agrees_union_right compatible).mp agree
          refine ⟨rounds.map (·.1) ++ left, right, _, four, (List.append_assoc _ _ _).symm,
            .repeated rounds each before near, after, ?_, (Assignment.union_assoc _ _ _).symm⟩
          exact (Assignment.agrees_union_left near).mpr ⟨far, compatible⟩
        · rintro ⟨left, right, one, two, rfl, before, after, agree, rfl⟩
          obtain ⟨rounds, others, four, rfl, each, later, compatible, rfl⟩ :=
            matchesAll_repeated.mp before
          obtain ⟨near, far⟩ := (Assignment.agrees_union_left compatible).mp agree
          refine matchesAll_repeated.mpr ⟨rounds, others ++ right, four.union two,
            List.append_assoc _ _ _, each,
            ih.mpr ⟨others, right, four, two, rfl, later, after, far, rfl⟩, ?_,
            Assignment.union_assoc _ _ _⟩
          exact (Assignment.agrees_union_right far).mpr ⟨compatible, near⟩
      | _ => exact absurd rfl fixed

end Shape

end Reduct
