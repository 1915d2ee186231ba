import Reduct.Bindings
import Reduct.Compile.Matcher
import Reduct.Proofs.Derivation

/-!
# Search by frontiers

What a compiled matcher computes, without its code. A pattern that takes one term turns bindings
into the list of their extensions. The items of a sequence move a frontier of bindings with
positions, and a repetition explores level by level, one term a round. Bindings that are used out
of turn leave no result at all, which is other than an empty list.

The order and the multiplicity of the results are those of the code.
-/

namespace Reduct

/-- All results of a search from every entry of a list, in order; none if one search has none. -/
def gather {α β : Type} (search : α → Option (List β)) : List α → Option (List β)
  | [] => some []
  | entry :: rest =>
    (search entry).bind fun found => (gather search rest).map fun others => found ++ others

section Gather

variable {α β : Type} {search : α → Option (List β)}

theorem gather_nil : gather search [] = some [] := rfl

theorem gather_cons (entry : α) (rest : List α) :
    gather search (entry :: rest) = (search entry).bind fun found =>
      (gather search rest).map fun others => found ++ others := rfl

theorem gather_cons_eq_some {entry : α} {rest : List α} {found : List β} :
    gather search (entry :: rest) = some found ↔
      ∃ here others, search entry = some here ∧ gather search rest = some others ∧
        found = here ++ others := by
  rw [gather_cons, Option.bind_eq_some_iff]
  constructor
  · rintro ⟨here, first, more⟩
    obtain ⟨others, second, rfl⟩ := Option.map_eq_some_iff.mp more
    exact ⟨here, others, first, second, rfl⟩
  · rintro ⟨here, others, first, second, rfl⟩
    exact ⟨here, first, Option.map_eq_some_iff.mpr ⟨others, second, rfl⟩⟩

theorem gather_append_eq_some {first second : List α} {found : List β} :
    gather search (first ++ second) = some found ↔
      ∃ left right, gather search first = some left ∧ gather search second = some right ∧
        found = left ++ right := by
  induction first generalizing found with
  | nil =>
    constructor
    · intro all
      exact ⟨[], found, rfl, all, rfl⟩
    · rintro ⟨left, right, none, all, rfl⟩
      cases none
      exact all
  | cons entry rest ih =>
    rw [List.cons_append, gather_cons_eq_some]
    constructor
    · rintro ⟨here, others, one, more, rfl⟩
      obtain ⟨left, right, two, three, rfl⟩ := ih.mp more
      exact ⟨here ++ left, right, gather_cons_eq_some.mpr ⟨here, left, one, two, rfl⟩, three,
        (List.append_assoc _ _ _).symm⟩
    · rintro ⟨left, right, front, back, rfl⟩
      obtain ⟨here, others, one, two, rfl⟩ := gather_cons_eq_some.mp front
      exact ⟨here, others ++ right, one, ih.mpr ⟨others, right, two, back, rfl⟩,
        List.append_assoc _ _ _⟩

/-- A search from every entry has results if each single search has. -/
theorem exists_gather {entries : List α}
    (each : ∀ entry ∈ entries, ∃ found, search entry = some found) :
    ∃ found, gather search entries = some found := by
  induction entries with
  | nil => exact ⟨[], rfl⟩
  | cons entry rest ih =>
    obtain ⟨here, one⟩ := each entry List.mem_cons_self
    obtain ⟨others, two⟩ := ih fun other listed => each other (List.mem_cons_of_mem _ listed)
    exact ⟨here ++ others, gather_cons_eq_some.mpr ⟨here, others, one, two, rfl⟩⟩

/-- A result of a search from every entry is one of a single search. -/
theorem mem_gather {entries : List α} {found : List β} (all : gather search entries = some found)
    {result : β} :
    result ∈ found ↔ ∃ entry ∈ entries, ∃ here, search entry = some here ∧ result ∈ here := by
  induction entries generalizing found with
  | nil =>
    cases all
    simp
  | cons entry rest ih =>
    obtain ⟨here, others, one, two, rfl⟩ := gather_cons_eq_some.mp all
    rw [List.mem_append, ih two]
    constructor
    · rintro (first | ⟨other, listed, there, three, inside⟩)
      · exact ⟨entry, List.mem_cons_self, here, one, first⟩
      · exact ⟨other, List.mem_cons_of_mem _ listed, there, three, inside⟩
    · rintro ⟨other, listed, there, three, inside⟩
      rcases List.mem_cons.mp listed with rfl | later
      · rw [one] at three
        cases three
        exact .inl inside
      · exact .inr ⟨other, later, there, three, inside⟩

/-- Searches one after another are one search. -/
theorem gather_bind {γ : Type} (next : β → Option (List γ)) (entries : List α) :
    (gather search entries).bind (gather next) =
      gather (fun entry => (search entry).bind (gather next)) entries := by
  have append : ∀ first second : List β, gather next (first ++ second) =
      (gather next first).bind fun left => (gather next second).map fun right => left ++ right := by
    intro first second
    induction first with
    | nil => simp [gather_nil]
    | cons entry rest ih =>
      rw [List.cons_append, gather_cons, gather_cons, ih]
      cases next entry <;> cases gather next rest <;> cases gather next second <;> simp
  induction entries with
  | nil => rfl
  | cons entry rest ih =>
    rw [gather_cons, gather_cons, ← ih]
    cases search entry with
    | none => rfl
    | some here =>
      cases gather search rest with
      | none => simp
      | some others => exact append here others

/-- Every single search has results if the search from every entry has. -/
theorem exists_of_gather {entries : List α} {found : List β}
    (all : gather search entries = some found) {entry : α} (listed : entry ∈ entries) :
    ∃ here, search entry = some here := by
  induction entries generalizing found with
  | nil => cases listed
  | cons first rest ih =>
    obtain ⟨here, others, one, two, rfl⟩ := gather_cons_eq_some.mp all
    rcases List.mem_cons.mp listed with rfl | later
    · exact ⟨here, one⟩
    · exact ih two later

end Gather

/-- What decides the leaves of patterns. -/
structure Ground where
  /-- The terms that a non-terminal accepts. -/
  accepts : Symbol → Term → Bool
  /-- The literal variables. -/
  mentioned : SymbolSet

/-- The tests of leaves agree with a reading. -/
structure Ground.Reads (ground : Ground) (reading : Reading) : Prop where
  accepts : ∀ name term, ground.accepts name term = true ↔ Derives reading name term
  mentioned : ground.mentioned = reading.mentioned

/-- Whether a term passes the test of a leaf. -/
def Ground.admits (ground : Ground) : Pattern → Term → Bool
  | .literal value, term => decide (term = .atom value)
  | .nonTerminal stem _, term => ground.accepts stem term
  | .builtIn kind _, term => kind.holdsOf ground.mentioned term
  | _, _ => false

/-- Whether the pattern is a leaf: it tests one term as a whole. -/
def Pattern.isLeaf : Pattern → Bool
  | .literal _ => true
  | .nonTerminal .. => true
  | .builtIn .. => true
  | _ => false

/-- An item of a sequence is a check, a repetition, or takes exactly one term. -/
theorem Pattern.itemCases {motive : Pattern → Prop} (check : ∀ test, motive (.check test))
    (repeated : ∀ inner mode, motive (.repeated inner mode))
    (fixed : ∀ item, item.isFixedWidth = true → motive item) (item : Pattern) : motive item := by
  cases item with
  | check test => exact check test
  | repeated inner mode => exact repeated inner mode
  | _ => exact fixed _ rfl

theorem Pattern.isCheck_of_isFixedWidth {item : Pattern} (fixed : item.isFixedWidth = true) :
    item.isCheck = false := by
  cases item with
  | check test => cases fixed
  | _ => rfl

namespace Bindings

/-- Open an ellipsis level for every symbol of a list. -/
def openAll (symbols : List Symbol) (bindings : Bindings) : Option Bindings :=
  symbols.foldlM (fun opened symbol => (opened.increaseDepth symbol).toOption) bindings

/-- Close the innermost ellipsis level of every symbol of a list. -/
def closeAll (symbols : List Symbol) (bindings : Bindings) : Option Bindings :=
  symbols.foldlM (fun closed symbol => (closed.decreaseDepth symbol).toOption) bindings

/-- Bind the symbol of a leaf, if it has one. -/
def bindLeaf (leaf : Pattern) (term : Term) (bindings : Bindings) : Option Bindings :=
  match leaf.bindingSymbol? with
  | some symbol => (bindings.add symbol term).toOption
  | none => some bindings

/-- Add the bindings of a context and of its contents. -/
def mergeBoth (bindings around within : Bindings) : Option Bindings :=
  (bindings.merge around).toOption.bind fun merged => (merged.merge within).toOption

/-- Whether all checks hold. -/
def passes (checks : List Check) (bindings : Bindings) : Bool :=
  checks.all fun test => bindings.agree test.left test.right

end Bindings

/-- A count as far as code can hold it. -/
def capped (count : Nat) : Nat := min count mostCount

/-- Bindings with the position after the terms that they took. -/
abbrev Reached := Bindings × Nat

/-- The states of a repetition, given a round. All bindings of a level have taken the same number
of terms. Exhaustively all levels are kept, and greedily the last one that is not empty. -/
def exploreLevels (mode : RepeatMode) (round : Term → Bindings → Option (List Bindings)) :
    (position : Nat) → List Term → (level : List Bindings) → Option (List Reached)
  | position, [], level => some (level.map (·, position))
  | position, term :: rest, level =>
    (gather (round term) level).bind fun next =>
      if next.isEmpty then some (level.map (·, position))
      else
        (exploreLevels mode round (position + 1) rest next).map fun others =>
          match mode with
          | .exhaustive => level.map (·, position) ++ others
          | .greedy => others

/-- The states of a repetition from an entry of the frontier, with the levels of its symbols
opened before and closed after. -/
def repetition (symbols : List Symbol) (mode : RepeatMode)
    (round : Term → Bindings → Option (List Bindings)) (terms : List Term) (entry : Reached) :
    Option (List Reached) :=
  (entry.1.openAll symbols).bind fun start =>
    (exploreLevels mode round entry.2 (terms.drop entry.2) [start]).bind fun reached =>
      gather (fun state => (state.1.closeAll symbols).map fun closed => [(closed, state.2)]) reached

/-- One term taken from an entry of the frontier, if the items from here on have room. -/
def advanceOne (needed : Nat) (round : Term → Bindings → Option (List Bindings))
    (terms : List Term) (entry : Reached) : Option (List Reached) :=
  if entry.2 + capped needed ≤ terms.length then
    match terms[entry.2]? with
    | some term => (round term entry.1).map fun found => found.map (·, entry.2 + 1)
    | none => some []
  else some []

/-- The matches of a context and its contents, merged in order. -/
def combine (checks : List Check) (bindings : Bindings) (outer inner : List Bindings) :
    Option (List Bindings) :=
  gather (fun around =>
    gather (fun within =>
      (bindings.mergeBoth around within).map fun merged =>
        if merged.passes checks then [merged] else []) inner) outer

/-- Every way to take a term apart, the whole term as the contents first. -/
def decompose (checks : List Check) (around within : Term → Option (List Bindings)) (term : Term)
    (bindings : Bindings) : Option (List Bindings) :=
  gather (fun found =>
    (within found.2).bind fun inner =>
      if inner.isEmpty then some []
      else
        (term.replace? found.1 .hole).bind fun holed =>
          (around holed).bind fun outer => combine checks bindings outer inner)
    term.subterms

/-- Whether a sequence of some length may match, as far as its number of fixed items tells. -/
def longEnough (items : List Pattern) (length : Nat) : Bool :=
  if Matcher.isOpen items then decide (capped (Matcher.fixedCount items) ≤ capped length)
  else decide (capped length = capped (Matcher.fixedCount items))

theorem fixedCount_cons (item : Pattern) (rest : List Pattern) :
    Matcher.fixedCount (item :: rest) =
      Matcher.fixedCount rest + if item.isFixedWidth = true then 1 else 0 := by
  unfold Matcher.fixedCount
  rw [List.filter_cons]
  split <;> rfl

/-- The entries of a frontier that took all terms. -/
def finals (length : Nat) (frontier : List Reached) : List Bindings :=
  (frontier.filter fun entry => entry.2 = length).map (·.1)

theorem mem_finals {length : Nat} {frontier : List Reached} {bindings : Bindings} :
    bindings ∈ finals length frontier ↔ (bindings, length) ∈ frontier := by
  unfold finals
  rw [List.mem_map]
  constructor
  · rintro ⟨⟨other, position⟩, listed, rfl⟩
    obtain ⟨there, same⟩ := List.mem_filter.mp listed
    rw [decide_eq_true_eq] at same
    rw [← same]
    exact there
  · intro there
    exact ⟨_, List.mem_filter.mpr ⟨there, decide_eq_true rfl⟩, rfl⟩

theorem finals_append (length : Nat) (first second : List Reached) :
    finals length (first ++ second) = finals length first ++ finals length second := by
  unfold finals
  rw [List.filter_append, List.map_append]

mutual

/-- The extensions of bindings by the matches of a pattern that takes one term. -/
def visit (ground : Ground) : Pattern → Term → Bindings → Option (List Bindings)
  | .sequence items, .sequence terms, bindings =>
    if longEnough items terms.length then
      (advance ground terms items [(bindings, 0)]).map (finals terms.length)
    else some []
  | .sequence _, _, _ => some []
  | .inHole context contents checks, term, bindings =>
    decompose checks (fun holed => visit ground context holed .empty)
      (fun part => visit ground contents part .empty) term bindings
  | .repeated .., _, _ => none
  | .check _, _, _ => none
  | .unresolved _, _, _ => none
  | leaf, term, bindings =>
    if ground.admits leaf term then (bindings.bindLeaf leaf term).map ([·]) else some []

/-- The frontier after the items of a sequence. -/
def advance (ground : Ground) (terms : List Term) : List Pattern → List Reached → Option (List Reached)
  | [], frontier => some frontier
  | .check test :: rest, frontier =>
    advance ground terms rest
      (frontier.filter fun entry => entry.1.agree test.left test.right)
  | .repeated inner mode :: rest, frontier =>
    (gather (repetition inner.boundSymbols mode
      (fun term bindings => visit ground inner term bindings) terms) frontier).bind
        fun next => advance ground terms rest next
  | item :: rest, frontier =>
    (gather (advanceOne (Matcher.fixedCount (item :: rest))
      (fun term bindings => visit ground item term bindings) terms) frontier).bind
        fun next => advance ground terms rest next

end

section Positions

variable {round : Term → Bindings → Option (List Bindings)} {terms : List Term}

/-- A repetition explores no position behind the last term. -/
theorem exploreLevels_le (mode : RepeatMode) (terms : List Term) :
    ∀ (position : Nat) (level : List Bindings) (reached : List Reached),
      exploreLevels mode round position terms level = some reached →
      ∀ state ∈ reached, state.2 ≤ position + terms.length := by
  induction terms with
  | nil =>
    intro position level reached run state listed
    cases run
    obtain ⟨bindings, _, rfl⟩ := List.mem_map.mp listed
    exact Nat.le_refl _
  | cons term rest ih =>
    intro position level reached run state listed
    have here : ∀ found ∈ level.map (·, position), found.2 ≤ position + (term :: rest).length := by
      intro found there
      obtain ⟨bindings, _, rfl⟩ := List.mem_map.mp there
      exact Nat.le_add_right _ _
    obtain ⟨next, _, run⟩ := Option.bind_eq_some_iff.mp run
    split at run
    · cases run
      exact here state listed
    · obtain ⟨others, explored, rfl⟩ := Option.map_eq_some_iff.mp run
      have later : ∀ found ∈ others, found.2 ≤ position + (term :: rest).length := by
        intro found there
        have bound := ih _ _ _ explored found there
        rw [List.length_cons]
        omega
      cases mode with
      | exhaustive =>
        rcases List.mem_append.mp listed with first | second
        · exact here state first
        · exact later state second
      | greedy => exact later state listed

/-- A repetition leaves no position behind the last term. -/
theorem repetition_le {symbols : List Symbol} {mode : RepeatMode} {entry : Reached}
    (bound : entry.2 ≤ terms.length) {next : List Reached}
    (run : repetition symbols mode round terms entry = some next) :
    ∀ state ∈ next, state.2 ≤ terms.length := by
  intro state listed
  obtain ⟨start, _, explored⟩ := Option.bind_eq_some_iff.mp run
  obtain ⟨reached, explored, closed⟩ := Option.bind_eq_some_iff.mp explored
  obtain ⟨origin, there, result, made, last⟩ := (mem_gather closed).mp listed
  obtain ⟨finished, _, rfl⟩ := Option.map_eq_some_iff.mp made
  rw [List.mem_singleton.mp last]
  have within := exploreLevels_le mode _ _ _ _ explored origin there
  rw [List.length_drop] at within
  change origin.2 ≤ _
  omega

/-- One term that is taken stands before the next position. -/
theorem advanceOne_le {needed : Nat} {entry : Reached} {next : List Reached}
    (run : advanceOne needed round terms entry = some next) :
    ∀ state ∈ next, state.2 ≤ terms.length := by
  intro state listed
  unfold advanceOne at run
  split at run
  · split at run
    · rename_i term at_
      obtain ⟨results, _, rfl⟩ := Option.map_eq_some_iff.mp run
      obtain ⟨finished, _, rfl⟩ := List.mem_map.mp listed
      obtain ⟨within, _⟩ := List.getElem?_eq_some_iff.mp at_
      exact within
    · cases run
      cases listed
  · cases run
    cases listed

end Positions

section Equations

variable (ground : Ground) {terms : List Term}

/-- A leaf binds its symbol to a term that passes its test. -/
theorem visit_leaf {leaf : Pattern} (leafy : leaf.isLeaf = true) (term : Term)
    (bindings : Bindings) :
    visit ground leaf term bindings =
      if ground.admits leaf term then (bindings.bindLeaf leaf term).map ([·]) else some [] := by
  cases leaf with
  | literal _ | nonTerminal _ _ | builtIn _ _ => rfl
  | _ => cases leafy

theorem visit_sequence (items : List Pattern) (bindings : Bindings) :
    visit ground (.sequence items) (.sequence terms) bindings =
      if longEnough items terms.length then
        (advance ground terms items [(bindings, 0)]).map (finals terms.length)
      else some [] := rfl

theorem visit_sequence_other {items : List Pattern} {term : Term}
    (other : ∀ terms, term ≠ .sequence terms) (bindings : Bindings) :
    visit ground (.sequence items) term bindings = some [] := by
  cases term with
  | sequence terms => exact absurd rfl (other terms)
  | atom value => rfl
  | hole => rfl

theorem visit_inHole (context contents : Pattern) (checks : List Check) (term : Term)
    (bindings : Bindings) :
    visit ground (.inHole context contents checks) term bindings =
      decompose checks (fun holed => visit ground context holed .empty)
        (fun part => visit ground contents part .empty) term bindings := rfl

theorem advance_check (test : Check) (rest : List Pattern) (frontier : List Reached) :
    advance ground terms (.check test :: rest) frontier =
      advance ground terms rest
        (frontier.filter fun entry => entry.1.agree test.left test.right) := rfl

theorem advance_repeated (inner : Pattern) (mode : RepeatMode) (rest : List Pattern)
    (frontier : List Reached) :
    advance ground terms (.repeated inner mode :: rest) frontier =
      (gather (repetition inner.boundSymbols mode (visit ground inner) terms) frontier).bind
        (advance ground terms rest) := rfl

theorem advance_item {item : Pattern} (fixed : item.isFixedWidth = true) (rest : List Pattern)
    (frontier : List Reached) :
    advance ground terms (item :: rest) frontier =
      (gather (advanceOne (Matcher.fixedCount (item :: rest)) (visit ground item) terms)
        frontier).bind (advance ground terms rest) := by
  cases item with
  | check _ | repeated _ _ => cases fixed
  | _ => rfl

theorem advance_nil_frontier (items : List Pattern) :
    advance ground terms items [] = some [] := by
  induction items with
  | nil => rfl
  | cons item rest ih =>
    cases item using Pattern.itemCases with
    | check test =>
      rw [advance_check]
      exact ih
    | repeated inner mode =>
      rw [advance_repeated]
      exact ih
    | fixed item one =>
      rw [advance_item ground one]
      exact ih

/-- The entries of a frontier move on their own. -/
theorem advance_eq_gather (items : List Pattern) (frontier : List Reached) :
    advance ground terms items frontier =
      gather (fun entry => advance ground terms items [entry]) frontier := by
  induction items generalizing frontier with
  | nil =>
    induction frontier with
    | nil => rfl
    | cons entry rest ih =>
      rw [gather_cons, ← ih]
      rfl
  | cons item rest ih =>
    -- A step of every entry, followed by the moves of the entries it leads to.
    have moves : ∀ step : Reached → Option (List Reached),
        (gather step frontier).bind (advance ground terms rest) =
          gather (fun entry => (gather step [entry]).bind (advance ground terms rest)) frontier := by
      intro step
      have each : advance ground terms rest =
          gather fun entry => advance ground terms rest [entry] := funext ih
      rw [each, gather_bind]
      congr 1
      funext entry
      rw [gather_bind]
      simp [gather_cons, gather_nil]
    cases item using Pattern.itemCases with
    | check test =>
      simp only [advance_check]
      rw [ih]
      clear moves
      induction frontier with
      | nil => rfl
      | cons entry others again =>
        rw [gather_cons, ← again]
        cases kept : entry.1.agree test.left test.right with
        | true => simp [kept, gather_cons]
        | false => simp [kept, advance_nil_frontier]
    | repeated inner mode =>
      simp only [advance_repeated]
      exact moves _
    | fixed item one =>
      simp only [advance_item ground one]
      exact moves _

end Equations

namespace Pattern

mutual

/-- The pattern with every repetition exhaustive. -/
def exhaustive : Pattern → Pattern
  | .sequence items => .sequence (exhaustiveAll items)
  | .repeated inner _ => .repeated inner.exhaustive .exhaustive
  | .inHole context contents checks => .inHole context.exhaustive contents.exhaustive checks
  | leaf => leaf

/-- The patterns with every repetition exhaustive. -/
def exhaustiveAll : List Pattern → List Pattern
  | [] => []
  | item :: rest => item.exhaustive :: exhaustiveAll rest

end

theorem exhaustiveAll_check (test : Check) (rest : List Pattern) :
    exhaustiveAll (.check test :: rest) = .check test :: exhaustiveAll rest := rfl

theorem exhaustiveAll_repeated (inner : Pattern) (mode : RepeatMode) (rest : List Pattern) :
    exhaustiveAll (.repeated inner mode :: rest) =
      .repeated inner.exhaustive .exhaustive :: exhaustiveAll rest := rfl

theorem isFixedWidth_exhaustive (pattern : Pattern) :
    pattern.exhaustive.isFixedWidth = pattern.isFixedWidth := by
  cases pattern <;> rfl

theorem fixedCount_exhaustiveAll (items : List Pattern) :
    Matcher.fixedCount (exhaustiveAll items) = Matcher.fixedCount items := by
  induction items with
  | nil => rfl
  | cons item rest ih =>
    unfold Matcher.fixedCount at ih ⊢
    rw [exhaustiveAll, List.filter_cons, List.filter_cons, isFixedWidth_exhaustive]
    split
    · rw [List.length_cons, List.length_cons, ih]
    · exact ih

theorem isOpen_exhaustiveAll (items : List Pattern) :
    Matcher.isOpen (exhaustiveAll items) = Matcher.isOpen items := by
  induction items with
  | nil => rfl
  | cons item rest ih =>
    unfold Matcher.isOpen at ih ⊢
    rw [exhaustiveAll, List.any_cons, List.any_cons, ih]
    cases item <;> rfl

mutual

theorem occurrences_exhaustive : (pattern : Pattern) →
    pattern.exhaustive.occurrences = pattern.occurrences
  | .sequence items => occurrencesAll_exhaustiveAll items
  | .repeated inner _ => occurrences_exhaustive inner
  | .inHole context contents _ => by
    rw [exhaustive, occurrences, occurrences, occurrences_exhaustive context,
      occurrences_exhaustive contents]
  | .literal _ | .nonTerminal .. | .builtIn .. | .check _ | .unresolved _ => rfl

theorem occurrencesAll_exhaustiveAll : (items : List Pattern) →
    occurrencesAll (exhaustiveAll items) = occurrencesAll items
  | [] => rfl
  | item :: rest => by
    rw [exhaustiveAll, occurrencesAll, occurrencesAll, occurrences_exhaustive item,
      occurrencesAll_exhaustiveAll rest]

end

theorem boundSymbols_exhaustive (pattern : Pattern) :
    pattern.exhaustive.boundSymbols = pattern.boundSymbols := by
  rw [boundSymbols, boundSymbols, occurrences_exhaustive]

end Pattern

end Reduct
