import Mathlib.Data.List.Basic
import Reduct.Proofs.CheckPlans

/-!
# Matches of patterns with checks

The checks that are put into a pattern make its occurrences under fresh names agree as the one
symbol would that they stand for. So the pattern with checks is matched by the terms that match
the pattern as it is written, and each of its matches gives to the symbols what a match of the
written pattern gives them.
-/

namespace Reduct

/-- An assignment without the terms of some names. -/
def Assignment.without (assignment : Assignment) (names : List Symbol) : Assignment := fun symbol =>
  if symbol ∈ names then none else assignment symbol

namespace Pattern

/-- All occurrences of a symbol have the same term. -/
def Agreeing (plan : CheckPlan) (path : PatternPath) (places : List (Symbol × PatternPath))
    (named : Assignment) : Prop :=
  ∀ symbol first second, (symbol, first) ∈ places → (symbol, second) ∈ places →
    named (nameOf plan path (symbol, first)) = named (nameOf plan path (symbol, second))

/-- The terms of symbols, taken from their first occurrences. -/
def projected (plan : CheckPlan) (path : PatternPath) (places : List (Symbol × PatternPath))
    (named : Assignment) : Assignment := fun symbol =>
  (placesOf symbol places).head?.bind fun rest => named (nameOf plan path (symbol, rest))

section Projection

variable {plan : CheckPlan} {path : PatternPath} {places : List (Symbol × PatternPath)}
  {named : Assignment}

theorem projected_of_mem (agreeing : Agreeing plan path places named) {symbol : Symbol}
    {rest : PatternPath} (listed : (symbol, rest) ∈ places) :
    projected plan path places named symbol = named (nameOf plan path (symbol, rest)) := by
  unfold projected
  cases found : placesOf symbol places with
  | nil =>
    have there := mem_placesOf.mpr listed
    rw [found] at there
    cases there
  | cons first others =>
    exact agreeing symbol first rest (mem_placesOf.mp (found ▸ List.mem_cons_self)) listed

theorem projected_of_not_mem {symbol : Symbol} (outside : symbol ∉ places.map (·.1)) :
    projected plan path places named symbol = none := by
  unfold projected
  cases found : placesOf symbol places with
  | nil => rfl
  | cons first others =>
    have there : (symbol, first) ∈ places := mem_placesOf.mp (found ▸ List.mem_cons_self)
    exact absurd (List.mem_map.mpr ⟨_, there, rfl⟩) outside

/-- The terms of symbols are those of an assignment that agrees with all occurrences. -/
theorem eq_projected {whole : Assignment}
    (same : ∀ found ∈ places, named (nameOf plan path found) = whole found.1)
    (others : ∀ symbol, symbol ∉ places.map (·.1) → whole symbol = none) :
    whole = projected plan path places named := by
  funext symbol
  by_cases inside : symbol ∈ places.map (·.1)
  · obtain ⟨⟨_, rest⟩, listed, rfl⟩ := List.mem_map.mp inside
    have agreeing : Agreeing plan path places named := fun other first second left right =>
      (same _ left).trans (same _ right).symm
    exact (same _ listed).symm.trans (projected_of_mem agreeing listed).symm
  · rw [others symbol inside, projected_of_not_mem inside]

/-- One more step in front of the places belongs to the path. -/
theorem projected_step (step : PatternStep) :
    projected plan path (places.map fun found => (found.1, step :: found.2)) named =
      projected plan (path ++ [step]) places named := by
  funext symbol
  have split : placesOf symbol (places.map fun found => (found.1, step :: found.2)) =
      (placesOf symbol places).map (step :: ·) := by
    simp only [placesOf, List.filter_map, List.map_map]
    rfl
  unfold projected
  rw [split, List.head?_map, Option.bind_map]
  refine congrArg _ (funext fun rest => ?_)
  exact congrArg named (nameOf_step plan path step symbol rest).symm

/-- Two parts with different names that agree on the symbols they share. -/
theorem projected_append {others : List (Symbol × PatternPath)} {one two : Assignment}
    (agreeing : Agreeing plan path (places ++ others) (one.union two))
    (known : ∀ found ∈ places, (one (nameOf plan path found)).isSome = true)
    (apart : ∀ found ∈ others, one (nameOf plan path found) = none) :
    (projected plan path places one).Agrees (projected plan path others two) ∧
      projected plan path (places ++ others) (one.union two) =
        (projected plan path places one).union (projected plan path others two) := by
  have first : ∀ found ∈ places,
      one (nameOf plan path found) = one.union two (nameOf plan path found) := by
    intro found listed
    obtain ⟨term, same⟩ := Option.isSome_iff_exists.mp (known found listed)
    rw [Assignment.union_eq_left same, same]
  have second : ∀ found ∈ others,
      two (nameOf plan path found) = one.union two (nameOf plan path found) :=
    fun found listed => (Assignment.union_eq_right (apart found listed)).symm
  have left : ∀ found ∈ places, projected plan path places one found.1 =
      one.union two (nameOf plan path found) := by
    intro found listed
    rw [← first found listed]
    refine projected_of_mem (fun symbol one' two' here there => ?_) listed
    rw [first _ here, first _ there]
    exact agreeing symbol one' two' (List.mem_append_left _ here) (List.mem_append_left _ there)
  have right : ∀ found ∈ others, projected plan path others two found.1 =
      one.union two (nameOf plan path found) := by
    intro found listed
    rw [← second found listed]
    refine projected_of_mem (fun symbol one' two' here there => ?_) listed
    rw [second _ here, second _ there]
    exact agreeing symbol one' two' (List.mem_append_right _ here) (List.mem_append_right _ there)
  have compatible : ∀ symbol here there, (symbol, here) ∈ places → (symbol, there) ∈ others →
      projected plan path places one symbol = projected plan path others two symbol := by
    intro symbol here there inside outside
    rw [left _ inside, right _ outside]
    exact agreeing symbol here there (List.mem_append_left _ inside)
      (List.mem_append_right _ outside)
  have listed : ∀ {places : List (Symbol × PatternPath)} {named : Assignment} {symbol : Symbol}
      {term : Term}, projected plan path places named symbol = some term →
      ∃ rest, (symbol, rest) ∈ places := by
    intro places named symbol term bound
    by_cases inside : symbol ∈ places.map (·.1)
    · obtain ⟨⟨_, rest⟩, there, rfl⟩ := List.mem_map.mp inside
      exact ⟨rest, there⟩
    · rw [projected_of_not_mem inside] at bound
      cases bound
  constructor
  · intro symbol here there one' two'
    obtain ⟨inside, among⟩ := listed one'
    obtain ⟨outside, between⟩ := listed two'
    rw [compatible symbol inside outside among between] at one'
    exact Option.some.inj (one'.symm.trans two')
  · refine (eq_projected ?_ ?_).symm
    · intro found among
      rcases List.mem_append.mp among with inside | outside
      · obtain ⟨term, same⟩ := Option.isSome_iff_exists.mp (known found inside)
        have bound := left found inside
        rw [Assignment.union_eq_left same] at bound ⊢
        exact (Assignment.union_eq_left bound).symm
      · rw [← right found outside]
        cases bound : projected plan path places one found.1 with
        | none => exact (Assignment.union_eq_right bound).symm
        | some term =>
          obtain ⟨inside, there⟩ := listed bound
          rw [Assignment.union_eq_left bound, ← bound,
            compatible found.1 inside found.2 there outside]
    · intro symbol outside
      rw [List.map_append, List.mem_append, not_or] at outside
      rw [Assignment.union, projected_of_not_mem outside.1, projected_of_not_mem outside.2]
      rfl

end Projection

end Pattern

section Runs

variable {reading : Reading}

theorem Matches.isFixedWidth {pattern : Pattern} {term : Term} {assignment : Assignment}
    (matched : Matches reading pattern term assignment) : pattern.isFixedWidth = true := by
  cases matched <;> rfl

theorem matchesAll_single {pattern : Pattern} (fixed : pattern.isFixedWidth = true)
    {terms : List Term} {assignment : Assignment} :
    MatchesAll reading [pattern] terms assignment ↔
      ∃ term, terms = [term] ∧ Matches reading pattern term assignment := by
  rw [matchesAll_item fixed]
  constructor
  · rintro ⟨term, others, first, second, rfl, matched, rest, _, rfl⟩
    obtain ⟨rfl, rfl⟩ := matchesAll_nil.mp rest
    exact ⟨term, rfl, by rwa [Assignment.union_empty]⟩
  · rintro ⟨term, rfl, matched⟩
    exact ⟨term, [], assignment, .empty, rfl, matched, .nil, nofun,
      (Assignment.union_empty _).symm⟩

theorem matchesAll_rounds {inner : Pattern} {mode : RepeatMode} {terms : List Term}
    {assignment : Assignment} :
    MatchesAll reading [.repeated inner mode] terms assignment ↔
      ∃ rounds : List (Term × Assignment), terms = rounds.map (·.1) ∧
        (∀ round ∈ rounds, Matches reading inner round.1 round.2) ∧
        assignment = .collect inner.boundSymbols (rounds.map (·.2)) := by
  rw [matchesAll_repeated]
  constructor
  · rintro ⟨rounds, others, second, rfl, each, rest, _, rfl⟩
    obtain ⟨rfl, rfl⟩ := matchesAll_nil.mp rest
    exact ⟨rounds, List.append_nil _, each, Assignment.union_empty _⟩
  · rintro ⟨rounds, rfl, each, rfl⟩
    exact ⟨rounds, [], .empty, (List.append_nil _).symm, each, .nil, nofun,
      (Assignment.union_empty _).symm⟩

theorem matchesAll_checks (checks : List Pattern.PlacedCheck) {items : List Pattern} {terms : List Term}
    {assignment : Assignment} :
    MatchesAll reading ((checks.map fun placed => .check placed.test) ++ items) terms assignment ↔
      MatchesAll reading items terms assignment := by
  induction checks with
  | nil => rfl
  | cons placed rest ih => rw [List.map_cons, List.cons_append, matchesAll_check, ih]

/-- The items of a sequence with checks match one after another, whatever the checks. -/
theorem matchesAll_rebuildFrom {plan : Pattern.CheckPlan} {path : PatternPath} {index : Nat}
    {item : Pattern} {rest : List Pattern} {terms : List Term} {assignment : Assignment} :
    MatchesAll reading (Pattern.rebuildFrom plan path index (item :: rest)) terms assignment ↔
      ∃ left right one two, terms = left ++ right ∧
        MatchesAll reading [item.rebuild plan (path ++ [.item index])] left one ∧
        MatchesAll reading (Pattern.rebuildFrom plan path (index + 1) rest) right two ∧
        one.Agrees two ∧ assignment = one.union two := by
  rw [Pattern.rebuildFrom, ← List.singleton_append, List.append_assoc, matchesAll_append]
  simp only [matchesAll_checks]

end Runs

namespace Pattern

variable {reading : Reading} {root : Pattern} {plan : CheckPlan}

theorem isFixedWidth_rebuild (plan : CheckPlan) (path : PatternPath) (pattern : Pattern) :
    (pattern.rebuild plan path).isFixedWidth = pattern.isFixedWidth := by
  cases pattern with
  | sequence | repeated | inHole => rfl
  | literal | nonTerminal | builtIn | check | unresolved =>
    simp only [rebuild]
    split <;> rfl

/-- A part with checks gives its occurrences of a symbol the same term, and without its checks it
matches the same terms. -/
def Forgets (reading : Reading) (plan : CheckPlan) (path : PatternPath) (part : Pattern) : Prop :=
  ∀ terms named, MatchesAll reading [part.rebuild plan path] terms named →
    Agreeing plan path part.places named ∧
      MatchesAll reading [part] terms (projected plan path part.places named)

section Forgetting

variable {path : PatternPath}

/-- It is enough to find some assignment to the symbols that agrees with all occurrences. -/
theorem forgets_of_exists {part : Pattern}
    (exist : ∀ terms named, MatchesAll reading [part.rebuild plan path] terms named →
      ∃ plain, (∀ found ∈ part.places, named (nameOf plan path found) = plain found.1) ∧
        MatchesAll reading [part] terms plain) : Forgets reading plan path part := by
  intro terms named matched
  obtain ⟨plain, same, written⟩ := exist terms named matched
  have others : ∀ symbol, symbol ∉ part.places.map (·.1) → plain symbol = none := by
    intro symbol outside
    have known := written.isSome_iff symbol
    rw [occurrencesAll, occurrencesAll, List.append_nil, ← map_fst_places] at known
    exact Option.not_isSome_iff_eq_none.mp fun bound => outside (known.mp bound)
  exact ⟨fun symbol first second left right => (same _ left).trans (same _ right).symm,
    eq_projected same others ▸ written⟩

/-- A pattern that takes one term forgets its names if it does so at each term. -/
theorem forgets_of_fixed {part : Pattern} (fixed : part.isFixedWidth = true)
    (exist : ∀ term named, Matches reading (part.rebuild plan path) term named →
      ∃ plain, (∀ found ∈ part.places, named (nameOf plan path found) = plain found.1) ∧
        Matches reading part term plain) : Forgets reading plan path part := by
  refine forgets_of_exists fun terms named matched => ?_
  obtain ⟨term, rfl, here⟩ :=
    (matchesAll_single (by rw [isFixedWidth_rebuild, fixed])).mp matched
  obtain ⟨plain, same, written⟩ := exist term named here
  exact ⟨plain, same, (matchesAll_single fixed).mpr ⟨term, rfl, written⟩⟩

/-- Forgetting names where one term is taken. -/
theorem Forgets.one {part : Pattern} (forgets : Forgets reading plan path part) {term : Term}
    {named : Assignment} (matched : Matches reading (part.rebuild plan path) term named) :
    Agreeing plan path part.places named ∧
      Matches reading part term (projected plan path part.places named) := by
  have wide := matched.isFixedWidth
  obtain ⟨agreeing, written⟩ := forgets _ _ ((matchesAll_single wide).mpr ⟨_, rfl, matched⟩)
  rw [isFixedWidth_rebuild] at wide
  obtain ⟨_, same, here⟩ := (matchesAll_single wide).mp written
  cases same
  exact ⟨agreeing, here⟩

theorem forgets_literal (value : Atom) : Forgets reading plan path (.literal value) := by
  refine forgets_of_fixed rfl fun term named matched => ?_
  rw [rebuild_literal] at matched
  exact ⟨named, nofun, matched⟩

theorem forgets_nonTerminal (stem symbol : Symbol) :
    Forgets reading plan path (.nonTerminal stem symbol) := by
  refine forgets_of_fixed rfl fun term named matched => ?_
  rw [rebuild_nonTerminal] at matched
  cases matched with
  | nonTerminal derived =>
    refine ⟨_, List.forall_mem_singleton.mpr ?_, .nonTerminal derived⟩
    rw [nameOf, List.append_nil, Assignment.single, Assignment.single, if_pos rfl, if_pos rfl]

theorem forgets_builtIn (kind : BuiltIn) (symbol : Symbol) :
    Forgets reading plan path (.builtIn kind symbol) := by
  refine forgets_of_fixed rfl fun term named matched => ?_
  rw [rebuild_builtIn] at matched
  cases matched with
  | builtIn passed =>
    refine ⟨_, ?_, .builtIn passed⟩
    cases bindable : kind.isBindable with
    | false => simp [places, bindingSymbol?, bindable]
    | true =>
      have listed : (Pattern.builtIn kind symbol).places = [(symbol, [])] := by
        simp [places, bindingSymbol?, bindable]
      rw [listed]
      refine List.forall_mem_singleton.mpr ?_
      rw [nameOf, List.append_nil, if_pos rfl, if_pos rfl, Assignment.single, Assignment.single,
        if_pos rfl, if_pos rfl]

/-- The rounds of a repetition forget their names, and so does the repetition. -/
theorem forgets_repeated {inner : Pattern} (mode : RepeatMode)
    (forgets : Forgets reading plan (path ++ [.inner]) inner) :
    Forgets reading plan path (.repeated inner mode) := by
  refine forgets_of_exists fun terms named matched => ?_
  obtain ⟨rounds, rfl, each, rfl⟩ := matchesAll_rounds.mp matched
  have rounded := fun round listed => forgets.one (each round listed)
  let plains := rounds.map fun round =>
    (round.1, projected plan (path ++ [.inner]) inner.places round.2)
  refine ⟨.collect inner.boundSymbols (plains.map (·.2)), ?_, matchesAll_rounds.mpr
    ⟨plains, ?_, ?_, rfl⟩⟩
  · intro found listed
    obtain ⟨⟨symbol, rest⟩, inside, rfl⟩ := List.mem_map.mp listed
    have bound : symbol ∈ inner.boundSymbols := by
      rw [mem_boundSymbols, ← map_fst_places]
      exact List.mem_map.mpr ⟨_, inside, rfl⟩
    have renamed : nameOf plan path (symbol, .inner :: rest) ∈
        (inner.rebuild plan (path ++ [.inner])).boundSymbols := by
      rw [mem_boundSymbols, occurrences_rebuild, ← nameOf_step]
      exact List.mem_map.mpr ⟨_, inside, rfl⟩
    rw [Assignment.collect_of_mem bound, Assignment.collect_of_mem renamed, List.map_map,
      List.filterMap_map, List.filterMap_map]
    congr 2
    refine List.filterMap_congr fun round among => ?_
    exact (congrArg round.2 (nameOf_step plan path .inner symbol rest).symm).trans
      (projected_of_mem (rounded round among).1 inside).symm
  · rw [List.map_map]
    rfl
  · intro round listed
    obtain ⟨source, among, rfl⟩ := List.mem_map.mp listed
    exact (rounded source among).2

/-- The checks at a part make the occurrences in its different parts agree. -/
theorem Planned.agreeing (planned : root.Planned plan) {part : Pattern}
    (located : root.Located path part) {named : Assignment}
    (deep : ∀ found ∈ part.places, found.2 ≠ [])
    (inside : ∀ symbol step first second, (symbol, step :: first) ∈ part.places →
      (symbol, step :: second) ∈ part.places →
      named (nameOf plan path (symbol, step :: first)) =
        named (nameOf plan path (symbol, step :: second)))
    (tested : ∀ placed ∈ plan.checksAt path, named.Satisfies placed.test) :
    Agreeing plan path part.places named := by
  intro symbol first second left right
  refine located.eq_of_next (fun rest => named (nameOf plan path (symbol, rest))) ?_ left right
  intro earlier later next here there
  cases earlier with
  | nil => exact absurd rfl (deep _ here)
  | cons step earlier =>
    cases later with
    | nil => exact absurd rfl (deep _ there)
    | cons other later =>
      by_cases same : step = other
      · subst same
        exact inside symbol step earlier later here there
      · have apart : sharedSteps (step :: earlier) (other :: later) = [] := by
          rw [sharedSteps, if_neg same]
        obtain ⟨term, one, two⟩ := tested _ ((planned.mem_checksAt located).mpr
          ⟨symbol, _, _, next, here, there, apart, rfl⟩)
        exact one.trans two.symm

theorem isSome_nameOf {part : Pattern} {step : PatternStep} {terms : List Term} {one : Assignment}
    (matched : MatchesAll reading [part.rebuild plan (path ++ [step])] terms one) :
    ∀ found ∈ part.places.map (fun found => (found.1, step :: found.2)),
      (one (nameOf plan path found)).isSome = true := by
  intro found listed
  obtain ⟨⟨symbol, rest⟩, inside, rfl⟩ := List.mem_map.mp listed
  rw [matched.isSome_iff, occurrencesAll, occurrencesAll, List.append_nil, occurrences_rebuild,
    ← nameOf_step]
  exact List.mem_map.mpr ⟨_, inside, rfl⟩

/-- Occurrences in one part agree under an assignment that knows the part. -/
theorem Agreeing.below {places : List (Symbol × PatternPath)} {step : PatternStep}
    {one named : Assignment} (agreeing : Agreeing plan (path ++ [step]) places one)
    (same : ∀ found ∈ places.map (fun found => (found.1, step :: found.2)),
      named (nameOf plan path found) = one (nameOf plan path found)) {symbol : Symbol}
    {first second : PatternPath} (left : (symbol, first) ∈ places)
    (right : (symbol, second) ∈ places) :
    named (nameOf plan path (symbol, step :: first)) =
      named (nameOf plan path (symbol, step :: second)) := by
  rw [same _ (List.mem_map.mpr ⟨_, left, rfl⟩), same _ (List.mem_map.mpr ⟨_, right, rfl⟩),
    ← nameOf_step, ← nameOf_step]
  exact agreeing symbol first second left right

theorem mem_wrapped {places : List (Symbol × PatternPath)} {step other : PatternStep}
    {symbol : Symbol} {rest : PatternPath} :
    (symbol, other :: rest) ∈ places.map (fun found => (found.1, step :: found.2)) ↔
      other = step ∧ (symbol, rest) ∈ places := by
  constructor
  · intro listed
    obtain ⟨found, inside, same⟩ := List.mem_map.mp listed
    cases same
    exact ⟨rfl, inside⟩
  · rintro ⟨rfl, inside⟩
    exact List.mem_map.mpr ⟨_, inside, rfl⟩

/-- The two sides of an `in-hole` forget their names, and its checks make them agree. -/
theorem forgets_inHole (planned : root.Planned plan) {context contents : Pattern}
    (located : root.Located path (.inHole context contents []))
    (outer : Forgets reading plan (path ++ [.context]) context)
    (inner : Forgets reading plan (path ++ [.contents]) contents) :
    Forgets reading plan path (.inHole context contents []) := by
  refine forgets_of_fixed rfl fun term named matched => ?_
  rw [rebuild, matches_inHole] at matched
  obtain ⟨holed, filling, first, second, around, within, decomposed, _, tested, rfl⟩ := matched
  obtain ⟨leftAgreeing, leftWritten⟩ := outer.one around
  obtain ⟨rightAgreeing, rightWritten⟩ := inner.one within
  have known := isSome_nameOf ((matchesAll_single around.isFixedWidth).mpr ⟨_, rfl, around⟩)
  have apart : ∀ found ∈ contents.places.map (fun found => (found.1, PatternStep.contents :: found.2)),
      first (nameOf plan path found) = none := by
    intro found listed
    have bound := isSome_nameOf ((matchesAll_single within.isFixedWidth).mpr ⟨_, rfl, within⟩)
      found listed
    have distinct := planned.nodup_part located
    rw [rebuild, occurrences] at distinct
    refine Option.not_isSome_iff_eq_none.mp fun also => ?_
    exact (List.nodup_append.mp distinct).2.2 _ ((around.isSome_iff _).mp also) _
      ((within.isSome_iff _).mp bound) rfl
  have agreeing : Agreeing plan path (Pattern.inHole context contents []).places
      (first.union second) := by
    refine planned.agreeing located ?_ ?_ ?_
    · intro found listed
      rcases List.mem_append.mp listed with here | here
      all_goals
        obtain ⟨_, _, rfl⟩ := List.mem_map.mp here
        nofun
    · intro symbol step one two here there
      rcases List.mem_append.mp here with here | here
      · obtain ⟨rfl, left⟩ := mem_wrapped.mp here
        rcases List.mem_append.mp there with there | there
        · refine leftAgreeing.below (fun found listed => ?_) left (mem_wrapped.mp there).2
          obtain ⟨term, same⟩ := Option.isSome_iff_exists.mp (known found listed)
          rw [Assignment.union_eq_left same, same]
        · cases (mem_wrapped.mp there).1
      · obtain ⟨rfl, left⟩ := mem_wrapped.mp here
        rcases List.mem_append.mp there with there | there
        · cases (mem_wrapped.mp there).1
        · exact rightAgreeing.below (fun found listed =>
            Assignment.union_eq_right (apart found listed)) left (mem_wrapped.mp there).2
    · intro placed listed
      exact tested _ (List.mem_map.mpr ⟨placed, listed, rfl⟩)
  obtain ⟨agree, same⟩ := projected_append agreeing known apart
  rw [projected_step, projected_step] at agree same
  refine ⟨_, fun found listed => ?_, .inHole leftWritten rightWritten decomposed agree nofun⟩
  rw [← same]
  exact (projected_of_mem agreeing listed).symm

/-- Items with checks forget their names one by one: the occurrences in each item agree, and if
those in different items do too, the items as they are written match the same terms. -/
theorem forgetsAll {items : List Pattern} : ∀ {index : Nat},
    (∀ offset item, items[offset]? = some item →
      Forgets reading plan (path ++ [.item (index + offset)]) item) →
    (occurrencesAll (rebuildFrom plan path index items)).Nodup →
    ∀ terms named, MatchesAll reading (rebuildFrom plan path index items) terms named →
      (∀ symbol step first second, (symbol, step :: first) ∈ placesFrom index items →
        (symbol, step :: second) ∈ placesFrom index items →
        named (nameOf plan path (symbol, step :: first)) =
          named (nameOf plan path (symbol, step :: second))) ∧
      (Agreeing plan path (placesFrom index items) named →
        MatchesAll reading items terms (projected plan path (placesFrom index items) named)) := by
  induction items with
  | nil =>
    intro index _ _ terms named matched
    refine ⟨nofun, fun _ => ?_⟩
    obtain ⟨rfl, rfl⟩ := matchesAll_nil.mp matched
    exact .nil
  | cons item rest ih =>
    intro index each distinct terms named matched
    obtain ⟨left, right, one, two, rfl, here, others, _, rfl⟩ := matchesAll_rebuildFrom.mp matched
    obtain ⟨agreeing, written⟩ := each 0 item rfl _ _ here
    rw [Nat.add_zero] at agreeing written
    rw [rebuildFrom, List.cons_append, occurrencesAll, occurrencesAll_checks] at distinct
    obtain ⟨_, restDistinct, apartNames⟩ := List.nodup_append.mp distinct
    have later : ∀ offset item, rest[offset]? = some item →
        Forgets reading plan (path ++ [.item (index + 1 + offset)]) item := by
      intro offset item there
      rw [Nat.add_right_comm, Nat.add_assoc]
      exact each (offset + 1) item there
    obtain ⟨inside, restWritten⟩ := ih later restDistinct _ _ others
    have known := isSome_nameOf here
    have apart : ∀ found ∈ placesFrom (index + 1) rest, one (nameOf plan path found) = none := by
      intro found listed
      refine Option.not_isSome_iff_eq_none.mp fun also => ?_
      have bound : nameOf plan path found ∈
          occurrencesAll (rebuildFrom plan path (index + 1) rest) := by
        rw [occurrencesAll_rebuildFrom]
        exact List.mem_map.mpr ⟨found, listed, rfl⟩
      rw [here.isSome_iff, occurrencesAll, occurrencesAll, List.append_nil] at also
      exact apartNames _ also _ bound rfl
    have second : ∀ found ∈ placesFrom (index + 1) rest,
        one.union two (nameOf plan path found) = two (nameOf plan path found) :=
      fun found listed => Assignment.union_eq_right (apart found listed)
    rw [placesFrom]
    constructor
    · intro symbol step first next early late
      rcases List.mem_append.mp early with early | early
      · obtain ⟨rfl, this⟩ := mem_wrapped.mp early
        rcases List.mem_append.mp late with late | late
        · refine agreeing.below (fun found listed => ?_) this (mem_wrapped.mp late).2
          obtain ⟨term, same⟩ := Option.isSome_iff_exists.mp (known found listed)
          rw [Assignment.union_eq_left same, same]
        · obtain ⟨offset, _, _, same, _⟩ := placesFrom_step late
          injection same with same
          injection same with same
          omega
      · rcases List.mem_append.mp late with late | late
        · obtain ⟨rfl, _⟩ := mem_wrapped.mp late
          obtain ⟨offset, _, _, same, _⟩ := placesFrom_step early
          injection same with same
          injection same with same
          omega
        · rw [second _ early, second _ late]
          exact inside symbol step first next early late
    · intro whole
      obtain ⟨agree, same⟩ := projected_append whole known apart
      rw [projected_step] at agree same
      rw [same, ← List.singleton_append, matchesAll_append]
      refine ⟨left, right, _, _, rfl, written, restWritten ?_, agree, rfl⟩
      intro symbol first next early late
      rw [← second _ early, ← second _ late]
      exact whole symbol first next (List.mem_append_right _ early) (List.mem_append_right _ late)

/-- A check at a sequence stands among its items. -/
theorem mem_rebuildFrom_of_checksAt {placed : PlacedCheck} {items : List Pattern}
    (listed : placed ∈ plan.checksAt path) : ∀ {index offset : Nat}, offset < items.length →
      placed.after = some (index + offset) →
      .check placed.test ∈ rebuildFrom plan path index items := by
  induction items with
  | nil => nofun
  | cons item rest ih =>
    intro index offset below after
    rw [rebuildFrom, List.cons_append]
    refine List.mem_cons_of_mem _ (List.mem_append.mpr ?_)
    cases offset with
    | zero =>
      exact .inl (List.mem_map.mpr ⟨placed, List.mem_filter.mpr ⟨listed, decide_eq_true after⟩, rfl⟩)
    | succ offset =>
      refine .inr (ih (Nat.lt_of_succ_lt_succ below) ?_)
      rw [after, Nat.add_right_comm, Nat.add_assoc]

/-- The items of a sequence forget their names, and its checks make them agree. -/
theorem forgets_sequence (planned : root.Planned plan) {items : List Pattern}
    (located : root.Located path (.sequence items)) (free : ∀ test, .check test ∉ items)
    (each : ∀ offset item, items[offset]? = some item →
      Forgets reading plan (path ++ [.item offset]) item) :
    Forgets reading plan path (.sequence items) := by
  refine forgets_of_fixed rfl fun term named matched => ?_
  rw [rebuild, matches_sequence] at matched
  obtain ⟨terms, rfl, all, tested⟩ := matched
  obtain ⟨inside, written⟩ := forgetsAll (fun offset item there => by
    rw [Nat.zero_add]
    exact each offset item there) (planned.nodup_part located) terms named all
  have agreeing : Agreeing plan path (Pattern.sequence items).places named := by
    refine planned.agreeing located ?_ inside ?_
    · intro found listed
      obtain ⟨_, _, _, same, _⟩ := placesFrom_step listed
      rw [same]
      nofun
    · intro placed listed
      obtain ⟨symbol, earlier, later, _, _, there, _, rfl⟩ :=
        (planned.mem_checksAt located).mp listed
      obtain ⟨offset, _, item, same, found, _⟩ := placesFrom_step there
      dsimp only at same
      subst same
      exact tested _ (mem_rebuildFrom_of_checksAt listed
        (List.getElem?_eq_some_iff.mp found).1 rfl)
  refine ⟨_, fun found listed => (projected_of_mem agreeing listed).symm,
    .sequence (written agreeing) fun test listed => absurd listed (free test)⟩

/-- With its checks, every part of a pattern matches no more than without them. -/
theorem Planned.forgets (planned : root.Planned plan) {part : Pattern} :
    part.tests = [] → ∀ path, root.Located path part → Forgets reading plan path part := by
  induction part using Pattern.induction with
  | literal value => exact fun _ path _ => forgets_literal value
  | nonTerminal stem symbol => exact fun _ path _ => forgets_nonTerminal stem symbol
  | builtIn kind symbol => exact fun _ path _ => forgets_builtIn kind symbol
  | sequence items each _ =>
    intro free path located
    have inside := tests_of_mem free
    refine forgets_sequence planned located ?_ fun offset item there => ?_
    · intro test listed
      cases inside _ listed
    · have listed := List.mem_of_getElem? there
      exact each item listed (inside item listed) _ (located.item there)
  | repeated inner mode ih =>
    exact fun free path located => forgets_repeated mode (ih free _ located.inner)
  | inHole context contents checks outer inner =>
    intro free path located
    obtain ⟨both, none⟩ := List.append_eq_nil_iff.mp free
    obtain ⟨left, right⟩ := List.append_eq_nil_iff.mp both
    subst none
    exact forgets_inHole planned located (outer left _ located.context)
      (inner right _ located.contents)
  | check test => exact fun free => nomatch free
  | unresolved symbol =>
    refine fun _ path _ => forgets_of_fixed rfl fun term named matched => ?_
    simp only [rebuild] at matched
    split at matched <;> cases matched

end Forgetting

/-- The terms of the names of all occurrences, taken from their symbols. -/
def spread (plan : CheckPlan) (path : PatternPath) (places : List (Symbol × PatternPath))
    (plain : Assignment) : Assignment := fun name =>
  (places.find? fun found => nameOf plan path found = name).bind fun found => plain found.1

section Spreading

variable {path : PatternPath} {places : List (Symbol × PatternPath)} {plain : Assignment}

theorem spread_of_mem (distinct : (places.map (nameOf plan path)).Nodup)
    {found : Symbol × PatternPath} (listed : found ∈ places) :
    spread plan path places plain (nameOf plan path found) = plain found.1 := by
  unfold spread
  cases there : places.find? fun other => nameOf plan path other = nameOf plan path found with
  | none => exact absurd (decide_eq_true rfl) (List.find?_eq_none.mp there found listed)
  | some other =>
    have same := List.find?_some there
    simp only [decide_eq_true_eq] at same
    rw [eq_of_nodup_map distinct (List.mem_of_find?_eq_some there) listed same]
    rfl

theorem spread_of_not_mem {name : Symbol} (outside : name ∉ places.map (nameOf plan path)) :
    spread plan path places plain name = none := by
  unfold spread
  cases there : places.find? fun other => nameOf plan path other = name with
  | none => rfl
  | some other =>
    have same := List.find?_some there
    simp only [decide_eq_true_eq] at same
    exact absurd (List.mem_map.mpr ⟨other, List.mem_of_find?_eq_some there, same⟩) outside

/-- An assignment that gives all occurrences the terms of their symbols, and nothing else. -/
theorem eq_spread (distinct : (places.map (nameOf plan path)).Nodup) {named : Assignment}
    (same : ∀ found ∈ places, named (nameOf plan path found) = plain found.1)
    (others : ∀ name, name ∉ places.map (nameOf plan path) → named name = none) :
    named = spread plan path places plain := by
  funext name
  by_cases inside : name ∈ places.map (nameOf plan path)
  · obtain ⟨found, listed, rfl⟩ := List.mem_map.mp inside
    rw [same found listed, spread_of_mem distinct listed]
  · rw [others name inside, spread_of_not_mem inside]

/-- A leaf gives its term to its name. -/
theorem single_eq_spread (symbol : Symbol) (term : Term) :
    Assignment.single (nameAt plan path symbol) term =
      spread plan path [(symbol, [])] (.single symbol term) := by
  refine eq_spread (by simp) (List.forall_mem_singleton.mpr ?_) fun name outside => ?_
  · rw [nameOf, List.append_nil, Assignment.single, Assignment.single, if_pos rfl, if_pos rfl]
  · rw [List.map_singleton, List.mem_singleton, nameOf, List.append_nil] at outside
    exact if_neg outside

theorem spread_step (step : PatternStep) :
    spread plan path (places.map fun found => (found.1, step :: found.2)) plain =
      spread plan (path ++ [step]) places plain := by
  funext name
  unfold spread
  rw [List.find?_map, Option.bind_map]
  congr 1
  congr 1
  funext found
  exact congrArg (fun other => decide (other = name)) (nameOf_step ..).symm

/-- The terms of the occurrences in two parts, where the parts agree on shared symbols. -/
theorem spread_append {others : List (Symbol × PatternPath)} {one two : Assignment}
    (distinct : ((places ++ others).map (nameOf plan path)).Nodup)
    (known : ∀ found ∈ places, (one found.1).isSome = true)
    (bound : ∀ found ∈ others, (two found.1).isSome = true) (agree : one.Agrees two) :
    (spread plan path places one).Agrees (spread plan path others two) ∧
      (spread plan path places one).union (spread plan path others two) =
        spread plan path (places ++ others) (one.union two) := by
  have parts := distinct
  rw [List.map_append, List.nodup_append] at parts
  obtain ⟨left, right, apart⟩ := parts
  constructor
  · intro name here there inside outside
    by_cases listed : name ∈ places.map (nameOf plan path)
    · have absent : name ∉ others.map (nameOf plan path) := fun also => apart _ listed _ also rfl
      rw [spread_of_not_mem absent] at outside
      cases outside
    · rw [spread_of_not_mem listed] at inside
      cases inside
  · refine eq_spread distinct (fun found listed => ?_) fun name outside => ?_
    · rcases List.mem_append.mp listed with inside | outside
      · obtain ⟨term, same⟩ := Option.isSome_iff_exists.mp (known found inside)
        have here : spread plan path places one (nameOf plan path found) = some term := by
          rw [spread_of_mem left inside, same]
        rw [Assignment.union_eq_left here, Assignment.union_eq_left same]
      · have absent : nameOf plan path found ∉ places.map (nameOf plan path) := fun also =>
          apart _ also _ (List.mem_map.mpr ⟨found, outside, rfl⟩) rfl
        rw [Assignment.union_eq_right (spread_of_not_mem absent), spread_of_mem right outside]
        cases same : one found.1 with
        | none => exact (Assignment.union_eq_right same).symm
        | some term =>
          obtain ⟨other, also⟩ := Option.isSome_iff_exists.mp (bound found outside)
          rw [Assignment.union_eq_left same, also, agree found.1 term other same also]
    · rw [List.map_append, List.mem_append, not_or] at outside
      rw [Assignment.union, spread_of_not_mem outside.1, spread_of_not_mem outside.2]
      rfl

/-- What a part matches as it is written, it matches with its checks, under all its names. -/
def Recalls (reading : Reading) (plan : CheckPlan) (path : PatternPath) (part : Pattern) : Prop :=
  ∀ terms plain, MatchesAll reading [part] terms plain →
    MatchesAll reading [part.rebuild plan path] terms (spread plan path part.places plain)

theorem recalls_of_fixed {part : Pattern} (fixed : part.isFixedWidth = true)
    (recalls : ∀ term plain, Matches reading part term plain →
      Matches reading (part.rebuild plan path) term (spread plan path part.places plain)) :
    Recalls reading plan path part := by
  intro terms plain matched
  obtain ⟨term, rfl, here⟩ := (matchesAll_single fixed).mp matched
  exact (matchesAll_single (by rw [isFixedWidth_rebuild, fixed])).mpr
    ⟨term, rfl, recalls term plain here⟩

theorem Recalls.one {part : Pattern} (recalls : Recalls reading plan path part) {term : Term}
    {plain : Assignment} (matched : Matches reading part term plain) :
    Matches reading (part.rebuild plan path) term (spread plan path part.places plain) := by
  have wide := matched.isFixedWidth
  have named := recalls _ _ ((matchesAll_single wide).mpr ⟨_, rfl, matched⟩)
  obtain ⟨_, same, here⟩ := (matchesAll_single (by rw [isFixedWidth_rebuild, wide])).mp named
  cases same
  exact here

theorem isSome_of_places {part : Pattern} {terms : List Term}
    (matched : MatchesAll reading [part] terms plain) :
    ∀ found ∈ part.places, (plain found.1).isSome = true := by
  intro found listed
  rw [matched.isSome_iff, occurrencesAll, occurrencesAll, List.append_nil, ← map_fst_places]
  exact List.mem_map_of_mem listed

theorem recalls_repeated {inner : Pattern} (mode : RepeatMode)
    (distinct : (inner.places.map (nameOf plan (path ++ [.inner]))).Nodup)
    (recalls : Recalls reading plan (path ++ [.inner]) inner) :
    Recalls reading plan path (.repeated inner mode) := by
  intro terms plain matched
  obtain ⟨rounds, rfl, each, rfl⟩ := matchesAll_rounds.mp matched
  let named := rounds.map fun round =>
    (round.1, spread plan (path ++ [.inner]) inner.places round.2)
  refine matchesAll_rounds.mpr ⟨named, ?_, fun round listed => ?_, ?_⟩
  · rw [List.map_map]
    rfl
  · obtain ⟨source, among, rfl⟩ := List.mem_map.mp listed
    exact recalls.one (each source among)
  · rw [places, spread_step]
    refine (eq_spread distinct (fun found listed => ?_) fun name outside => ?_).symm
    · have bound : found.1 ∈ inner.boundSymbols := by
        rw [mem_boundSymbols, ← map_fst_places]
        exact List.mem_map_of_mem listed
      have renamed : nameOf plan (path ++ [.inner]) found ∈
          (inner.rebuild plan (path ++ [.inner])).boundSymbols := by
        rw [mem_boundSymbols, occurrences_rebuild]
        exact List.mem_map.mpr ⟨_, listed, rfl⟩
      rw [Assignment.collect_of_mem bound, Assignment.collect_of_mem renamed, List.map_map,
        List.filterMap_map, List.filterMap_map]
      congr 2
      exact List.filterMap_congr fun round _ => spread_of_mem distinct listed
    · refine Assignment.collect_of_not_mem (fun also => outside ?_) _
      rw [mem_boundSymbols, occurrences_rebuild] at also
      exact also

/-- The checks at a part hold if all occurrences have the terms of their symbols. -/
theorem Planned.satisfies (planned : root.Planned plan) {part : Pattern}
    (located : root.Located path part)
    (bound : ∀ found ∈ part.places, (plain found.1).isSome = true) :
    ∀ placed ∈ plan.checksAt path, (spread plan path part.places plain).Satisfies placed.test := by
  intro placed listed
  obtain ⟨symbol, earlier, later, _, left, right, _, rfl⟩ :=
    (planned.mem_checksAt located).mp listed
  have distinct := planned.nodup_part located
  rw [occurrences_rebuild] at distinct
  obtain ⟨term, same⟩ := Option.isSome_iff_exists.mp (bound _ left)
  exact ⟨term, (spread_of_mem distinct left).trans same, (spread_of_mem distinct right).trans same⟩

/-- The two sides of an `in-hole` recall their names, and its checks hold. -/
theorem recalls_inHole (planned : root.Planned plan) {context contents : Pattern}
    (located : root.Located path (.inHole context contents []))
    (outer : Recalls reading plan (path ++ [.context]) context)
    (inner : Recalls reading plan (path ++ [.contents]) contents) :
    Recalls reading plan path (.inHole context contents []) := by
  refine recalls_of_fixed rfl fun term plain matched => ?_
  have whole := isSome_of_places ((matchesAll_single rfl).mpr ⟨_, rfl, matched⟩)
  obtain ⟨holed, filling, first, second, around, within, decomposed, agree, _, rfl⟩ :=
    matches_inHole.mp matched
  have distinct := planned.nodup_part located
  rw [occurrences_rebuild] at distinct
  have known := isSome_of_places ((matchesAll_single around.isFixedWidth).mpr ⟨_, rfl, around⟩)
  have bound := isSome_of_places ((matchesAll_single within.isFixedWidth).mpr ⟨_, rfl, within⟩)
  obtain ⟨compatible, same⟩ := spread_append distinct
    (List.forall_mem_map.mpr known) (List.forall_mem_map.mpr bound) agree
  have tested := planned.satisfies located whole
  rw [spread_step, spread_step] at compatible same
  rw [show (Pattern.inHole context contents []).places = _ from rfl, places, ← same] at tested ⊢
  refine .inHole (outer.one around) (inner.one within) decomposed compatible fun test listed => ?_
  obtain ⟨placed, there, rfl⟩ := List.mem_map.mp listed
  exact tested placed there

/-- Items recall their names one by one. -/
theorem recallsAll {items : List Pattern} : ∀ {index : Nat},
    (∀ offset item, items[offset]? = some item →
      Recalls reading plan (path ++ [.item (index + offset)]) item) →
    ((placesFrom index items).map (nameOf plan path)).Nodup →
    ∀ terms plain, MatchesAll reading items terms plain →
      MatchesAll reading (rebuildFrom plan path index items) terms
        (spread plan path (placesFrom index items) plain) := by
  induction items with
  | nil =>
    intro index _ _ terms plain matched
    obtain ⟨rfl, rfl⟩ := matchesAll_nil.mp matched
    exact .nil
  | cons item rest ih =>
    intro index each distinct terms plain matched
    rw [← List.singleton_append, matchesAll_append] at matched
    obtain ⟨left, right, one, two, rfl, here, others, agree, rfl⟩ := matched
    have later : ∀ offset item, rest[offset]? = some item →
        Recalls reading plan (path ++ [.item (index + 1 + offset)]) item := by
      intro offset item there
      rw [Nat.add_right_comm, Nat.add_assoc]
      exact each (offset + 1) item there
    have known := isSome_of_places here
    have bound : ∀ found ∈ placesFrom (index + 1) rest, (two found.1).isSome = true := by
      intro found listed
      rw [others.isSome_iff, ← map_fst_placesFrom (index + 1)]
      exact List.mem_map_of_mem listed
    rw [placesFrom] at distinct ⊢
    obtain ⟨compatible, same⟩ :=
      spread_append distinct (List.forall_mem_map.mpr known) bound agree
    rw [List.map_append, List.nodup_append] at distinct
    rw [← same, matchesAll_rebuildFrom]
    rw [spread_step] at compatible ⊢
    exact ⟨left, right, _, _, rfl, each 0 item rfl _ _ here, ih later distinct.2.1 _ _ others,
      compatible, rfl⟩

/-- Each check among the items of a sequence is one of the checks at the sequence, after an item. -/
theorem exists_of_mem_rebuildFrom {test : Check} {items : List Pattern}
    (free : ∀ test, .check test ∉ items) : ∀ {index : Nat},
      .check test ∈ rebuildFrom plan path index items →
      ∃ placed ∈ plan.checksAt path, placed.test = test := by
  induction items with
  | nil => nofun
  | cons item rest ih =>
    intro index listed
    rw [rebuildFrom, List.cons_append] at listed
    rcases List.mem_cons.mp listed with own | others
    · cases item with
      | check other => exact absurd List.mem_cons_self (free other)
      | sequence | repeated | inHole => cases own
      | literal | nonTerminal | builtIn | unresolved =>
        simp only [rebuild] at own
        split at own <;> cases own
    · rcases List.mem_append.mp others with here | later
      · obtain ⟨placed, there, same⟩ := List.mem_map.mp here
        exact ⟨placed, (List.mem_filter.mp there).1, Pattern.check.inj same⟩
      · exact ih (fun test there => free test (List.mem_cons_of_mem _ there)) later

theorem recalls_sequence (planned : root.Planned plan) {items : List Pattern}
    (located : root.Located path (.sequence items)) (free : ∀ test, .check test ∉ items)
    (each : ∀ offset item, items[offset]? = some item →
      Recalls reading plan (path ++ [.item offset]) item) :
    Recalls reading plan path (.sequence items) := by
  refine recalls_of_fixed rfl fun term plain matched => ?_
  have whole := isSome_of_places ((matchesAll_single rfl).mpr ⟨_, rfl, matched⟩)
  obtain ⟨terms, rfl, all, _⟩ := matches_sequence.mp matched
  have distinct := planned.nodup_part located
  rw [occurrences_rebuild] at distinct
  refine .sequence (recallsAll (fun offset item there => ?_) distinct terms plain all)
    fun test listed => ?_
  · rw [Nat.zero_add]
    exact each offset item there
  · obtain ⟨placed, there, rfl⟩ := exists_of_mem_rebuildFrom free listed
    exact planned.satisfies located whole placed there

/-- With its checks, every part of a pattern matches no less than without them. -/
theorem Planned.recalls (planned : root.Planned plan) {part : Pattern} :
    part.tests = [] → ∀ path, root.Located path part → Recalls reading plan path part := by
  induction part using Pattern.induction with
  | literal value =>
    refine fun _ path _ => recalls_of_fixed rfl fun term plain matched => ?_
    cases matched
    rw [rebuild_literal]
    exact .literal
  | nonTerminal stem symbol =>
    refine fun _ path _ => recalls_of_fixed rfl fun term plain matched => ?_
    cases matched with
    | nonTerminal derived =>
      have listed : (Pattern.nonTerminal stem symbol).places = [(symbol, [])] := rfl
      rw [rebuild_nonTerminal, listed, ← single_eq_spread]
      exact .nonTerminal derived
  | builtIn kind symbol =>
    refine fun _ path _ => recalls_of_fixed rfl fun term plain matched => ?_
    rw [rebuild_builtIn]
    cases matched with
    | builtIn passed =>
      have named : Matches reading (.builtIn kind (nameAt plan path symbol)) term _ :=
        .builtIn passed
      cases bindable : kind.isBindable with
      | false =>
        have listed : (Pattern.builtIn kind symbol).places = [] := by
          simp [places, bindingSymbol?, bindable]
        rw [bindable] at named
        rw [listed]
        exact named
      | true =>
        have listed : (Pattern.builtIn kind symbol).places = [(symbol, [])] := by
          simp [places, bindingSymbol?, bindable]
        rw [bindable] at named
        rw [listed, if_pos rfl, ← single_eq_spread]
        exact named
  | sequence items each _ =>
    intro free path located
    have inside := tests_of_mem free
    refine recalls_sequence planned located ?_ fun offset item there => ?_
    · intro test listed
      cases inside _ listed
    · have listed := List.mem_of_getElem? there
      exact each item listed (inside item listed) _ (located.item there)
  | repeated inner mode ih =>
    intro free path located
    have distinct := planned.nodup_part located.inner
    rw [occurrences_rebuild] at distinct
    exact recalls_repeated mode distinct (ih free _ located.inner)
  | inHole context contents checks outer inner =>
    intro free path located
    obtain ⟨both, none⟩ := List.append_eq_nil_iff.mp free
    obtain ⟨left, right⟩ := List.append_eq_nil_iff.mp both
    subst none
    exact recalls_inHole planned located (outer left _ located.context)
      (inner right _ located.contents)
  | check test => exact fun free => nomatch free
  | unresolved symbol => exact fun _ path _ => recalls_of_fixed rfl fun term plain matched => nomatch matched

end Spreading

section Insertion

variable (fresh : FreshNames)

/-- The new names with their symbols are those of the later occurrences. -/
theorem mem_synthetic_pair {entry : Symbol × Symbol} :
    entry ∈ (root.insertChecks fresh).1.synthetic ↔
      ∃ path, (path, entry.1) ∈ symbolRenames root.places fresh entry.2 := by
  have planned := (planSymbols_eq root.places root.boundSymbols ⟨[], [], []⟩ fresh
    (nodup_boundSymbols root)).2.2
  have same : (root.insertChecks fresh).1.synthetic = root.boundSymbols.flatMap fun symbol =>
      (symbolRenames root.places fresh symbol).map fun renamed => (renamed.2, symbol) := planned
  rw [same, List.mem_flatMap]
  constructor
  · rintro ⟨symbol, _, listed⟩
    obtain ⟨⟨path, name⟩, renamed, rfl⟩ := List.mem_map.mp listed
    exact ⟨path, renamed⟩
  · rintro ⟨path, renamed⟩
    have place := mem_placesOf.mp (List.mem_of_mem_tail (path_of_mem_symbolRenames renamed))
    refine ⟨entry.2, ?_, List.mem_map.mpr ⟨_, renamed, rfl⟩⟩
    rw [mem_boundSymbols, ← map_fst_places]
    exact List.mem_map_of_mem place

/-- The generated names are those of all occurrences but the first of each symbol. -/
theorem mem_synthetic {name : Symbol} :
    name ∈ (root.insertChecks fresh).1.synthetic.map (·.1) ↔
      ∃ symbol path, (path, name) ∈ symbolRenames root.places fresh symbol := by
  rw [List.mem_map]
  constructor
  · rintro ⟨entry, listed, rfl⟩
    exact ⟨entry.2, (mem_synthetic_pair fresh).mp listed⟩
  · rintro ⟨symbol, path, renamed⟩
    exact ⟨(name, symbol), (mem_synthetic_pair fresh).mpr ⟨path, renamed⟩, rfl⟩

/-- Dropping the generated names leaves the terms of the first occurrences. -/
theorem projected_eq_without
    (plain : ∀ symbol ∈ root.occurrences, Symbol.isSynthetic symbol = false)
    {named : Assignment} (agreeing : Agreeing (root.checkPlan fresh).1 [] root.places named)
    (known : ∀ name, (named name).isSome = true →
      name ∈ root.places.map (nameOf (root.checkPlan fresh).1 [])) :
    projected (root.checkPlan fresh).1 [] root.places named =
      named.without ((root.insertChecks fresh).1.synthetic.map (·.1)) := by
  have generated : ∀ {symbol name : Symbol} {path : PatternPath},
      (path, name) ∈ symbolRenames root.places fresh symbol → name ∉ root.occurrences := by
    intro symbol name path listed occurs
    obtain ⟨number, _, same⟩ := exists_of_mem_freshPlaces listed
    have mark := plain name occurs
    rw [show name = _ from same, Symbol.isSynthetic_numbered] at mark
    cases mark
  funext symbol
  by_cases occurs : symbol ∈ root.occurrences
  · have kept : symbol ∉ (root.insertChecks fresh).1.synthetic.map (·.1) := by
      rw [mem_synthetic]
      rintro ⟨_, _, renamed⟩
      exact generated renamed occurs
    rw [Assignment.without, if_neg kept]
    rw [← map_fst_places] at occurs
    obtain ⟨⟨other, path⟩, listed, rfl⟩ := List.mem_map.mp occurs
    cases places : placesOf other root.places with
    | nil =>
      have there := mem_placesOf.mpr listed
      rw [places] at there
      cases there
    | cons head others =>
      have there : (other, head) ∈ root.places := mem_placesOf.mp (places ▸ List.mem_cons_self)
      rw [projected_of_mem agreeing there, nameOf, List.nil_append, nameAt_first places]
  · rw [projected_of_not_mem (by rwa [map_fst_places]), Assignment.without]
    split
    · rfl
    · rename_i kept
      refine (Option.not_isSome_iff_eq_none.mp fun bound => ?_).symm
      obtain ⟨found, listed, same⟩ := List.mem_map.mp (known symbol bound)
      rw [nameOf, List.nil_append] at same
      rcases nameAt_cases fresh listed with ⟨_, own⟩ | renamed
      · refine occurs ?_
        rw [← same, own, ← map_fst_places]
        exact List.mem_map_of_mem listed
      · rw [same] at renamed
        exact kept ((mem_synthetic fresh).mpr ⟨_, _, renamed⟩)

/-- The matches of a pattern are those of the pattern with checks without the generated names. -/
theorem matches_insertChecks
    (plain : ∀ symbol ∈ root.occurrences, Symbol.isSynthetic symbol = false)
    (free : root.tests = []) {term : Term} {assignment : Assignment} :
    Matches reading root term assignment ↔
      ∃ named, Matches reading (root.insertChecks fresh).1.pattern term named ∧
        assignment = named.without ((root.insertChecks fresh).1.synthetic.map (·.1)) := by
  have planned := planned_checkPlan fresh plain
  have distinct := planned.nodup_part (Located.self root)
  rw [occurrences_rebuild] at distinct
  have forgotten : ∀ named, Matches reading (root.insertChecks fresh).1.pattern term named →
      Agreeing (root.checkPlan fresh).1 [] root.places named ∧ Matches reading root term
        (named.without ((root.insertChecks fresh).1.synthetic.map (·.1))) := by
    intro named matched
    obtain ⟨agreeing, written⟩ := (planned.forgets free [] (Located.self root)).one matched
    rw [projected_eq_without fresh plain agreeing] at written
    · exact ⟨agreeing, written⟩
    · intro name bound
      have occurs := (matched.isSome_iff name).mp bound
      change name ∈ (root.rebuild (root.checkPlan fresh).1 []).occurrences at occurs
      rwa [occurrences_rebuild] at occurs
  constructor
  · intro matched
    have named := (planned.recalls free [] (Located.self root)).one matched
    refine ⟨_, named, ?_⟩
    obtain ⟨agreeing, _⟩ := forgotten _ named
    rw [← projected_eq_without fresh plain agreeing]
    · refine eq_projected (fun found listed => spread_of_mem distinct listed) fun symbol outside => ?_
      rw [map_fst_places] at outside
      exact Option.not_isSome_iff_eq_none.mp fun bound =>
        outside ((matched.isSome_iff symbol).mp bound)
    · intro name bound
      by_cases inside : name ∈ root.places.map (nameOf (root.checkPlan fresh).1 [])
      · exact inside
      · rw [spread_of_not_mem inside] at bound
        cases bound
  · rintro ⟨named, matched, rfl⟩
    exact (forgotten named matched).2

end Insertion

end Pattern

end Reduct
