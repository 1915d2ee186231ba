import Reduct.Proofs.Levels

/-!
# The search finds exactly the matches

An exhaustive search with a pattern that binds every symbol once extends bindings by every match
of the pattern, and by nothing else. A check compares all that two symbols have collected so far;
it decides the equality of their new terms, because what they had collected before was equal.
-/

namespace Reduct

namespace Pattern

mutual

/-- All checks in a pattern. -/
def tests : Pattern → List Check
  | .sequence items => testsAll items
  | .repeated inner _ => inner.tests
  | .inHole context contents checks => context.tests ++ contents.tests ++ checks
  | .check test => [test]
  | _ => []

/-- All checks in a list of patterns. -/
def testsAll : List Pattern → List Check
  | [] => []
  | item :: rest => item.tests ++ testsAll rest

end

theorem tests_of_mem {items : List Pattern} (free : testsAll items = []) :
    ∀ item ∈ items, item.tests = [] := by
  induction items with
  | nil => nofun
  | cons item rest ih =>
    obtain ⟨here, others⟩ := List.append_eq_nil_iff.mp free
    exact List.forall_mem_cons.mpr ⟨here, ih others⟩

mutual

/-- Every check compares symbols that are bound before it, or on the sides of its `in-hole`. -/
def Scoped : Pattern → Prop
  | .sequence items => ScopedAll [] items
  | .repeated inner _ => inner.Scoped
  | .inHole context contents checks =>
    context.Scoped ∧ contents.Scoped ∧ ∀ test ∈ checks,
      test.left ∈ context.occurrences ++ contents.occurrences ∧
        test.right ∈ context.occurrences ++ contents.occurrences
  | .check _ => False
  | _ => True

/-- Every check in the items compares symbols that are known or bound before it. -/
def ScopedAll (known : List Symbol) : List Pattern → Prop
  | [] => True
  | .check test :: rest => test.left ∈ known ∧ test.right ∈ known ∧ ScopedAll known rest
  | item :: rest => item.Scoped ∧ ScopedAll (known ++ item.occurrences) rest

end

theorem scopedAll_check {known : List Symbol} {test : Check} {rest : List Pattern} :
    ScopedAll known (.check test :: rest) ↔
      test.left ∈ known ∧ test.right ∈ known ∧ ScopedAll known rest := by
  rw [ScopedAll]

theorem scopedAll_item {known : List Symbol} {item : Pattern} {rest : List Pattern}
    (kept : item.isCheck = false) :
    ScopedAll known (item :: rest) ↔
      item.Scoped ∧ ScopedAll (known ++ item.occurrences) rest := by
  cases item with
  | check test => cases kept
  | _ =>
    rw [ScopedAll]
    simp

mutual

/-- The symbols of a check occur in the pattern. -/
theorem Scoped.occur : {pattern : Pattern} → pattern.Scoped → ∀ test ∈ pattern.tests,
    test.left ∈ pattern.occurrences ∧ test.right ∈ pattern.occurrences
  | .sequence items, ordered, test, listed => by
    have found := ScopedAll.occur ordered test listed
    rw [List.nil_append] at found
    exact found
  | .repeated inner _, ordered, test, listed => @Scoped.occur inner ordered test listed
  | .inHole context contents checks, ordered, test, listed => by
    obtain ⟨around, within, own⟩ := ordered
    rw [occurrences]
    rcases List.mem_append.mp listed with inside | here
    · rcases List.mem_append.mp inside with left | right
      · have found := Scoped.occur around test left
        exact ⟨List.mem_append_left _ found.1, List.mem_append_left _ found.2⟩
      · have found := Scoped.occur within test right
        exact ⟨List.mem_append_right _ found.1, List.mem_append_right _ found.2⟩
    · exact own test here
  | .literal _, _, _, listed => nomatch listed
  | .nonTerminal .., _, _, listed => nomatch listed
  | .builtIn .., _, _, listed => nomatch listed
  | .unresolved _, _, _, listed => nomatch listed
  | .check _, ordered, _, _ => ordered.elim

theorem ScopedAll.occur : {items : List Pattern} → {known : List Symbol} →
    ScopedAll known items → ∀ test ∈ testsAll items,
      test.left ∈ known ++ occurrencesAll items ∧ test.right ∈ known ++ occurrencesAll items
  | [], _, _, _, listed => nomatch listed
  | item :: rest, known, ordered, test, listed => by
    rw [testsAll] at listed
    rw [occurrencesAll]
    by_cases check : item.isCheck = true
    · cases item with
      | check own =>
        obtain ⟨left, right, others⟩ := scopedAll_check.mp ordered
        rcases List.mem_append.mp listed with here | later
        · rw [List.mem_singleton.mp here]
          exact ⟨List.mem_append_left _ left, List.mem_append_left _ right⟩
        · have found := ScopedAll.occur others test later
          simpa [occurrences, bindingSymbol?] using found
      | _ => cases check
    · obtain ⟨here, others⟩ := (scopedAll_item (Bool.eq_false_iff.mpr check)).mp ordered
      rcases List.mem_append.mp listed with inside | later
      · have found := Scoped.occur here test inside
        exact ⟨List.mem_append_right _ (List.mem_append_left _ found.1),
          List.mem_append_right _ (List.mem_append_left _ found.2)⟩
      · have found := ScopedAll.occur others test later
        rw [List.append_assoc] at found
        exact found

end

end Pattern

section Satisfied

variable {reading : Reading}

theorem Assignment.Satisfies.union_left {first second : Assignment} {test : Check}
    (satisfied : first.Satisfies test) : (first.union second).Satisfies test := by
  obtain ⟨term, left, right⟩ := satisfied
  exact ⟨term, union_eq_left left, union_eq_left right⟩

theorem Assignment.Satisfies.union_right {first second : Assignment} {test : Check}
    (agree : first.Agrees second) (satisfied : second.Satisfies test) :
    (first.union second).Satisfies test := by
  obtain ⟨term, left, right⟩ := satisfied
  have either : ∀ symbol, second symbol = some term → first.union second symbol = some term := by
    intro symbol found
    cases known : first symbol with
    | none => rw [union_eq_right known, found]
    | some other =>
      rw [union_eq_left known, agree symbol other term known found]
  exact ⟨term, either _ left, either _ right⟩

/-- Rounds that all satisfy a check collect equal sequences. -/
theorem Assignment.satisfies_collect {symbols : List Symbol} {rounds : List Assignment}
    {test : Check} (left : test.left ∈ symbols) (right : test.right ∈ symbols)
    (each : ∀ round ∈ rounds, round.Satisfies test) :
    (Assignment.collect symbols rounds).Satisfies test := by
  have same : (rounds.filterMap fun round => round test.left) =
      rounds.filterMap fun round => round test.right := by
    induction rounds with
    | nil => rfl
    | cons first rest ih =>
      obtain ⟨term, one, two⟩ := each first List.mem_cons_self
      rw [List.filterMap_cons, List.filterMap_cons, one, two,
        ih fun round listed => each round (List.mem_cons_of_mem _ listed)]
  refine ⟨_, Assignment.collect_of_mem left rounds, ?_⟩
  rw [Assignment.collect_of_mem right, same]

mutual

/-- A match satisfies all checks in the pattern. -/
theorem Matches.satisfies {pattern : Pattern} {term : Term} {assignment : Assignment} :
    Matches reading pattern term assignment → pattern.Scoped → ∀ test ∈ pattern.tests,
      assignment.Satisfies test
  | .literal, _, _, listed => nomatch listed
  | .nonTerminal _, _, _, listed => nomatch listed
  | .builtIn _, _, _, listed => nomatch listed
  | .sequence all tested, ordered, test, listed => by
    rcases MatchesAll.satisfies all ordered test listed with own | inside
    · exact tested test own
    · exact inside
  | .inHole around within _ agree tested, ordered, test, listed => by
    obtain ⟨outer, inner, _⟩ := ordered
    rcases List.mem_append.mp listed with inside | own
    · rcases List.mem_append.mp inside with left | right
      · exact (Matches.satisfies around outer test left).union_left
      · exact (Matches.satisfies within inner test right).union_right agree
    · exact tested test own

theorem MatchesAll.satisfies {items : List Pattern} {terms : List Term}
    {assignment : Assignment} {known : List Symbol} :
    MatchesAll reading items terms assignment → Pattern.ScopedAll known items →
    ∀ test ∈ Pattern.testsAll items, .check test ∈ items ∨ assignment.Satisfies test
  | .nil, _, _, listed => nomatch listed
  | .check others, ordered, test, listed => by
    rcases List.mem_append.mp listed with own | later
    · rw [List.mem_singleton.mp own]
      exact .inl List.mem_cons_self
    · rcases MatchesAll.satisfies others (Pattern.scopedAll_check.mp ordered).2.2 test later with
        there | satisfied
      · exact .inl (List.mem_cons_of_mem _ there)
      · exact .inr satisfied
  | .item fixed here others agree, ordered, test, listed => by
    obtain ⟨own, rest⟩ := (Pattern.scopedAll_item (Pattern.isCheck_of_isFixedWidth fixed)).mp ordered
    rcases List.mem_append.mp listed with inside | later
    · exact .inr (Matches.satisfies here own test inside).union_left
    · rcases MatchesAll.satisfies others rest test later with there | satisfied
      · exact .inl (List.mem_cons_of_mem _ there)
      · exact .inr (satisfied.union_right agree)
  | @MatchesAll.repeated _ inner _ _ _ _ rounds each others agree, ordered, test, listed => by
    obtain ⟨own, rest⟩ := (Pattern.scopedAll_item rfl).mp ordered
    change inner.Scoped at own
    rcases List.mem_append.mp listed with inside | later
    · obtain ⟨left, right⟩ := Pattern.Scoped.occur own test inside
      refine .inr (Assignment.Satisfies.union_left (Assignment.satisfies_collect
        (Pattern.mem_boundSymbols.mpr left) (Pattern.mem_boundSymbols.mpr right) ?_))
      intro assignment taken
      obtain ⟨round, there, rfl⟩ := List.mem_map.mp taken
      exact Matches.satisfies (each round there) own test inside
    · rcases MatchesAll.satisfies others rest test later with there | satisfied
      · exact .inl (List.mem_cons_of_mem _ there)
      · exact .inr (satisfied.union_right agree)

end

end Satisfied

namespace Bindings

/-- Bindings that a pattern can extend: its symbols take terms, and compared symbols have
collected the same. -/
structure Ready (bindings : Bindings) (pattern : Pattern) : Prop where
  wellFormed : bindings.WellFormed
  accepting : ∀ symbol ∈ pattern.occurrences, Accepting (bindings.levels symbol)
  level : ∀ test ∈ pattern.tests,
    (bindings.levels test.left).head? = (bindings.levels test.right).head?

/-- Bindings in a round of a repetition: every symbol has an open level. -/
structure Rolling (bindings : Bindings) (pattern : Pattern) : Prop where
  wellFormed : bindings.WellFormed
  opened : ∀ symbol ∈ pattern.occurrences,
    ∃ terms outer, bindings.levels symbol = .collected terms :: outer
  level : ∀ test ∈ pattern.tests,
    (bindings.levels test.left).head? = (bindings.levels test.right).head?

theorem ready_empty (pattern : Pattern) : empty.Ready pattern :=
  ⟨wellFormed_empty, fun _ _ => trivial, fun _ _ => rfl⟩

theorem Rolling.ready {bindings : Bindings} {pattern : Pattern} (rolling : bindings.Rolling pattern) :
    bindings.Ready pattern where
  wellFormed := rolling.wellFormed
  accepting := by
    intro symbol listed
    obtain ⟨terms, outer, levels⟩ := rolling.opened symbol listed
    rw [levels]
    trivial
  level := rolling.level

/-- Symbols that had collected the same hold equal terms exactly when their new terms are
equal. -/
theorem agree_iff {before after : Bindings} {assignment : Assignment} {left right : Symbol}
    {first second : Term} (extended : before.Extends assignment after)
    (one : assignment left = some first) (two : assignment right = some second)
    (level : (before.levels left).head? = (before.levels right).head?) :
    after.agree left right = true ↔ first = second := by
  have here := extended.put left first one
  have there := extended.put right second two
  unfold agree innermost
  match before.levels left, before.levels right, level, here, there with
  | [], [], _, ⟨_, here, _⟩, ⟨_, there, _⟩ =>
    rw [here, there]
    simp_all
  | .collected terms :: _, .collected others :: _, level, here, there =>
    cases level
    change after.levels left = _ at here
    change after.levels right = _ at there
    rw [here, there]
    simp [Level.toTerm]

/-- A round leaves bindings that are ready for the next. -/
theorem Rolling.extend {reading : Reading} {before after : Bindings} {pattern : Pattern}
    {term : Term} {assignment : Assignment} (rolling : before.Rolling pattern)
    (ordered : pattern.Scoped) (matched : Matches reading pattern term assignment)
    (extended : before.Extends assignment after) : after.Rolling pattern where
  wellFormed := extended.wellFormed
  opened := by
    intro symbol listed
    obtain ⟨terms, outer, levels⟩ := rolling.opened symbol listed
    obtain ⟨value, found⟩ := Option.isSome_iff_exists.mp ((matched.isSome_iff symbol).mpr listed)
    have put := extended.put symbol value found
    rw [levels] at put
    exact ⟨_, outer, put⟩
  level := by
    intro test listed
    obtain ⟨left, right⟩ := ordered.occur test listed
    obtain ⟨terms, outer, here⟩ := rolling.opened _ left
    obtain ⟨others, rest, there⟩ := rolling.opened _ right
    obtain ⟨value, one, two⟩ := matched.satisfies ordered test listed
    have first := extended.put _ value one
    have second := extended.put _ value two
    have same := rolling.level test listed
    rw [here, there] at same
    cases same
    rw [here] at first
    rw [there] at second
    rw [show after.levels test.left = _ from first, show after.levels test.right = _ from second]
    rfl

end Bindings

/-- The results of a search are the extensions by the matches of the pattern. -/
structure Answers (reading : Reading) (pattern : Pattern) (term : Term) (bindings : Bindings)
    (found : List Bindings) : Prop where
  sound : ∀ after ∈ found, ∃ assignment, Matches reading pattern term assignment ∧
    bindings.Extends assignment after
  complete : ∀ assignment, Matches reading pattern term assignment →
    ∃ after ∈ found, bindings.Extends assignment after

/-- The exhaustive search with a pattern finds the matches from all bindings that are ready. -/
def Searches (ground : Ground) (reading : Reading) (pattern : Pattern) : Prop :=
  ∀ term bindings, bindings.Ready pattern → ∃ found,
    visit ground pattern.exhaustive term bindings = some found ∧
      Answers reading pattern term bindings found

section Search

variable {ground : Ground} {reading : Reading}

/-- The levels of a repetition hold the bindings after every number of rounds. -/
theorem exploreLevels_exhaustive {inner : Pattern} (ordered : inner.Scoped)
    (searches : Searches ground reading inner) (terms : List Term) :
    ∀ (position : Nat) (level : List Bindings), (∀ start ∈ level, start.Rolling inner) →
    ∃ reached, exploreLevels .exhaustive (visit ground inner.exhaustive) position terms level =
        some reached ∧
      (∀ state ∈ reached, ∃ start ∈ level, ∃ (rounds : List (Term × Assignment))
        (others : List Term), terms = rounds.map (·.1) ++ others ∧
        (∀ round ∈ rounds, Matches reading inner round.1 round.2) ∧
        state.2 = position + rounds.length ∧ start.Rolls rounds state.1) ∧
      ∀ start ∈ level, ∀ (rounds : List (Term × Assignment)) (others : List Term),
        terms = rounds.map (·.1) ++ others →
        (∀ round ∈ rounds, Matches reading inner round.1 round.2) →
        ∃ after, (after, position + rounds.length) ∈ reached ∧ start.Rolls rounds after := by
  induction terms with
  | nil =>
    intro position level rolling
    refine ⟨level.map (·, position), rfl, ?_, ?_⟩
    · intro state listed
      obtain ⟨start, there, rfl⟩ := List.mem_map.mp listed
      exact ⟨start, there, [], [], rfl, List.forall_mem_nil _, rfl, .done (rolling start there).wellFormed⟩
    · intro start there rounds others split _
      obtain ⟨none, rfl⟩ := List.append_eq_nil_iff.mp split.symm
      rw [List.map_eq_nil_iff] at none
      subst none
      exact ⟨start, List.mem_map.mpr ⟨start, there, rfl⟩, .done (rolling start there).wellFormed⟩
  | cons term rest ih =>
    intro position level rolling
    have each : ∀ start ∈ level, ∃ found,
        visit ground inner.exhaustive term start = some found :=
      fun start there => (searches term start (rolling start there).ready).imp fun _ both => both.1
    obtain ⟨next, gathered⟩ := exists_gather each
    -- What the next level holds, read off the single searches.
    have answers : ∀ start ∈ level, ∃ found, visit ground inner.exhaustive term start = some found ∧
        Answers reading inner term start found ∧ ∀ after ∈ found, after ∈ next := by
      intro start there
      obtain ⟨found, run, right⟩ := searches term start (rolling start there).ready
      exact ⟨found, run, right, fun after listed =>
        (mem_gather gathered).mpr ⟨start, there, found, run, listed⟩⟩
    have origin : ∀ after ∈ next, ∃ start ∈ level, ∃ assignment,
        Matches reading inner term assignment ∧ start.Extends assignment after := by
      intro after listed
      obtain ⟨start, there, found, run, inside⟩ := (mem_gather gathered).mp listed
      obtain ⟨other, same, right, _⟩ := answers start there
      rw [run] at same
      cases same
      obtain ⟨assignment, matched, extended⟩ := right.sound after inside
      exact ⟨start, there, assignment, matched, extended⟩
    rw [exploreLevels, gathered, Option.bind_some]
    by_cases stops : next = []
    · subst stops
      refine ⟨level.map (·, position), rfl, ?_, ?_⟩
      · intro state listed
        obtain ⟨start, there, rfl⟩ := List.mem_map.mp listed
        exact ⟨start, there, [], _, rfl, List.forall_mem_nil _, rfl, .done (rolling start there).wellFormed⟩
      · intro start there rounds others split matched
        cases rounds with
        | nil =>
          exact ⟨start, List.mem_map.mpr ⟨start, there, rfl⟩,
            .done (rolling start there).wellFormed⟩
        | cons round later =>
          obtain ⟨head, assignment⟩ := round
          obtain ⟨rfl, _⟩ := List.cons.inj split
          obtain ⟨found, _, right, inside⟩ := answers start there
          obtain ⟨after, listed, _⟩ :=
            right.complete assignment (matched _ List.mem_cons_self)
          cases inside after listed
    · have ready : ∀ start ∈ next, start.Rolling inner := by
        intro after listed
        obtain ⟨start, there, assignment, matched, extended⟩ := origin after listed
        exact (rolling start there).extend ordered matched extended
      obtain ⟨reached, run, sound, complete⟩ := ih (position + 1) next ready
      rw [List.isEmpty_eq_false_iff.mpr stops, if_neg Bool.false_ne_true, run]
      refine ⟨level.map (·, position) ++ reached, rfl, ?_, ?_⟩
      · intro state listed
        rcases List.mem_append.mp listed with here | later
        · obtain ⟨start, there, rfl⟩ := List.mem_map.mp here
          exact ⟨start, there, [], _, rfl, List.forall_mem_nil _, rfl, .done (rolling start there).wellFormed⟩
        · obtain ⟨middle, inside, rounds, others, split, matched, count, rolls⟩ :=
            sound state later
          obtain ⟨start, there, assignment, first, extended⟩ := origin middle inside
          refine ⟨start, there, (term, assignment) :: rounds, others, by rw [split]; rfl, ?_, ?_,
            .round extended rolls⟩
          · intro round taken
            rcases List.mem_cons.mp taken with rfl | other
            · exact first
            · exact matched round other
          · rw [count, List.length_cons]
            omega
      · intro start there rounds others split matched
        cases rounds with
        | nil =>
          exact ⟨start, List.mem_append_left _ (List.mem_map.mpr ⟨start, there, rfl⟩),
            .done (rolling start there).wellFormed⟩
        | cons round later =>
          obtain ⟨head, assignment⟩ := round
          obtain ⟨rfl, tail⟩ := List.cons.inj split
          obtain ⟨found, _, right, inside⟩ := answers start there
          obtain ⟨middle, listed, extended⟩ :=
            right.complete assignment (matched _ List.mem_cons_self)
          obtain ⟨after, there, rolls⟩ := complete middle (inside middle listed) later others tail
            fun round taken => matched round (List.mem_cons_of_mem _ taken)
          refine ⟨after, List.mem_append_right _ ?_, .round extended rolls⟩
          rw [List.length_cons, Nat.add_comm later.length, ← Nat.add_assoc]
          exact there

/-- A repetition gives its symbols the sequences of the terms of all its rounds. -/
theorem repetition_exhaustive {inner : Pattern} {mode : RepeatMode} (ordered : inner.Scoped)
    (searches : Searches ground reading inner) {bindings : Bindings}
    (ready : bindings.Ready (.repeated inner mode)) (terms : List Term) (position : Nat) :
    ∃ found, repetition inner.boundSymbols .exhaustive (visit ground inner.exhaustive) terms
        (bindings, position) = some found ∧
      (∀ state ∈ found, ∃ (rounds : List (Term × Assignment)) (others : List Term),
        terms.drop position = rounds.map (·.1) ++ others ∧
        (∀ round ∈ rounds, Matches reading inner round.1 round.2) ∧
        state.2 = position + rounds.length ∧
        bindings.Extends (.collect inner.boundSymbols (rounds.map (·.2))) state.1) ∧
      ∀ (rounds : List (Term × Assignment)) (others : List Term),
        terms.drop position = rounds.map (·.1) ++ others →
        (∀ round ∈ rounds, Matches reading inner round.1 round.2) →
        ∃ after, (after, position + rounds.length) ∈ found ∧
          bindings.Extends (.collect inner.boundSymbols (rounds.map (·.2))) after := by
  have distinct := Pattern.nodup_boundSymbols inner
  have accepting : ∀ symbol ∈ inner.boundSymbols, Accepting (bindings.levels symbol) :=
    fun symbol listed => ready.accepting symbol (Pattern.mem_boundSymbols.mp listed)
  obtain ⟨start, opened, formed, levels⟩ :=
    Bindings.exists_openAll distinct ready.wellFormed accepting
  have rolling : start.Rolling inner := by
    refine ⟨formed, ?_, ?_⟩
    · intro symbol listed
      rw [levels symbol, if_pos (Pattern.mem_boundSymbols.mpr listed)]
      exact ⟨_, _, rfl⟩
    · intro test listed
      obtain ⟨left, right⟩ := ordered.occur test listed
      rw [levels, levels, if_pos (Pattern.mem_boundSymbols.mpr left),
        if_pos (Pattern.mem_boundSymbols.mpr right)]
      rfl
  obtain ⟨reached, run, sound, complete⟩ := exploreLevels_exhaustive ordered searches
    (terms.drop position) position [start] (by
      intro other listed
      rw [List.mem_singleton.mp listed]
      exact rolling)
  have closes : ∀ (rounds : List (Term × Assignment)) (after : Bindings),
      (∀ round ∈ rounds, Matches reading inner round.1 round.2) → start.Rolls rounds after →
      ∃ finished, after.closeAll inner.boundSymbols = some finished ∧
        bindings.Extends (.collect inner.boundSymbols (rounds.map (·.2))) finished := by
    intro rounds after matched rolls
    refine Bindings.exists_close_of_rolls distinct accepting levels ?_ rolls
    intro round taken symbol
    rw [(matched round taken).isSome_iff, Pattern.mem_boundSymbols]
  have each : ∀ state ∈ reached, ∃ rounds others, terms.drop position = rounds.map (·.1) ++ others ∧
      (∀ round ∈ rounds, Matches reading inner round.1 round.2) ∧
      state.2 = position + rounds.length ∧ start.Rolls rounds state.1 := by
    intro state listed
    obtain ⟨other, there, found⟩ := sound state listed
    rw [List.mem_singleton.mp there] at found
    exact found
  obtain ⟨found, gathered⟩ : ∃ found, gather (fun state : Reached =>
      (state.1.closeAll inner.boundSymbols).map fun closed => [(closed, state.2)]) reached =
        some found := by
    refine exists_gather fun state listed => ?_
    obtain ⟨rounds, _, _, matched, _, rolls⟩ := each state listed
    obtain ⟨finished, closed, _⟩ := closes rounds state.1 matched rolls
    exact ⟨[(finished, state.2)], by rw [closed]; rfl⟩
  refine ⟨found, ?_, ?_, ?_⟩
  · unfold repetition
    rw [opened, Option.bind_some, run, Option.bind_some]
    exact gathered
  · intro state listed
    obtain ⟨origin, there, here, closed, inside⟩ := (mem_gather gathered).mp listed
    obtain ⟨rounds, others, split, matched, count, rolls⟩ := each origin there
    obtain ⟨finished, same, extended⟩ := closes rounds origin.1 matched rolls
    rw [same, Option.map_some] at closed
    cases closed
    rw [List.mem_singleton.mp inside]
    exact ⟨rounds, others, split, matched, count, extended⟩
  · intro rounds others split matched
    obtain ⟨after, there, rolls⟩ := complete start List.mem_cons_self rounds others split matched
    obtain ⟨finished, closed, extended⟩ := closes rounds after matched rolls
    refine ⟨finished, (mem_gather gathered).mpr ⟨_, there, _, by rw [closed]; rfl, ?_⟩, extended⟩
    exact List.mem_cons_self

/-- A step of the frontier followed by the rest of the items. -/
theorem advance_step {step : Reached → Option (List Reached)} {items rest : List Pattern}
    {terms : List Term} {entry : Reached} {next : List Reached}
    (moves : advance ground terms items [entry] =
      (gather step [entry]).bind (advance ground terms rest))
    (stepped : step entry = some next)
    (each : ∀ other ∈ next, ∃ found, advance ground terms rest [other] = some found) :
    ∃ found, advance ground terms items [entry] = some found ∧
      ∀ result, result ∈ found ↔ ∃ other ∈ next, ∃ here,
        advance ground terms rest [other] = some here ∧ result ∈ here := by
  have single : gather step [entry] = some next := by
    rw [gather, stepped]
    simp [gather]
  obtain ⟨found, gathered⟩ := exists_gather each
  refine ⟨found, ?_, fun result => mem_gather gathered⟩
  rw [moves, single, Option.bind_some, advance_eq_gather]
  exact gathered

/-- The frontier that starts with one entry ends, at the last term, with the extensions by the
matches of the items. `start` and `known` are the bindings before the sequence and what its earlier
items have assigned. -/
def Completes (ground : Ground) (reading : Reading) (terms : List Term) (start : Bindings)
    (items : List Pattern) (known : Assignment) (entry : Reached) : Prop :=
  ∃ found, advance ground terms (Pattern.exhaustiveAll items) [entry] = some found ∧
    (∀ after, (after, terms.length) ∈ found → ∃ assignment,
      MatchesAll reading items (terms.drop entry.2) assignment ∧
      (∀ test, .check test ∈ items → (known.union assignment).Satisfies test) ∧
      start.Extends (known.union assignment) after) ∧
    ∀ assignment, MatchesAll reading items (terms.drop entry.2) assignment →
      (∀ test, .check test ∈ items → (known.union assignment).Satisfies test) →
      ∃ after, (after, terms.length) ∈ found ∧ start.Extends (known.union assignment) after

/-- A sequence has a term for every item of fixed width. -/
theorem MatchesAll.fixedCount_le {items : List Pattern} {terms : List Term}
    {assignment : Assignment} (all : MatchesAll reading items terms assignment) :
    Matcher.fixedCount items ≤ terms.length := by
  cases all with
  | nil => exact Nat.le_refl _
  | check others =>
    rw [fixedCount_cons, if_neg (by exact Bool.false_ne_true)]
    exact MatchesAll.fixedCount_le others
  | item fixed _ others _ =>
    rw [fixedCount_cons, if_pos fixed]
    exact Nat.succ_le_succ (MatchesAll.fixedCount_le others)
  | repeated _ _ others _ =>
    rw [fixedCount_cons, if_neg (by exact Bool.false_ne_true), List.length_append]
    exact Nat.le_trans (MatchesAll.fixedCount_le others) (Nat.le_add_left _ _)

/-- A step that extends bindings by the matches of an item, followed by items that complete. -/
theorem completes_cons {terms : List Term} {start bindings : Bindings} {item : Pattern}
    {rest : List Pattern} {known : Assignment} {position : Nat}
    {step : Reached → Option (List Reached)} {next : List Reached}
    (extended : start.Extends known bindings) (kept : item.isCheck = false)
    (apart : ∀ symbol ∈ item.occurrences, known symbol = none ∧
      symbol ∉ Pattern.occurrencesAll rest)
    (moves : advance ground terms (Pattern.exhaustiveAll (item :: rest)) [(bindings, position)] =
      (gather step [(bindings, position)]).bind
        (advance ground terms (Pattern.exhaustiveAll rest)))
    (stepped : step (bindings, position) = some next)
    (sound : ∀ state ∈ next, ∃ taken assignment,
      terms.drop position = taken ++ terms.drop state.2 ∧ state.2 ≤ terms.length ∧
        MatchesAll reading [item] taken assignment ∧ bindings.Extends assignment state.1)
    (complete : ∀ taken others assignment, terms.drop position = taken ++ others →
      Matcher.fixedCount rest ≤ others.length → MatchesAll reading [item] taken assignment →
      ∃ state ∈ next, terms.drop state.2 = others ∧ state.2 ≤ terms.length ∧
        bindings.Extends assignment state.1)
    (later : ∀ state assignment taken, state.2 ≤ terms.length →
      MatchesAll reading [item] taken assignment →
      start.Extends (known.union assignment) state.1 →
      Completes ground reading terms start rest (known.union assignment) state) :
    Completes ground reading terms start (item :: rest) known (bindings, position) := by
  have combined : ∀ taken assignment (after : Bindings),
      MatchesAll reading [item] taken assignment → bindings.Extends assignment after →
      start.Extends (known.union assignment) after := by
    intro taken assignment after matched grown
    refine extended.trans grown ?_
    intro symbol here
    cases there : assignment symbol with
    | none => rfl
    | some term =>
      have occurs := (matched.isSome_iff symbol).mp (by rw [there]; rfl)
      rw [Pattern.occurrencesAll, Pattern.occurrencesAll, List.append_nil] at occurs
      rw [(apart symbol occurs).1] at here
      cases here
  obtain ⟨found, run, members⟩ := advance_step moves stepped (by
    intro state listed
    obtain ⟨taken, assignment, _, bound, matched, grown⟩ := sound state listed
    obtain ⟨here, run, _⟩ := later state assignment taken bound matched
      (combined taken assignment state.1 matched grown)
    exact ⟨here, run⟩)
  have tests : ∀ {first second : Assignment},
      (∀ test, .check test ∈ rest → (first.union second).Satisfies test) ↔
        ∀ test, .check test ∈ item :: rest → (first.union second).Satisfies test := by
    intro first second
    constructor
    · intro all test listed
      rcases List.mem_cons.mp listed with same | there
      · rw [← same] at kept
        cases kept
      · exact all test there
    · exact fun all test listed => all test (List.mem_cons_of_mem _ listed)
  refine ⟨found, run, ?_, ?_⟩
  · intro after listed
    obtain ⟨state, there, here, rerun, inside⟩ := (members _).mp listed
    obtain ⟨taken, first, split, bound, matched, grown⟩ := sound state there
    obtain ⟨other, same, right, _⟩ := later state first taken bound matched
      (combined taken first state.1 matched grown)
    rw [rerun] at same
    cases same
    obtain ⟨second, others, tested, final⟩ := right after inside
    have agree : first.Agrees second := by
      refine Assignment.agrees_of_disjoint ?_
      intro symbol known
      have occurs := (matched.isSome_iff symbol).mp known
      rw [Pattern.occurrencesAll, Pattern.occurrencesAll, List.append_nil] at occurs
      rw [← Bool.not_eq_true, others.isSome_iff]
      exact (apart symbol occurs).2
    refine ⟨first.union second, ?_, ?_, ?_⟩
    · exact matchesAll_append.mpr ⟨taken, _, first, second, split, matched, others, agree, rfl⟩
    · rw [← Assignment.union_assoc]
      exact tests.mp tested
    · rw [← Assignment.union_assoc]
      exact final
  · intro assignment all tested
    change MatchesAll reading ([item] ++ rest) _ _ at all
    obtain ⟨taken, others, first, second, split, matched, after, agree, rfl⟩ :=
      matchesAll_append.mp all
    obtain ⟨state, there, same, bound, grown⟩ :=
      complete taken others first split after.fixedCount_le matched
    obtain ⟨here, rerun, _, left⟩ := later state first taken bound matched
      (combined taken first state.1 matched grown)
    rw [← same] at after
    rw [← Assignment.union_assoc] at tested ⊢
    obtain ⟨final, inside, reached⟩ := left second after (tests.mpr tested)
    exact ⟨final, (members _).mpr ⟨state, there, here, rerun, inside⟩, reached⟩

/-- An item of fixed width extends bindings by its matches at the next term. -/
theorem advanceOne_exhaustive {item : Pattern} (fixed : item.isFixedWidth = true)
    (searches : Searches ground reading item) {bindings : Bindings} (ready : bindings.Ready item)
    (rest : List Pattern) {terms : List Term} {position : Nat} (bound : position ≤ terms.length) :
    ∃ next, advanceOne (Matcher.fixedCount (item :: rest)) (visit ground item.exhaustive) terms
        (bindings, position) = some next ∧
      (∀ state ∈ next, ∃ taken assignment,
        terms.drop position = taken ++ terms.drop state.2 ∧ state.2 ≤ terms.length ∧
          MatchesAll reading [item] taken assignment ∧ bindings.Extends assignment state.1) ∧
      ∀ taken others assignment, terms.drop position = taken ++ others →
        Matcher.fixedCount rest ≤ others.length → MatchesAll reading [item] taken assignment →
        ∃ state ∈ next, terms.drop state.2 = others ∧ state.2 ≤ terms.length ∧
          bindings.Extends assignment state.1 := by
  have single : ∀ taken assignment, MatchesAll reading [item] taken assignment ↔
      ∃ term, taken = [term] ∧ Matches reading item term assignment := by
    intro taken assignment
    rw [matchesAll_item fixed]
    constructor
    · rintro ⟨term, others, first, second, rfl, here, none, _, rfl⟩
      obtain ⟨rfl, rfl⟩ := matchesAll_nil.mp none
      rw [Assignment.union_empty]
      exact ⟨term, rfl, here⟩
    · rintro ⟨term, rfl, here⟩
      exact ⟨term, [], assignment, .empty, rfl, here, .nil, fun _ _ _ _ there => (nomatch there),
        (Assignment.union_empty _).symm⟩
  have needed : Matcher.fixedCount (item :: rest) = Matcher.fixedCount rest + 1 := by
    rw [fixedCount_cons, if_pos fixed]
  unfold advanceOne
  by_cases room : position + capped (Matcher.fixedCount (item :: rest)) ≤ terms.length
  · have within : position < terms.length := by
      rw [needed] at room
      have positive : 0 < capped (Matcher.fixedCount rest + 1) := by
        unfold capped mostCount
        omega
      omega
    have drop : terms.drop position = terms[position] :: terms.drop (position + 1) :=
      List.drop_eq_getElem_cons within
    rw [if_pos room, List.getElem?_eq_getElem within]
    obtain ⟨found, run, answers⟩ := searches terms[position] bindings ready
    refine ⟨found.map (·, position + 1), by simp [run], ?_, ?_⟩
    · intro state listed
      obtain ⟨after, there, rfl⟩ := List.mem_map.mp listed
      obtain ⟨assignment, matched, extended⟩ := answers.sound after there
      exact ⟨[terms[position]], assignment, drop, within, (single _ _).mpr ⟨_, rfl, matched⟩,
        extended⟩
    · intro taken others assignment split _ matched
      obtain ⟨term, rfl, here⟩ := (single _ _).mp matched
      rw [drop] at split
      obtain ⟨rfl, same⟩ := List.cons.inj split
      obtain ⟨after, there, extended⟩ := answers.complete assignment here
      exact ⟨_, List.mem_map.mpr ⟨after, there, rfl⟩, same, within, extended⟩
  · rw [if_neg room]
    refine ⟨[], rfl, nofun, ?_⟩
    intro taken others assignment split enough matched
    obtain ⟨term, rfl, _⟩ := (single _ _).mp matched
    have count := congrArg List.length split
    rw [List.length_drop, List.length_append, List.length_singleton] at count
    unfold capped at room
    rw [needed] at room
    omega

/-- An item that repeats extends bindings by its matches at any number of terms. -/
theorem advanceMany_exhaustive {inner : Pattern} {mode : RepeatMode} (ordered : inner.Scoped)
    (searches : Searches ground reading inner) {bindings : Bindings}
    (ready : bindings.Ready (.repeated inner mode)) {terms : List Term} {position : Nat}
    (bound : position ≤ terms.length) :
    ∃ next, repetition inner.boundSymbols .exhaustive (visit ground inner.exhaustive) terms
        (bindings, position) = some next ∧
      (∀ state ∈ next, ∃ taken assignment,
        terms.drop position = taken ++ terms.drop state.2 ∧ state.2 ≤ terms.length ∧
          MatchesAll reading [.repeated inner mode] taken assignment ∧
          bindings.Extends assignment state.1) ∧
      ∀ taken others assignment, terms.drop position = taken ++ others →
        MatchesAll reading [.repeated inner mode] taken assignment →
        ∃ state ∈ next, terms.drop state.2 = others ∧ state.2 ≤ terms.length ∧
          bindings.Extends assignment state.1 := by
  -- The position after a number of terms, and what is left there.
  have reaches : ∀ taken others : List Term, terms.drop position = taken ++ others →
      terms.drop (position + taken.length) = others ∧ position + taken.length ≤ terms.length := by
    intro taken others split
    refine ⟨by rw [← List.drop_drop, split, List.drop_left], ?_⟩
    have count := congrArg List.length split
    rw [List.length_drop, List.length_append] at count
    omega
  obtain ⟨next, run, sound, complete⟩ :=
    repetition_exhaustive ordered searches ready terms position
  refine ⟨next, run, ?_, ?_⟩
  · intro state listed
    obtain ⟨rounds, others, split, matched, count, extended⟩ := sound state listed
    obtain ⟨after, within⟩ := reaches _ _ split
    rw [List.length_map] at after within
    refine ⟨rounds.map (·.1), _, ?_, ?_, matchesAll_repeated.mpr ⟨rounds, [], .empty,
      (List.append_nil _).symm, matched, .nil, fun _ _ _ _ there => (nomatch there), rfl⟩, ?_⟩
    · rw [count, after]
      exact split
    · rw [count]
      exact within
    · rw [Assignment.union_empty]
      exact extended
  · intro taken others assignment split matched
    obtain ⟨rounds, rest, second, rfl, each, none, _, rfl⟩ := matchesAll_repeated.mp matched
    obtain ⟨rfl, rfl⟩ := matchesAll_nil.mp none
    rw [List.append_nil] at split
    obtain ⟨after, within⟩ := reaches _ _ split
    rw [List.length_map] at after within
    obtain ⟨final, there, extended⟩ := complete rounds others split each
    rw [Assignment.union_empty]
    exact ⟨_, there, after, within, extended⟩

/-- The frontier of one entry completes with the matches of the items. -/
theorem completes {terms : List Term} {start : Bindings} (items : List Pattern)
    (fixed : ∀ item ∈ items, item.isFixedWidth = true → Searches ground reading item)
    (rounds : ∀ inner mode, .repeated inner mode ∈ items → Searches ground reading inner)
    (ready : start.Ready (.sequence items)) :
    ∀ (known : Assignment) (entry : Reached) (names : List Symbol),
      (∀ symbol, (known symbol).isSome = true ↔ symbol ∈ names) →
      start.Extends known entry.1 → entry.2 ≤ terms.length →
      (names ++ Pattern.occurrencesAll items).Nodup → Pattern.ScopedAll names items →
      Completes ground reading terms start items known entry := by
  induction items with
  | nil =>
    rintro known ⟨bindings, position⟩ names domain extended bound distinct ordered
    refine ⟨[(bindings, position)], rfl, ?_, ?_⟩
    · intro after listed
      obtain ⟨rfl, same⟩ := Prod.mk.inj (List.mem_singleton.mp listed)
      refine ⟨.empty, ?_, nofun, ?_⟩
      · rw [← same, List.drop_length]
        exact .nil
      · rw [Assignment.union_empty]
        exact extended
    · intro assignment all _
      obtain ⟨none, rfl⟩ := matchesAll_nil.mp all
      have reached : position = terms.length := by
        have none_left := List.drop_eq_nil_iff.mp none
        omega
      rw [Assignment.union_empty]
      exact ⟨bindings, by rw [reached]; exact List.mem_cons_self, extended⟩
  | cons item rest ih =>
    rintro known ⟨bindings, position⟩ names domain extended bound distinct ordered
    have later := ih (fun other listed => fixed other (List.mem_cons_of_mem _ listed))
      (fun inner mode listed => rounds inner mode (List.mem_cons_of_mem _ listed))
      ⟨ready.wellFormed, fun symbol listed =>
        ready.accepting symbol (List.mem_append_right _ listed), fun test listed =>
        ready.level test (List.mem_append_right _ listed)⟩
    rw [Pattern.occurrencesAll, ← List.append_assoc] at distinct
    -- The symbols of the item are still as they were before the sequence.
    have apart : ∀ symbol ∈ item.occurrences, known symbol = none ∧
        symbol ∉ Pattern.occurrencesAll rest := by
      intro symbol listed
      obtain ⟨front, _, disjoint⟩ := List.nodup_append.mp distinct
      refine ⟨?_, fun there => disjoint symbol (List.mem_append_right _ listed) symbol there rfl⟩
      cases found : known symbol with
      | none => rfl
      | some term =>
        have inside := (domain symbol).mp (by rw [found]; rfl)
        exact absurd rfl ((List.nodup_append.mp front).2.2 symbol inside symbol listed)
    have own : item.Scoped → bindings.Ready item := by
      intro inner
      refine ⟨extended.wellFormed, ?_, ?_⟩
      · intro symbol listed
        rw [extended.kept symbol (apart symbol listed).1]
        exact ready.accepting symbol (List.mem_append_left _ listed)
      · intro test listed
        obtain ⟨left, right⟩ := inner.occur test listed
        rw [extended.kept _ (apart _ left).1, extended.kept _ (apart _ right).1]
        exact ready.level test (List.mem_append_left _ listed)
    have resumes : item.isCheck = false →
        Pattern.ScopedAll (names ++ item.occurrences) rest →
        ∀ (state : Reached) assignment taken, state.2 ≤ terms.length →
        MatchesAll reading [item] taken assignment →
        start.Extends (known.union assignment) state.1 →
        Completes ground reading terms start rest (known.union assignment) state := by
      intro _ others state assignment taken reached matched grown
      refine later (known.union assignment) state (names ++ item.occurrences) ?_ grown reached
        distinct others
      intro symbol
      rw [Assignment.isSome_union, domain, matched.isSome_iff, List.mem_append,
        Pattern.occurrencesAll, Pattern.occurrencesAll, List.append_nil]
    cases item using Pattern.itemCases with
    | check test =>
      obtain ⟨left, right, others⟩ := Pattern.scopedAll_check.mp ordered
      obtain ⟨first, one⟩ := Option.isSome_iff_exists.mp ((domain _).mpr left)
      obtain ⟨second, two⟩ := Option.isSome_iff_exists.mp ((domain _).mpr right)
      have decides := Bindings.agree_iff extended one two
        (ready.level test (List.mem_append_left _ List.mem_cons_self))
      change bindings.agree test.left test.right = true ↔ _ at decides
      unfold Completes
      rw [Pattern.exhaustiveAll_check, advance_check, List.filter_cons, List.filter_nil]
      by_cases equal : first = second
      · obtain ⟨found, run, sound, complete⟩ :=
          later known (bindings, position) names domain extended bound
            (by simpa [Pattern.occurrences, Pattern.bindingSymbol?] using distinct) others
        rw [if_pos (decides.mpr equal)]
        refine ⟨found, run, ?_, ?_⟩
        · intro after listed
          obtain ⟨assignment, matched, tested, grown⟩ := sound after listed
          refine ⟨assignment, .check matched, ?_, grown⟩
          intro other there
          rcases List.mem_cons.mp there with same | later
          · cases same
            rw [equal] at one
            exact Assignment.Satisfies.union_left ⟨second, one, two⟩
          · exact tested other later
        · intro assignment matched tested
          exact complete assignment (matchesAll_check.mp matched)
            fun other there => tested other (List.mem_cons_of_mem _ there)
      · rw [if_neg fun holds => equal (decides.mp holds), advance_nil_frontier]
        refine ⟨[], rfl, nofun, ?_⟩
        intro assignment matched tested
        obtain ⟨term, three, four⟩ := tested test List.mem_cons_self
        rw [Assignment.union_eq_left one] at three
        rw [Assignment.union_eq_left two] at four
        cases three
        cases four
        exact absurd rfl equal
    | repeated inner mode =>
      obtain ⟨scope, others⟩ := (Pattern.scopedAll_item rfl).mp ordered
      change inner.Scoped at scope
      obtain ⟨next, run, sound, complete⟩ := advanceMany_exhaustive scope
        (rounds inner mode List.mem_cons_self) (own scope) bound
      refine completes_cons extended rfl apart ?_ run sound ?_ (resumes rfl others)
      · rw [Pattern.exhaustiveAll_repeated, advance_repeated, Pattern.boundSymbols_exhaustive]
      · exact fun taken others assignment split _ matched =>
          complete taken others assignment split matched
    | fixed item one =>
      have kept := Pattern.isCheck_of_isFixedWidth one
      obtain ⟨scope, others⟩ := (Pattern.scopedAll_item kept).mp ordered
      obtain ⟨next, run, sound, complete⟩ := advanceOne_exhaustive one
        (fixed item List.mem_cons_self one) (own scope) rest bound
      refine completes_cons extended kept apart ?_ run sound complete (resumes kept others)
      rw [← Pattern.fixedCount_exhaustiveAll, Pattern.exhaustiveAll,
        advance_item ground (by rw [Pattern.isFixedWidth_exhaustive, one])]

/-- Merging the matches of a context and of its contents extends bindings by both. -/
theorem exists_mergeBoth {context contents : Pattern} {checks : List Check} {bindings : Bindings}
    (ready : bindings.Ready (.inHole context contents checks))
    (distinct : (context.occurrences ++ contents.occurrences).Nodup)
    (ordered : ∀ test ∈ checks, test.left ∈ context.occurrences ++ contents.occurrences ∧
      test.right ∈ context.occurrences ++ contents.occurrences)
    {outer inner : Term} {first second : Assignment} {around within : Bindings}
    (one : Matches reading context outer first) (two : Matches reading contents inner second)
    (left : Bindings.empty.Extends first around) (right : Bindings.empty.Extends second within) :
    ∃ merged, bindings.mergeBoth around within = some merged ∧
      bindings.Extends (first.union second) merged ∧
      (merged.passes checks = true ↔ ∀ test ∈ checks, (first.union second).Satisfies test) := by
  obtain ⟨leftDone, leftTerms⟩ := left.finished
  obtain ⟨rightDone, rightTerms⟩ := right.finished
  have disjoint : ∀ symbol, (first symbol).isSome = true → second symbol = none := by
    intro symbol known
    cases found : second symbol with
    | none => rfl
    | some term =>
      have here := (one.isSome_iff symbol).mp known
      have there := (two.isSome_iff symbol).mp (by rw [found]; rfl)
      exact absurd rfl ((List.nodup_append.mp distinct).2.2 symbol here symbol there)
  obtain ⟨middle, firstRun, grown⟩ := Bindings.exists_merge ready.wellFormed
    left.wellFormed.sorted leftDone (by
      intro symbol known
      rw [leftTerms, one.isSome_iff] at known
      exact ready.accepting symbol (List.mem_append_left _ known))
  rw [leftTerms] at grown
  obtain ⟨merged, secondRun, more⟩ := Bindings.exists_merge grown.wellFormed
    right.wellFormed.sorted rightDone (by
      intro symbol known
      rw [rightTerms] at known
      have absent : first symbol = none := by
        cases found : first symbol with
        | none => rfl
        | some term =>
          rw [disjoint symbol (by rw [found]; rfl)] at known
          cases known
      rw [grown.kept symbol absent]
      exact ready.accepting symbol (List.mem_append_right _ ((two.isSome_iff symbol).mp known)))
  rw [rightTerms] at more
  have extended := grown.trans more disjoint
  refine ⟨merged, ?_, extended, ?_⟩
  · unfold Bindings.mergeBoth
    rw [firstRun]
    change (middle.merge within).toOption = _
    rw [secondRun]
    rfl
  · have each : ∀ test ∈ checks,
        (merged.agree test.left test.right = true ↔ (first.union second).Satisfies test) := by
      intro test listed
      have known : ∀ symbol ∈ context.occurrences ++ contents.occurrences,
          ∃ term, first.union second symbol = some term := by
        intro symbol there
        rw [← Option.isSome_iff_exists, Assignment.isSome_union, one.isSome_iff, two.isSome_iff]
        exact List.mem_append.mp there
      obtain ⟨leftTerm, three⟩ := known _ (ordered test listed).1
      obtain ⟨rightTerm, four⟩ := known _ (ordered test listed).2
      rw [Bindings.agree_iff extended three four
        (ready.level test (List.mem_append_right _ listed))]
      constructor
      · rintro rfl
        exact ⟨leftTerm, three, four⟩
      · rintro ⟨term, five, six⟩
        rw [three] at five
        rw [four] at six
        cases five
        cases six
        rfl
    unfold Bindings.passes
    rw [List.all_eq_true]
    exact ⟨fun all test listed => (each test listed).mp (all test listed),
      fun all test listed => (each test listed).mpr (all test listed)⟩

/-- The matches of a context and of its contents are combined in all ways that pass the checks. -/
theorem combine_exhaustive {context contents : Pattern} {checks : List Check} {bindings : Bindings}
    (ready : bindings.Ready (.inHole context contents checks))
    (distinct : (context.occurrences ++ contents.occurrences).Nodup)
    (ordered : ∀ test ∈ checks, test.left ∈ context.occurrences ++ contents.occurrences ∧
      test.right ∈ context.occurrences ++ contents.occurrences)
    {holed part : Term} {outer inner : List Bindings}
    (one : Answers reading context holed .empty outer)
    (two : Answers reading contents part .empty inner) :
    ∃ found, combine checks bindings outer inner = some found ∧
      (∀ after ∈ found, ∃ first second, Matches reading context holed first ∧
        Matches reading contents part second ∧
        (∀ test ∈ checks, (first.union second).Satisfies test) ∧
        bindings.Extends (first.union second) after) ∧
      ∀ first second, Matches reading context holed first → Matches reading contents part second →
        (∀ test ∈ checks, (first.union second).Satisfies test) →
        ∃ after ∈ found, bindings.Extends (first.union second) after := by
  -- What one pair of matches comes to.
  have pair : ∀ around ∈ outer, ∀ within ∈ inner, ∃ merged,
      bindings.mergeBoth around within = some merged ∧
      ∀ first second, Matches reading context holed first → Matches reading contents part second →
        Bindings.empty.Extends first around → Bindings.empty.Extends second within →
        bindings.Extends (first.union second) merged ∧
        (merged.passes checks = true ↔ ∀ test ∈ checks, (first.union second).Satisfies test) := by
    intro around listed within there
    obtain ⟨first, left, grown⟩ := one.sound around listed
    obtain ⟨second, right, more⟩ := two.sound within there
    obtain ⟨merged, run, _⟩ := exists_mergeBoth ready distinct ordered left right grown more
    refine ⟨merged, run, ?_⟩
    intro other another left right grown more
    obtain ⟨same, rerun, both⟩ := exists_mergeBoth ready distinct ordered left right grown more
    rw [run] at rerun
    cases rerun
    exact both
  have row : ∀ around ∈ outer, ∃ found, gather (fun within =>
      (bindings.mergeBoth around within).map fun merged =>
        if merged.passes checks then [merged] else []) inner = some found := by
    intro around listed
    refine exists_gather fun within there => ?_
    obtain ⟨merged, run, _⟩ := pair around listed within there
    rw [run]
    exact ⟨_, rfl⟩
  obtain ⟨found, gathered⟩ := exists_gather row
  have members : ∀ after, after ∈ found ↔ ∃ around ∈ outer, ∃ within ∈ inner, ∃ merged,
      bindings.mergeBoth around within = some merged ∧ merged.passes checks = true ∧
        after = merged := by
    intro after
    rw [mem_gather gathered]
    constructor
    · rintro ⟨around, listed, here, run, inside⟩
      obtain ⟨within, there, result, made, last⟩ := (mem_gather run).mp inside
      obtain ⟨merged, same, rfl⟩ := Option.map_eq_some_iff.mp made
      split at last
      · rename_i passed
        exact ⟨around, listed, within, there, merged, same, passed, List.mem_singleton.mp last⟩
      · cases last
    · rintro ⟨around, listed, within, there, merged, run, passed, same⟩
      subst same
      obtain ⟨here, rowRun⟩ := row around listed
      refine ⟨around, listed, here, rowRun, (mem_gather rowRun).mpr ⟨within, there, [after], ?_,
        List.mem_cons_self⟩⟩
      rw [run, Option.map_some, if_pos passed]
  refine ⟨found, gathered, ?_, ?_⟩
  · intro after listed
    obtain ⟨around, here, within, there, merged, run, passed, rfl⟩ := (members after).mp listed
    obtain ⟨first, left, grown⟩ := one.sound around here
    obtain ⟨second, right, more⟩ := two.sound within there
    obtain ⟨other, same, both⟩ := pair around here within there
    rw [run] at same
    cases same
    obtain ⟨extended, decides⟩ := both first second left right grown more
    exact ⟨first, second, left, right, decides.mp passed, extended⟩
  · intro first second left right tested
    obtain ⟨around, here, grown⟩ := one.complete first left
    obtain ⟨within, there, more⟩ := two.complete second right
    obtain ⟨merged, run, both⟩ := pair around here within there
    obtain ⟨extended, decides⟩ := both first second left right grown more
    exact ⟨merged, (members merged).mpr
      ⟨around, here, within, there, merged, run, decides.mpr tested, rfl⟩, extended⟩

/-- The results of taking a term apart are the extensions by the matches of the `in-hole`. -/
theorem searches_inHole {context contents : Pattern} {checks : List Check}
    (around : Searches ground reading context) (within : Searches ground reading contents)
    (distinct : (context.occurrences ++ contents.occurrences).Nodup)
    (ordered : ∀ test ∈ checks, test.left ∈ context.occurrences ++ contents.occurrences ∧
      test.right ∈ context.occurrences ++ contents.occurrences) :
    Searches ground reading (.inHole context contents checks) := by
  intro term bindings ready
  rw [Pattern.exhaustive, visit_inHole]
  -- One place of the term, with or without a match of the contents there.
  have place : ∀ found ∈ term.subterms, ∃ results,
      ((visit ground contents.exhaustive found.2 .empty).bind fun inner =>
        if inner.isEmpty then some []
        else
          (term.replace? found.1 .hole).bind fun holed =>
            (visit ground context.exhaustive holed .empty).bind fun outer =>
              combine checks bindings outer inner) = some results ∧
      (∀ after ∈ results, ∃ holed first second, term.replace? found.1 .hole = some holed ∧
        Matches reading context holed first ∧ Matches reading contents found.2 second ∧
        (∀ test ∈ checks, (first.union second).Satisfies test) ∧
        bindings.Extends (first.union second) after) ∧
      ∀ holed first second, term.replace? found.1 .hole = some holed →
        Matches reading context holed first → Matches reading contents found.2 second →
        (∀ test ∈ checks, (first.union second).Satisfies test) →
        ∃ after ∈ results, bindings.Extends (first.union second) after := by
    rintro ⟨path, part⟩ listed
    obtain ⟨inner, innerRun, two⟩ := within part .empty (Bindings.ready_empty _)
    rw [innerRun, Option.bind_some]
    by_cases empty : inner = []
    · subst empty
      refine ⟨[], rfl, List.forall_mem_nil _, ?_⟩
      intro holed first second _ _ right _
      obtain ⟨after, there, _⟩ := two.complete second right
      cases there
    · rw [List.isEmpty_eq_false_iff.mpr empty, if_neg Bool.false_ne_true]
      obtain ⟨holed, cut⟩ := (Term.exists_replace?_iff .hole).mpr ⟨part, Term.mem_subterms.mp listed⟩
      obtain ⟨outer, outerRun, one⟩ := around holed .empty (Bindings.ready_empty _)
      obtain ⟨results, run, sound, complete⟩ := combine_exhaustive ready distinct ordered one two
      rw [cut, Option.bind_some, outerRun, Option.bind_some]
      refine ⟨results, run, ?_, ?_⟩
      · intro after there
        obtain ⟨first, second, left, right, tested, extended⟩ := sound after there
        exact ⟨holed, first, second, rfl, left, right, tested, extended⟩
      · intro other first second same left right tested
        cases same
        exact complete first second left right tested
  obtain ⟨found, gathered⟩ := exists_gather fun entry listed =>
    (place entry listed).imp fun _ facts => facts.1
  refine ⟨found, gathered, ?_, ?_⟩
  · intro after listed
    obtain ⟨⟨path, part⟩, there, results, run, inside⟩ := (mem_gather gathered).mp listed
    obtain ⟨same, rerun, sound, _⟩ := place (path, part) there
    rw [run] at rerun
    cases rerun
    obtain ⟨holed, first, second, cut, left, right, tested, extended⟩ := sound after inside
    have agree := agrees_of_occurrences left.isSome_iff right.isSome_iff distinct
    exact ⟨first.union second, .inHole left right ⟨path, Term.mem_subterms.mp there, cut⟩ agree
      tested, extended⟩
  · intro assignment matched
    obtain ⟨outer, inner, first, second, left, right, ⟨path, reached, cut⟩, _, tested, rfl⟩ :=
      matches_inHole.mp matched
    have there : (path, inner) ∈ term.subterms := Term.mem_subterms.mpr reached
    obtain ⟨results, run, _, complete⟩ := place (path, inner) there
    obtain ⟨after, inside, extended⟩ := complete outer first second cut left right tested
    exact ⟨after, (mem_gather gathered).mpr ⟨_, there, results, run, inside⟩, extended⟩

/-- A sequence without repetitions has exactly one term for every item of fixed width. -/
theorem MatchesAll.length_eq {items : List Pattern} {terms : List Term} {assignment : Assignment} :
    MatchesAll reading items terms assignment → Matcher.isOpen items = false →
    terms.length = Matcher.fixedCount items
  | .nil, _ => rfl
  | .check others, closed => by
    rw [fixedCount_cons, if_neg nofun]
    exact MatchesAll.length_eq others closed
  | .item fixed _ others _, closed => by
    rw [fixedCount_cons, if_pos fixed, List.length_cons]
    unfold Matcher.isOpen at closed
    rw [List.any_cons, Bool.or_eq_false_iff] at closed
    rw [MatchesAll.length_eq others closed.2]
  | .repeated .., closed => nomatch closed

/-- The length of a sequence that matches is long enough. -/
theorem MatchesAll.longEnough {items : List Pattern} {terms : List Term} {assignment : Assignment}
    (all : MatchesAll reading items terms assignment) : longEnough items terms.length = true := by
  unfold Reduct.longEnough
  cases shape : Matcher.isOpen items with
  | true =>
    have count := all.fixedCount_le
    rw [if_pos rfl, decide_eq_true_eq]
    unfold capped
    omega
  | false =>
    rw [if_neg Bool.false_ne_true, decide_eq_true_eq, all.length_eq shape]

/-- The results of a search over a sequence are the extensions by the matches of its items. -/
theorem searches_sequence {items : List Pattern}
    (fixed : ∀ item ∈ items, item.isFixedWidth = true → Searches ground reading item)
    (rounds : ∀ inner mode, .repeated inner mode ∈ items → Searches ground reading inner)
    (distinct : (Pattern.occurrencesAll items).Nodup) (ordered : Pattern.ScopedAll [] items) :
    Searches ground reading (.sequence items) := by
  intro term bindings ready
  rw [Pattern.exhaustive]
  cases term with
  | atom _ | hole =>
    refine ⟨[], visit_sequence_other ground (by nofun) bindings, nofun, ?_⟩
    intro assignment matched
    obtain ⟨_, same, _⟩ := matches_sequence.mp matched
    cases same
  | sequence terms =>
    have long : longEnough (Pattern.exhaustiveAll items) terms.length =
        longEnough items terms.length := by
      unfold longEnough
      rw [Pattern.isOpen_exhaustiveAll, Pattern.fixedCount_exhaustiveAll]
    rw [visit_sequence, long]
    by_cases enough : longEnough items terms.length = true
    · rw [if_pos enough]
      obtain ⟨found, run, sound, complete⟩ := completes items fixed rounds ready .empty (bindings, 0)
        [] (fun _ => ⟨nofun, nofun⟩) (.refl ready.wellFormed) (Nat.zero_le _) distinct ordered
      rw [run]
      refine ⟨finals terms.length found, rfl, ?_, ?_⟩
      · intro after listed
        obtain ⟨assignment, all, tested, extended⟩ := sound after (mem_finals.mp listed)
        exact ⟨assignment, matches_sequence.mpr ⟨terms, rfl, all, tested⟩, extended⟩
      · intro assignment matched
        obtain ⟨same, equal, all, tested⟩ := matches_sequence.mp matched
        cases equal
        obtain ⟨after, listed, extended⟩ := complete assignment all tested
        exact ⟨after, mem_finals.mpr listed, extended⟩
    · rw [if_neg enough]
      refine ⟨[], rfl, nofun, ?_⟩
      intro assignment matched
      obtain ⟨_, same, all, _⟩ := matches_sequence.mp matched
      cases same
      exact absurd all.longEnough enough

/-- A leaf extends bindings if its term passes the test. -/
theorem searches_leaf {leaf : Pattern} {term : Term} {bindings : Bindings}
    (leafy : leaf.isLeaf = true) {assignment : Assignment}
    (decides : ∀ other, Matches reading leaf term other ↔
      ground.admits leaf term = true ∧ other = assignment)
    (binds : ∃ after, bindings.bindLeaf leaf term = some after ∧
      bindings.Extends assignment after) :
    ∃ found, visit ground leaf.exhaustive term bindings = some found ∧
      Answers reading leaf term bindings found := by
  have same : leaf.exhaustive = leaf := by
    cases leaf with
    | literal _ | nonTerminal _ _ | builtIn _ _ => rfl
    | _ => cases leafy
  rw [same, visit_leaf ground leafy]
  by_cases admitted : ground.admits leaf term = true
  · obtain ⟨after, run, extended⟩ := binds
    rw [if_pos admitted, run]
    refine ⟨[after], rfl, ?_, ?_⟩
    · intro other listed
      rw [List.mem_singleton.mp listed]
      exact ⟨assignment, (decides assignment).mpr ⟨admitted, rfl⟩, extended⟩
    · intro other matched
      rw [((decides other).mp matched).2]
      exact ⟨after, List.mem_cons_self, extended⟩
  · rw [if_neg admitted]
    exact ⟨[], rfl, nofun, fun other matched => absurd ((decides other).mp matched).1 admitted⟩

theorem searches_literal (value : Atom) : Searches ground reading (.literal value) := by
  intro term bindings ready
  refine searches_leaf rfl ?_ ⟨bindings, rfl, .refl ready.wellFormed⟩
  intro other
  constructor
  · rintro ⟨⟩
    exact ⟨decide_eq_true rfl, rfl⟩
  · rintro ⟨admitted, rfl⟩
    rw [of_decide_eq_true admitted]
    exact .literal

theorem searches_nonTerminal (reads : ground.Reads reading) (stem symbol : Symbol) :
    Searches ground reading (.nonTerminal stem symbol) := by
  intro term bindings ready
  obtain ⟨after, run, extended⟩ :=
    Bindings.exists_add ready.wellFormed (ready.accepting symbol List.mem_cons_self) term
  refine searches_leaf rfl ?_ ⟨after, ?_, extended⟩
  · intro other
    constructor
    · rintro ⟨⟩
      rename_i derived
      exact ⟨(reads.accepts stem term).mpr derived, rfl⟩
    · rintro ⟨admitted, rfl⟩
      exact .nonTerminal ((reads.accepts stem term).mp admitted)
  · change (bindings.add symbol term).toOption = _
    rw [run]
    rfl

theorem searches_builtIn (reads : ground.Reads reading) (kind : BuiltIn) (symbol : Symbol) :
    Searches ground reading (.builtIn kind symbol) := by
  intro term bindings ready
  have decides : ∀ other, Matches reading (.builtIn kind symbol) term other ↔
      ground.admits (.builtIn kind symbol) term = true ∧
        other = if kind.isBindable then .single symbol term else .empty := by
    intro other
    change _ ↔ kind.holdsOf ground.mentioned term = true ∧ _
    rw [reads.mentioned]
    constructor
    · rintro ⟨⟩
      rename_i passed
      exact ⟨passed, rfl⟩
    · rintro ⟨passed, rfl⟩
      exact .builtIn passed
  refine searches_leaf rfl decides ?_
  cases bindable : kind.isBindable with
  | true =>
    have listed : symbol ∈ (Pattern.builtIn kind symbol).occurrences := by
      simp [Pattern.occurrences, Pattern.bindingSymbol?, bindable]
    obtain ⟨after, run, extended⟩ :=
      Bindings.exists_add ready.wellFormed (ready.accepting symbol listed) term
    refine ⟨after, ?_, extended⟩
    unfold Bindings.bindLeaf Pattern.bindingSymbol?
    simp only [bindable, if_true, run]
    rfl
  | false =>
    refine ⟨bindings, ?_, .refl ready.wellFormed⟩
    unfold Bindings.bindLeaf Pattern.bindingSymbol?
    simp only [bindable]
    rfl

theorem nodup_occurrences_of_mem {items : List Pattern} {item : Pattern} (listed : item ∈ items)
    (distinct : (Pattern.occurrencesAll items).Nodup) : item.occurrences.Nodup := by
  induction items with
  | nil => cases listed
  | cons first rest ih =>
    obtain ⟨here, there, _⟩ := List.nodup_append.mp distinct
    rcases List.mem_cons.mp listed with rfl | later
    · exact here
    · exact ih later there

theorem Pattern.ScopedAll.of_mem {items : List Pattern} {item : Pattern} {known : List Symbol}
    (ordered : Pattern.ScopedAll known items) (listed : item ∈ items)
    (kept : item.isCheck = false) : item.Scoped := by
  induction items generalizing known with
  | nil => cases listed
  | cons first rest ih =>
    by_cases check : first.isCheck = true
    · cases first with
      | check test =>
        rcases List.mem_cons.mp listed with rfl | later
        · cases kept
        · exact ih (Pattern.scopedAll_check.mp ordered).2.2 later
      | _ => cases check
    · obtain ⟨here, others⟩ :=
        (Pattern.scopedAll_item (Bool.eq_false_iff.mpr check)).mp ordered
      rcases List.mem_cons.mp listed with rfl | later
      · exact here
      · exact ih others later

/-- The exhaustive search with a pattern that binds every symbol once, and compares symbols only
after they are bound, finds exactly the matches of the pattern. -/
theorem searches (reads : ground.Reads reading) {pattern : Pattern}
    (placed : pattern.isPlaced = true) :
    pattern.occurrences.Nodup → pattern.Scoped → Searches ground reading pattern := by
  refine Pattern.placedInduction (motive := fun pattern => pattern.occurrences.Nodup →
    pattern.Scoped → Searches ground reading pattern) ?_ ?_ ?_ ?_ ?_ pattern placed
  · exact fun value _ _ => searches_literal value
  · exact fun stem symbol _ _ => searches_nonTerminal reads stem symbol
  · exact fun kind symbol _ _ => searches_builtIn reads kind symbol
  · intro items fixed rounds distinct ordered
    refine searches_sequence ?_ ?_ distinct ordered
    · intro item listed one
      exact fixed item listed one (nodup_occurrences_of_mem listed distinct)
        (Pattern.ScopedAll.of_mem ordered listed (Pattern.isCheck_of_isFixedWidth one))
    · intro inner mode listed
      have scope : (Pattern.repeated inner mode).Scoped :=
        Pattern.ScopedAll.of_mem ordered listed rfl
      have apart : (Pattern.repeated inner mode).occurrences.Nodup :=
        nodup_occurrences_of_mem listed distinct
      exact rounds inner mode listed apart scope
  · intro context contents checks around within distinct ordered
    obtain ⟨outer, inner, own⟩ := ordered
    obtain ⟨left, right, _⟩ := List.nodup_append.mp distinct
    exact searches_inHole (around left outer) (within right inner) distinct own

end Search

end Reduct
