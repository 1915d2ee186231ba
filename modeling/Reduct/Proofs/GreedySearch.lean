import Reduct.Proofs.Disjointness

/-!
# Greedy repetitions lose nothing

A repetition is greedy only where nothing that it could take can also start what follows. The
bindings after fewer rounds than it takes are then dead: the items after it fail from there on,
because the next term is one that the repetition takes. So the search with the modes chosen has
the results of the exhaustive search, in the same order and multiplicity.
-/

namespace Reduct

/-- A pattern describes the term wherever the search with it has a result. -/
def FindsOnly (ground : Ground) (reading : Reading) (pattern : Pattern) : Prop :=
  ∀ term bindings found, visit ground pattern term bindings = some found →
    ∀ after ∈ found, Fits reading pattern term

section Soundness

variable {ground : Ground} {reading : Reading}

/-- A repetition reaches only positions behind terms that its inner pattern describes. -/
theorem exploreLevels_finds {inner : Pattern} {mode : RepeatMode}
    (finds : FindsOnly ground reading inner) (terms : List Term) :
    ∀ (position : Nat) (level : List Bindings) (reached : List Reached),
      exploreLevels mode (visit ground inner) position terms level = some reached →
      ∀ state ∈ reached, ∃ taken others, terms = taken ++ others ∧
        (∀ term ∈ taken, Fits reading inner term) ∧ state.2 = position + taken.length := by
  induction terms with
  | nil =>
    intro position level reached run state listed
    cases run
    obtain ⟨start, there, rfl⟩ := List.mem_map.mp listed
    exact ⟨[], [], rfl, nofun, rfl⟩
  | cons term rest ih =>
    intro position level reached run state listed
    rw [exploreLevels] at run
    obtain ⟨next, gathered, continued⟩ := Option.bind_eq_some_iff.mp run
    have stays : ∀ state ∈ level.map (·, position), ∃ taken others, term :: rest = taken ++ others ∧
        (∀ term ∈ taken, Fits reading inner term) ∧ state.2 = position + taken.length := by
      intro state listed
      obtain ⟨start, there, rfl⟩ := List.mem_map.mp listed
      exact ⟨[], term :: rest, rfl, nofun, rfl⟩
    split at continued
    · cases continued
      exact stays state listed
    · rename_i some
      obtain ⟨others, later, made⟩ := Option.map_eq_some_iff.mp continued
      have described : Fits reading inner term := by
        obtain ⟨after, there⟩ := List.exists_mem_of_ne_nil next fun none => some (by rw [none]; rfl)
        obtain ⟨start, _, found, searched, inside⟩ := (mem_gather gathered).mp there
        exact finds term start found searched after inside
      have onward : ∀ state ∈ others, ∃ taken others, term :: rest = taken ++ others ∧
          (∀ term ∈ taken, Fits reading inner term) ∧ state.2 = position + taken.length := by
        intro state there
        obtain ⟨taken, remaining, split, fits, count⟩ := ih _ _ _ later state there
        refine ⟨term :: taken, remaining, by rw [split]; rfl, ?_, ?_⟩
        · intro other inside
          rcases List.mem_cons.mp inside with rfl | there
          · exact described
          · exact fits other there
        · rw [count, List.length_cons]
          omega
      cases mode with
      | exhaustive =>
        rw [← made] at listed
        rcases List.mem_append.mp listed with here | there
        · exact stays state here
        · exact onward state there
      | greedy =>
        rw [← made] at listed
        exact onward state listed

/-- Items describe the terms that a frontier takes to the end. -/
theorem advance_finds {terms : List Term} (items : List Pattern)
    (fixed : ∀ item ∈ items, item.isFixedWidth = true → FindsOnly ground reading item)
    (rounds : ∀ inner mode, .repeated inner mode ∈ items → FindsOnly ground reading inner) :
    ∀ (entry : Reached) (found : List Reached), entry.2 ≤ terms.length →
      advance ground terms items [entry] = some found →
      ∀ after, (after, terms.length) ∈ found → FitsAll reading items (terms.drop entry.2) := by
  induction items with
  | nil =>
    intro entry found bound run after listed
    cases run
    rw [← List.mem_singleton.mp listed, List.drop_length]
    exact .nil
  | cons item rest ih =>
    intro entry found bound run after listed
    have later := ih (fun other inside => fixed other (List.mem_cons_of_mem _ inside))
      (fun inner mode inside => rounds inner mode (List.mem_cons_of_mem _ inside))
    -- A step of the entry, and the entry of the next frontier that comes to the result.
    have steps : ∀ step : Reached → Option (List Reached),
        (gather step [entry]).bind (advance ground terms rest) = some found →
        ∃ next state here, step entry = some next ∧ state ∈ next ∧
          advance ground terms rest [state] = some here ∧ (after, terms.length) ∈ here := by
      intro step moved
      obtain ⟨next, stepped, moved⟩ := Option.bind_eq_some_iff.mp moved
      obtain ⟨here, none, one, two, rfl⟩ := gather_cons_eq_some.mp stepped
      cases two
      rw [List.append_nil, advance_eq_gather] at moved
      obtain ⟨state, there, result, run, inside⟩ := (mem_gather moved).mp listed
      exact ⟨here, state, result, one, there, run, inside⟩
    cases item using Pattern.itemCases with
    | check test =>
      rw [advance_check, List.filter_cons, List.filter_nil] at run
      split at run
      · exact .check (later entry found bound run after listed)
      · rw [advance_nil_frontier] at run
        cases run
        cases listed
    | repeated inner mode =>
      rw [advance_repeated] at run
      obtain ⟨next, state, here, stepped, there, moved, inside⟩ := steps _ run
      unfold repetition at stepped
      obtain ⟨start, opened, explored⟩ := Option.bind_eq_some_iff.mp stepped
      obtain ⟨reached, explored, closed⟩ := Option.bind_eq_some_iff.mp explored
      obtain ⟨origin, from_, result, made, last⟩ := (mem_gather closed).mp there
      obtain ⟨finished, _, rfl⟩ := Option.map_eq_some_iff.mp made
      rw [List.mem_singleton.mp last] at moved
      obtain ⟨taken, others, split, fits, count⟩ := exploreLevels_finds
        (rounds inner mode List.mem_cons_self) _ _ _ _ explored origin from_
      have drop : terms.drop origin.2 = others := by
        rw [count, ← List.drop_drop, split, List.drop_left]
      have within : origin.2 ≤ terms.length := by
        have total := congrArg List.length split
        rw [List.length_drop, List.length_append] at total
        omega
      rw [split]
      refine .repeated fits ?_
      rw [← drop]
      exact later (finished, origin.2) here within moved after inside
    | fixed item one =>
      rw [advance_item ground one] at run
      obtain ⟨next, state, here, stepped, there, moved, inside⟩ := steps _ run
      unfold advanceOne at stepped
      split at stepped
      · split at stepped
        · rename_i term at_
          obtain ⟨results, searched, rfl⟩ := Option.map_eq_some_iff.mp stepped
          obtain ⟨finished, found, rfl⟩ := List.mem_map.mp there
          obtain ⟨within, same⟩ := List.getElem?_eq_some_iff.mp at_
          rw [List.drop_eq_getElem_cons within, same]
          exact .item one (fixed item List.mem_cons_self one term _ _ searched _ found)
            (later (finished, entry.2 + 1) here within moved after inside)
        · cases stepped
          cases there
      · cases stepped
        cases there

theorem findsOnly_leaf {leaf : Pattern} (leafy : leaf.isLeaf = true)
    (passes : ∀ term, ground.admits leaf term = true → Fits reading leaf term) :
    FindsOnly ground reading leaf := by
  intro term bindings found run after listed
  rw [visit_leaf ground leafy] at run
  split at run
  · rename_i admitted
    exact passes term admitted
  · cases run
    cases listed

/-- The search with a pattern has results only for terms that the pattern describes. -/
theorem findsOnly (reads : ground.Reads reading) {pattern : Pattern}
    (placed : pattern.isPlaced = true) : FindsOnly ground reading pattern := by
  refine Pattern.placedInduction (motive := FindsOnly ground reading) ?_ ?_ ?_ ?_ ?_ pattern placed
  · intro value
    refine findsOnly_leaf rfl fun term admitted => ?_
    rw [of_decide_eq_true admitted]
    exact .literal
  · intro stem symbol
    refine findsOnly_leaf rfl fun term admitted => ?_
    exact .nonTerminal ((reads.accepts stem term).mp admitted)
  · intro kind symbol
    refine findsOnly_leaf rfl fun term admitted => ?_
    change kind.holdsOf ground.mentioned term = true at admitted
    rw [reads.mentioned] at admitted
    exact .builtIn admitted
  · intro items fixed rounds term bindings found run after listed
    cases term with
    | atom _ | hole =>
      rw [visit_sequence_other ground (by nofun)] at run
      cases run
      cases listed
    | sequence terms =>
      rw [visit_sequence] at run
      split at run
      · obtain ⟨last, moved, rfl⟩ := Option.map_eq_some_iff.mp run
        exact .sequence (advance_finds items fixed rounds (bindings, 0) last (Nat.zero_le _) moved
          after (mem_finals.mp listed))
      · cases run
        cases listed
  · intro context contents checks around within term bindings found run after listed
    rw [visit_inHole] at run
    obtain ⟨⟨path, part⟩, there, results, searched, inside⟩ := (mem_gather run).mp listed
    obtain ⟨inner, innerRun, rest⟩ := Option.bind_eq_some_iff.mp searched
    split at rest
    · cases rest
      cases inside
    · rename_i some
      obtain ⟨holed, cut, rest⟩ := Option.bind_eq_some_iff.mp rest
      obtain ⟨outer, outerRun, combined⟩ := Option.bind_eq_some_iff.mp rest
      obtain ⟨first, here, _, _, _⟩ := (mem_gather combined).mp inside
      obtain ⟨second, hit⟩ := List.exists_mem_of_ne_nil inner fun none => some (by rw [none]; rfl)
      exact .inHole (around holed _ _ outerRun first here) (within part _ _ innerRun second hit)
        ⟨path, Term.mem_subterms.mp there, cut⟩

end Soundness

namespace Pattern

variable (closures : Closures) (mentioned : SymbolSet)

theorem chooseModes_cons {item : Pattern} (rest : List Pattern)
    (other : ∀ inner mode, item ≠ .repeated inner mode) :
    chooseModes closures mentioned (item :: rest) = item :: chooseModes closures mentioned rest := by
  cases item with
  | repeated inner mode => exact absurd rfl (other inner mode)
  | _ =>
    rw [chooseModes]
    simp

theorem isFixedWidth_classify (pattern : Pattern) :
    (pattern.classify closures mentioned).isFixedWidth = pattern.isFixedWidth := by
  cases pattern <;> rfl

mutual

theorem occurrences_classify : (pattern : Pattern) →
    (pattern.classify closures mentioned).occurrences = pattern.occurrences
  | .sequence items => by
    rw [classify, occurrences, occurrences, occurrencesAll_chooseModes,
      occurrencesAll_classifyAll items]
  | .repeated inner _ => occurrences_classify inner
  | .inHole context contents _ => by
    rw [classify, occurrences, occurrences, occurrences_classify context,
      occurrences_classify contents]
  | .literal _ | .nonTerminal .. | .builtIn .. | .check _ | .unresolved _ => rfl

theorem occurrencesAll_classifyAll : (items : List Pattern) →
    occurrencesAll (classifyAll closures mentioned items) = occurrencesAll items
  | [] => rfl
  | item :: rest => by
    rw [classifyAll, occurrencesAll, occurrencesAll, occurrences_classify item,
      occurrencesAll_classifyAll rest]

theorem occurrencesAll_chooseModes : (items : List Pattern) →
    occurrencesAll (chooseModes closures mentioned items) = occurrencesAll items
  | [] => rfl
  | .repeated inner mode :: rest => by
    rw [chooseModes, occurrencesAll, occurrencesAll, occurrencesAll_chooseModes rest]
    rfl
  | .literal _ :: rest | .nonTerminal .. :: rest | .builtIn .. :: rest | .sequence _ :: rest
  | .inHole .. :: rest | .check _ :: rest | .unresolved _ :: rest => by
    rw [chooseModes_cons closures mentioned rest (by nofun), occurrencesAll, occurrencesAll,
      occurrencesAll_chooseModes rest]

end

theorem boundSymbols_classify (pattern : Pattern) :
    (pattern.classify closures mentioned).boundSymbols = pattern.boundSymbols := by
  rw [boundSymbols, boundSymbols, occurrences_classify]

/-- Choosing modes keeps the number of items that take one term, and whether some repeats. -/
theorem shape_chosen (items : List Pattern) :
    Matcher.fixedCount (chooseModes closures mentioned (classifyAll closures mentioned items)) =
        Matcher.fixedCount items ∧
      Matcher.isOpen (chooseModes closures mentioned (classifyAll closures mentioned items)) =
        Matcher.isOpen items := by
  induction items with
  | nil => exact ⟨rfl, rfl⟩
  | cons item rest ih =>
    rw [classifyAll]
    unfold Matcher.isOpen at ih ⊢
    cases item with
    | repeated inner mode =>
      rw [classify, chooseModes, fixedCount_cons, fixedCount_cons, ih.1]
      exact ⟨rfl, rfl⟩
    | _ =>
      rw [chooseModes_cons closures mentioned _ (by nofun), fixedCount_cons, fixedCount_cons, ih.1,
        isFixedWidth_classify, List.any_cons, List.any_cons, ih.2]
      exact ⟨rfl, rfl⟩

mutual

theorem skeleton_exhaustive : (pattern : Pattern) →
    pattern.exhaustive.skeleton = pattern.skeleton
  | .sequence items => by
    rw [exhaustive, skeleton, skeleton, skeletonAll_exhaustiveAll items]
  | .repeated inner _ => by rw [exhaustive, skeleton, skeleton, skeleton_exhaustive inner]
  | .inHole context contents _ => by
    rw [exhaustive, skeleton, skeleton, skeleton_exhaustive context, skeleton_exhaustive contents]
  | .literal _ | .nonTerminal .. | .builtIn .. | .check _ | .unresolved _ => rfl

theorem skeletonAll_exhaustiveAll : (items : List Pattern) →
    skeletonAll (exhaustiveAll items) = skeletonAll items
  | [] => rfl
  | item :: rest => by
    rw [exhaustiveAll]
    cases item with
    | check test => exact skeletonAll_exhaustiveAll rest
    | _ =>
      rw [skeletonAll_cons rfl, skeletonAll_cons rfl, skeleton_exhaustive,
        skeletonAll_exhaustiveAll rest]

end

mutual

theorem exhaustive_exhaustive : (pattern : Pattern) →
    pattern.exhaustive.exhaustive = pattern.exhaustive
  | .sequence items => by rw [exhaustive, exhaustive, exhaustiveAll_exhaustiveAll items]
  | .repeated inner _ => by rw [exhaustive, exhaustive, exhaustive_exhaustive inner]
  | .inHole context contents _ => by
    rw [exhaustive, exhaustive, exhaustive_exhaustive context, exhaustive_exhaustive contents]
  | .literal _ | .nonTerminal .. | .builtIn .. | .unresolved _ | .check _ => rfl

theorem exhaustiveAll_exhaustiveAll : (items : List Pattern) →
    exhaustiveAll (exhaustiveAll items) = exhaustiveAll items
  | [] => rfl
  | item :: rest => by
    rw [exhaustiveAll, exhaustiveAll, exhaustive_exhaustive item, exhaustiveAll_exhaustiveAll rest]

end

theorem exhaustiveAll_chooseModes (items : List Pattern) :
    exhaustiveAll (chooseModes closures mentioned items) = exhaustiveAll items := by
  induction items with
  | nil => rfl
  | cons item rest ih =>
    cases item with
    | repeated inner mode => rw [chooseModes, exhaustiveAll_repeated, exhaustiveAll_repeated, ih]
    | _ =>
      rw [chooseModes_cons closures mentioned rest (by nofun), exhaustiveAll, exhaustiveAll, ih]

mutual

/-- Choosing modes changes nothing but modes. -/
theorem exhaustive_classify : (pattern : Pattern) →
    (pattern.classify closures mentioned).exhaustive = pattern.exhaustive
  | .sequence items => by
    rw [classify, exhaustive, exhaustive, exhaustiveAll_chooseModes,
      exhaustiveAll_classifyAll items]
  | .repeated inner _ => by rw [classify, exhaustive, exhaustive, exhaustive_classify inner]
  | .inHole context contents _ => by
    rw [classify, exhaustive, exhaustive, exhaustive_classify context,
      exhaustive_classify contents]
  | .literal _ | .nonTerminal .. | .builtIn .. | .unresolved _ | .check _ => rfl

theorem exhaustiveAll_classifyAll : (items : List Pattern) →
    exhaustiveAll (classifyAll closures mentioned items) = exhaustiveAll items
  | [] => rfl
  | item :: rest => by
    rw [classifyAll, exhaustiveAll, exhaustiveAll, exhaustive_classify item,
      exhaustiveAll_classifyAll rest]

end

theorem isPlaced_exhaustive (pattern : Pattern) :
    pattern.exhaustive.isPlaced = pattern.isPlaced := by
  rw [← isPlaced_skeleton, skeleton_exhaustive, isPlaced_skeleton]

theorem isPlaced_classify (pattern : Pattern) :
    (pattern.classify closures mentioned).isPlaced = pattern.isPlaced := by
  rw [← isPlaced_skeleton, skeleton_classify, isPlaced_skeleton]

end Pattern

section Comparison

/-- Searches that have results wherever others have, and the same ones, gather the same. -/
theorem gather_mono {α β : Type} {first second : α → Option (List β)} {entries : List α}
    (same : ∀ entry ∈ entries, ∀ found, first entry = some found → second entry = some found)
    {found : List β} (gathered : gather first entries = some found) :
    gather second entries = some found := by
  induction entries generalizing found with
  | nil => exact gathered
  | cons entry rest ih =>
    obtain ⟨here, others, one, two, rfl⟩ := gather_cons_eq_some.mp gathered
    exact gather_cons_eq_some.mpr ⟨here, others, same entry List.mem_cons_self here one,
      ih (fun other listed => same other (List.mem_cons_of_mem _ listed)) two, rfl⟩

variable {ground : Ground} {reading : Reading} {closures : Closures} {mentioned : SymbolSet}

/-- The search with the modes chosen has the results of the exhaustive one. -/
def Preserves (ground : Ground) (closures : Closures) (mentioned : SymbolSet) (pattern : Pattern) :
    Prop :=
  ∀ term bindings found, visit ground pattern.exhaustive term bindings = some found →
    visit ground (pattern.classify closures mentioned) term bindings = some found

/-- A greedy repetition reaches the last level of an exhaustive one. On the earlier levels the next
term is one that the inner pattern describes. -/
theorem exploreLevels_greedy {inner chosen : Pattern} (finds : FindsOnly ground reading chosen)
    (same : ∀ term bindings found, visit ground inner term bindings = some found →
      visit ground chosen term bindings = some found) (terms : List Term) :
    ∀ (position : Nat) (level : List Bindings) (reached : List Reached),
      exploreLevels .exhaustive (visit ground inner) position terms level = some reached →
      ∃ earlier last, reached = earlier ++ last ∧
        exploreLevels .greedy (visit ground chosen) position terms level = some last ∧
        ∀ state ∈ earlier, ∃ before term after, terms = before ++ term :: after ∧
          state.2 = position + before.length ∧ Fits reading chosen term := by
  induction terms with
  | nil =>
    intro position level reached run
    exact ⟨[], reached, rfl, run, nofun⟩
  | cons term rest ih =>
    intro position level reached run
    rw [exploreLevels] at run
    obtain ⟨next, gathered, continued⟩ := Option.bind_eq_some_iff.mp run
    have again : gather (visit ground chosen term) level = some next :=
      gather_mono (fun start _ found => same term start found) gathered
    rw [exploreLevels, again, Option.bind_some]
    split at continued
    · rename_i none
      cases continued
      exact ⟨[], _, rfl, if_pos none, nofun⟩
    · rename_i some
      obtain ⟨others, later, rfl⟩ := Option.map_eq_some_iff.mp continued
      obtain ⟨earlier, last, rfl, greedy, dead⟩ := ih _ _ _ later
      have described : Fits reading chosen term := by
        obtain ⟨after, there⟩ := List.exists_mem_of_ne_nil next fun none => some (by rw [none]; rfl)
        obtain ⟨start, _, found, searched, inside⟩ := (mem_gather again).mp there
        exact finds term start found searched after inside
      refine ⟨level.map (·, position) ++ earlier, last, (List.append_assoc _ _ _).symm, ?_, ?_⟩
      · rw [if_neg some, greedy]
        rfl
      · intro state listed
        rcases List.mem_append.mp listed with here | there
        · obtain ⟨start, _, rfl⟩ := List.mem_map.mp here
          exact ⟨[], term, rest, rfl, rfl, described⟩
        · obtain ⟨before, other, after, split, count, fits⟩ := dead state there
          refine ⟨term :: before, other, after, by rw [split]; rfl, ?_, fits⟩
          rw [count, List.length_cons]
          omega

/-- Exhaustive levels of searches with the same results are the same. -/
theorem exploreLevels_mono {mode : RepeatMode} {inner chosen : Pattern}
    (same : ∀ term bindings found, visit ground inner term bindings = some found →
      visit ground chosen term bindings = some found) (terms : List Term) :
    ∀ (position : Nat) (level : List Bindings) (reached : List Reached),
      exploreLevels mode (visit ground inner) position terms level = some reached →
      exploreLevels mode (visit ground chosen) position terms level = some reached := by
  induction terms with
  | nil => exact fun _ _ _ run => run
  | cons term rest ih =>
    intro position level reached run
    rw [exploreLevels] at run ⊢
    obtain ⟨next, gathered, continued⟩ := Option.bind_eq_some_iff.mp run
    rw [gather_mono (fun start _ found => same term start found) gathered, Option.bind_some]
    split at continued
    · rename_i none
      rw [if_pos none, continued]
    · rename_i some
      obtain ⟨others, later, made⟩ := Option.map_eq_some_iff.mp continued
      rw [if_neg some, ih _ _ _ later, ← made]
      rfl

/-- Where a repetition is greedy, a term that it takes does not start what follows. -/
theorem not_fitsAll_of_greedy
    (apart : ∀ left right term, closures.provablyDifferent mentioned left right = true →
      Fits reading left term → ¬ Fits reading right term)
    {inner : Pattern} {rest : List Pattern} {term : Term} {others : List Term}
    (greedy : Pattern.repeatMode closures mentioned inner rest = .greedy)
    (fits : Fits reading inner term) : ¬ FitsAll reading rest (term :: others) := by
  induction rest with
  | nil =>
    intro all
    cases fitsAll_nil.mp all
  | cons item rest ih =>
    intro all
    cases item using Pattern.itemCases with
    | check test =>
      rw [Pattern.repeatMode] at greedy
      exact ih greedy (fitsAll_check.mp all)
    | repeated other mode =>
      rw [Pattern.repeatMode] at greedy
      split at greedy
      · rename_i different
        obtain ⟨taken, remaining, split, each, later⟩ := fitsAll_repeated.mp all
        cases taken with
        | nil =>
          rw [List.nil_append] at split
          rw [← split] at later
          exact ih greedy later
        | cons first more =>
          obtain ⟨rfl, _⟩ := List.cons.inj split
          exact apart inner other term different fits (each term List.mem_cons_self)
      · cases greedy
    | fixed item one =>
      have told : closures.provablyDifferent mentioned inner item = true := by
        cases item with
        | check _ | repeated _ _ => cases one
        | _ =>
          rw [Pattern.repeatMode] at greedy
          · split at greedy
            · rename_i different
              exact different
            · cases greedy
          all_goals simp
      obtain ⟨first, remaining, split, here, _⟩ := (fitsAll_item one).mp all
      obtain ⟨rfl, _⟩ := List.cons.inj split
      exact apart inner item term told fits here

/-- What holds of the frontiers of single entries holds of whole frontiers. -/
theorem exists_advance_of_each {terms : List Term} {items chosen : List Pattern}
    (each : ∀ (entry : Reached) (found : List Reached), entry.2 ≤ terms.length →
      advance ground terms items [entry] = some found →
      ∃ other, advance ground terms chosen [entry] = some other ∧
        finals terms.length other = finals terms.length found)
    (frontier : List Reached) (bound : ∀ entry ∈ frontier, entry.2 ≤ terms.length)
    {found : List Reached} (run : advance ground terms items frontier = some found) :
    ∃ other, advance ground terms chosen frontier = some other ∧
      finals terms.length other = finals terms.length found := by
  rw [advance_eq_gather] at run ⊢
  induction frontier generalizing found with
  | nil =>
    cases run
    exact ⟨[], rfl, rfl⟩
  | cons entry rest ih =>
    obtain ⟨here, others, one, two, rfl⟩ := gather_cons_eq_some.mp run
    obtain ⟨first, left, same⟩ := each entry here (bound entry List.mem_cons_self) one
    obtain ⟨second, right, equal⟩ :=
      ih (fun other listed => bound other (List.mem_cons_of_mem _ listed)) two
    refine ⟨first ++ second, gather_cons_eq_some.mpr ⟨first, second, left, right, rfl⟩, ?_⟩
    rw [finals_append, finals_append, same, equal]

/-- A greedy repetition, compared with an exhaustive one, misses only entries on which the next
term is one that its inner pattern describes. -/
theorem repetition_greedy {inner chosen : Pattern} {symbols : List Symbol}
    (finds : FindsOnly ground reading chosen)
    (same : ∀ term bindings found, visit ground inner term bindings = some found →
      visit ground chosen term bindings = some found) {terms : List Term} {entry : Reached}
    {next : List Reached}
    (run : repetition symbols .exhaustive (visit ground inner) terms entry = some next) :
    ∃ dead live, next = dead ++ live ∧
      repetition symbols .greedy (visit ground chosen) terms entry = some live ∧
      ∀ state ∈ dead, ∃ term after, terms.drop state.2 = term :: after ∧
        Fits reading chosen term := by
  unfold repetition at run
  obtain ⟨start, opened, explored⟩ := Option.bind_eq_some_iff.mp run
  obtain ⟨reached, explored, closed⟩ := Option.bind_eq_some_iff.mp explored
  obtain ⟨earlier, last, rfl, greedy, missed⟩ :=
    exploreLevels_greedy finds same _ _ _ _ explored
  obtain ⟨dead, live, first, second, rfl⟩ := gather_append_eq_some.mp closed
  refine ⟨dead, live, rfl, ?_, ?_⟩
  · unfold repetition
    rw [opened, Option.bind_some, greedy, Option.bind_some, second]
  · intro state listed
    obtain ⟨origin, there, result, made, inside⟩ := (mem_gather first).mp listed
    obtain ⟨finished, _, rfl⟩ := Option.map_eq_some_iff.mp made
    rw [List.mem_singleton.mp inside]
    obtain ⟨before, term, after, split, count, fits⟩ := missed origin there
    refine ⟨term, after, ?_, fits⟩
    change terms.drop origin.2 = _
    rw [count, ← List.drop_drop, split, List.drop_left]

/-- With the modes chosen, a frontier ends with the same bindings at the last term. -/
theorem advance_classify
    (apart : ∀ left right term, closures.provablyDifferent mentioned left right = true →
      Fits reading left term → ¬ Fits reading right term)
    (reads : ground.Reads reading) {terms : List Term} (items : List Pattern)
    (placed : Pattern.arePlaced items = true)
    (fixed : ∀ item ∈ items, item.isFixedWidth = true → Preserves ground closures mentioned item)
    (rounds : ∀ inner mode, .repeated inner mode ∈ items →
      Preserves ground closures mentioned inner) :
    ∀ (entry : Reached) (found : List Reached), entry.2 ≤ terms.length →
      advance ground terms (Pattern.exhaustiveAll items) [entry] = some found →
      ∃ other, advance ground terms
          (Pattern.chooseModes closures mentioned (Pattern.classifyAll closures mentioned items))
          [entry] = some other ∧
        finals terms.length other = finals terms.length found := by
  induction items with
  | nil => exact fun entry found _ run => ⟨found, run, rfl⟩
  | cons item rest ih =>
    intro entry found bound run
    obtain ⟨singles, inners⟩ := Pattern.arePlaced_iff.mp placed
    have restPlaced : Pattern.arePlaced rest = true := Pattern.arePlaced_iff.mpr
      ⟨fun other listed => singles other (List.mem_cons_of_mem _ listed),
        fun inner mode listed => inners inner mode (List.mem_cons_of_mem _ listed)⟩
    have later := exists_advance_of_each (ih restPlaced
      (fun other listed => fixed other (List.mem_cons_of_mem _ listed))
      (fun inner mode listed => rounds inner mode (List.mem_cons_of_mem _ listed)))
    have single : ∀ {step : Reached → Option (List Reached)} {next : List Reached},
        gather step [entry] = some next ↔ step entry = some next := by
      intro step next
      rw [gather_cons_eq_some]
      constructor
      · rintro ⟨here, others, one, two, rfl⟩
        cases two
        rw [List.append_nil]
        exact one
      · exact fun one => ⟨next, [], one, rfl, (List.append_nil _).symm⟩
    rw [Pattern.classifyAll]
    cases item using Pattern.itemCases with
    | check test =>
      rw [Pattern.exhaustiveAll_check, advance_check] at run
      change ∃ other, advance ground terms (Pattern.chooseModes closures mentioned
        (.check test :: Pattern.classifyAll closures mentioned rest)) [entry] = some other ∧ _
      rw [Pattern.chooseModes_cons closures mentioned _ (by nofun), advance_check]
      refine later _ ?_ run
      intro other listed
      rw [List.mem_singleton.mp (List.mem_of_mem_filter listed)]
      exact bound
    | repeated inner mode =>
      have innerPlaced : inner.isPlaced = true := inners inner mode List.mem_cons_self
      have preserved := rounds inner mode List.mem_cons_self
      rw [Pattern.exhaustiveAll_repeated, advance_repeated] at run
      obtain ⟨next, stepped, moved⟩ := Option.bind_eq_some_iff.mp run
      rw [single] at stepped
      rw [Pattern.classify, Pattern.chooseModes, advance_repeated, Pattern.boundSymbols_classify]
      rw [Pattern.boundSymbols_exhaustive] at stepped
      cases chosen : Pattern.repeatMode closures mentioned (inner.classify closures mentioned)
          (Pattern.classifyAll closures mentioned rest) with
      | exhaustive =>
        have again : repetition inner.boundSymbols .exhaustive
            (visit ground (inner.classify closures mentioned)) terms entry = some next := by
          unfold repetition at stepped ⊢
          obtain ⟨start, opened, explored⟩ := Option.bind_eq_some_iff.mp stepped
          obtain ⟨reached, explored, closed⟩ := Option.bind_eq_some_iff.mp explored
          rw [opened, Option.bind_some, exploreLevels_mono preserved _ _ _ _ explored,
            Option.bind_some, closed]
        rw [single.mpr again, Option.bind_some]
        exact later next (repetition_le bound stepped) moved
      | greedy =>
        obtain ⟨dead, live, rfl, again, missed⟩ := repetition_greedy
          (findsOnly reads (by rw [Pattern.isPlaced_classify, innerPlaced])) preserved stepped
        rw [single.mpr again, Option.bind_some]
        have within := repetition_le bound stepped
        rw [advance_eq_gather] at moved
        obtain ⟨lost, kept, first, second, rfl⟩ := gather_append_eq_some.mp moved
        rw [← advance_eq_gather] at second
        obtain ⟨other, moved, same⟩ := later live
          (fun state listed => within state (List.mem_append_right _ listed)) second
        refine ⟨other, moved, ?_⟩
        -- The items after the repetition fail on every entry that it misses.
        have none : finals terms.length lost = [] := by
          apply List.eq_nil_iff_forall_not_mem.mpr
          intro after listed
          obtain ⟨state, there, here, searched, inside⟩ :=
            (mem_gather first).mp (mem_finals.mp listed)
          obtain ⟨term, others, split, fits⟩ := missed state there
          have all : FitsAll reading (Pattern.exhaustiveAll rest) (terms.drop state.2) := by
            refine advance_finds _ ?_ ?_ state here
              (within state (List.mem_append_left _ there)) searched after inside
            · intro part listed one
              refine findsOnly reads ?_
              exact (Pattern.arePlaced_iff.mp
                (show Pattern.arePlaced (Pattern.exhaustiveAll rest) = true from
                  (Pattern.isPlaced_exhaustive (.sequence rest)).trans restPlaced)).1 part listed one
            · intro part mode listed
              refine findsOnly reads ?_
              exact (Pattern.arePlaced_iff.mp
                (show Pattern.arePlaced (Pattern.exhaustiveAll rest) = true from
                  (Pattern.isPlaced_exhaustive (.sequence rest)).trans restPlaced)).2 part mode listed
          rw [split] at all
          have chosenFits : Fits reading
              (.sequence (Pattern.classifyAll closures mentioned rest)) (.sequence (term :: others)) := by
            refine Fits.of_skeleton ?_ (Fits.sequence all)
            rw [Pattern.skeleton, Pattern.skeleton, Pattern.skeletonAll_exhaustiveAll,
              Pattern.skeletonAll_classifyAll]
          obtain ⟨_, equal, chosenAll⟩ := fits_sequence.mp chosenFits
          cases equal
          exact not_fitsAll_of_greedy apart chosen fits chosenAll
        rw [finals_append, none, List.nil_append, same]
    | fixed item one =>
      rw [Pattern.exhaustiveAll, advance_item ground (by rw [Pattern.isFixedWidth_exhaustive, one]),
        ← Pattern.exhaustiveAll, Pattern.fixedCount_exhaustiveAll] at run
      obtain ⟨next, stepped, moved⟩ := Option.bind_eq_some_iff.mp run
      rw [single] at stepped
      have single_width : (item.classify closures mentioned).isFixedWidth = true := by
        rw [Pattern.isFixedWidth_classify, one]
      have count : Matcher.fixedCount (item.classify closures mentioned ::
          Pattern.chooseModes closures mentioned (Pattern.classifyAll closures mentioned rest)) =
          Matcher.fixedCount (item :: rest) := by
        rw [fixedCount_cons, fixedCount_cons, (Pattern.shape_chosen closures mentioned rest).1,
          Pattern.isFixedWidth_classify]
      rw [Pattern.chooseModes_cons closures mentioned _ (by
        intro inner mode same
        rw [same] at single_width
        cases single_width), advance_item ground single_width, count]
      have again : advanceOne (Matcher.fixedCount (item :: rest))
          (visit ground (item.classify closures mentioned)) terms entry = some next := by
        unfold advanceOne at stepped ⊢
        split at stepped
        · rename_i room
          rw [if_pos room]
          split at stepped
          · obtain ⟨results, searched, made⟩ := Option.map_eq_some_iff.mp stepped
            rw [fixed item List.mem_cons_self one _ _ _ searched, ← made]
            rfl
          · exact stepped
        · rename_i full
          rw [if_neg full]
          exact stepped
      rw [single.mpr again, Option.bind_some]
      exact later next (advanceOne_le stepped) moved

/-- The search with the modes chosen has exactly the results of the exhaustive search. -/
theorem preserves
    (apart : ∀ left right term, closures.provablyDifferent mentioned left right = true →
      Fits reading left term → ¬ Fits reading right term)
    (reads : ground.Reads reading) {pattern : Pattern} (placed : pattern.isPlaced = true) :
    Preserves ground closures mentioned pattern := by
  refine Pattern.placedInduction (motive := fun pattern => pattern.isPlaced = true →
    Preserves ground closures mentioned pattern) ?_ ?_ ?_ ?_ ?_ pattern placed placed
  · exact fun _ _ _ _ _ run => run
  · exact fun _ _ _ _ _ _ run => run
  · exact fun _ _ _ _ _ _ run => run
  · intro items fixed rounds placed term bindings found run
    obtain ⟨singles, inners⟩ := Pattern.arePlaced_iff.mp placed
    rw [Pattern.exhaustive] at run
    rw [Pattern.classify]
    cases term with
    | atom _ | hole =>
      rw [visit_sequence_other ground (by nofun)] at run ⊢
      exact run
    | sequence terms =>
      obtain ⟨count, shape⟩ := Pattern.shape_chosen closures mentioned items
      have long : longEnough (Pattern.exhaustiveAll items) terms.length =
          longEnough (Pattern.chooseModes closures mentioned
            (Pattern.classifyAll closures mentioned items)) terms.length := by
        unfold longEnough
        rw [Pattern.isOpen_exhaustiveAll, Pattern.fixedCount_exhaustiveAll, count, shape]
      rw [visit_sequence] at run ⊢
      rw [← long]
      split at run
      · rename_i enough
        rw [if_pos enough]
        obtain ⟨last, moved, rfl⟩ := Option.map_eq_some_iff.mp run
        obtain ⟨other, again, same⟩ := advance_classify apart reads items placed
          (fun item listed one => fixed item listed one (singles item listed one))
          (fun inner mode listed => rounds inner mode listed (inners inner mode listed))
          (bindings, 0) last (Nat.zero_le _) moved
        rw [again, Option.map_some, same]
      · rename_i short
        rw [if_neg short]
        exact run
  · intro context contents checks around within placed term bindings found run
    simp only [Pattern.isPlaced, Bool.and_eq_true] at placed
    rw [Pattern.exhaustive, visit_inHole] at run
    rw [Pattern.classify, visit_inHole]
    refine gather_mono ?_ run
    rintro ⟨path, part⟩ _ results searched
    obtain ⟨inner, innerRun, rest⟩ := Option.bind_eq_some_iff.mp searched
    beta_reduce at innerRun rest ⊢
    rw [within placed.2 _ _ _ innerRun, Option.bind_some]
    split at rest
    · rename_i none
      rw [if_pos none]
      exact rest
    · rename_i some
      rw [if_neg some]
      obtain ⟨holed, cut, rest⟩ := Option.bind_eq_some_iff.mp rest
      obtain ⟨outer, outerRun, combined⟩ := Option.bind_eq_some_iff.mp rest
      rw [cut, Option.bind_some, around placed.1 _ _ _ outerRun, Option.bind_some]
      exact combined

end Comparison

end Reduct
