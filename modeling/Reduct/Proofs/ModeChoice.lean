import Reduct.Proofs.MatcherResults

/-!
# Chosen modes against exhaustive ones

The compiled matcher of a pattern with the modes chosen gives the list that the matcher of the
exhaustive pattern gives: the same results, in the same order, as often. The rules of the language
may be compiled with the modes chosen for them or exhaustively, in either run.
-/

namespace Reduct

namespace Language

variable {language : Language} {grammar : Grammar}

/-- The language with every repetition in its rules exhaustive. -/
def exhaustive (language : Language) : Language :=
  { language with
    rules := language.rules.map fun rule =>
      { rule with
        alternatives := rule.alternatives.map fun alternative =>
          { alternative with pattern := alternative.pattern.exhaustive } } }

theorem rule?_exhaustive (language : Language) (stem : Symbol) :
    language.exhaustive.rule? stem = (language.rule? stem).map fun rule =>
      { rule with
        alternatives := rule.alternatives.map fun alternative =>
          { alternative with pattern := alternative.pattern.exhaustive } } :=
  List.find?_map ..

theorem hasRule_exhaustive {stem : Symbol} :
    language.exhaustive.HasRule stem ↔ language.HasRule stem := by
  simp only [HasRule, rule?_exhaustive, Option.map_eq_some_iff]
  exact ⟨fun ⟨_, rule, found, _⟩ => ⟨rule, found⟩, fun ⟨rule, found⟩ => ⟨_, rule, found, rfl⟩⟩

/-- The alternatives of the exhaustive language are those of the language, made exhaustive. -/
theorem exists_of_exhaustive {rule : Rule} (listed : rule ∈ language.exhaustive.rules)
    {alternative : Prepared} (inside : alternative ∈ rule.alternatives) :
    ∃ source ∈ language.rules, ∃ prepared ∈ source.alternatives,
      alternative.pattern.skeleton = prepared.pattern.skeleton := by
  obtain ⟨source, known, rfl⟩ := List.mem_map.mp listed
  obtain ⟨prepared, among, rfl⟩ := List.mem_map.mp inside
  exact ⟨source, known, prepared, among, Pattern.skeleton_exhaustive _⟩

theorem Closed.exhaustive (closed : language.Closed) : language.exhaustive.Closed := by
  intro rule listed alternative inside
  obtain ⟨source, known, prepared, among, same⟩ := exists_of_exhaustive listed inside
  obtain ⟨placed, ruled⟩ := closed source known prepared among
  rw [← Pattern.isPlaced_skeleton, ← Pattern.stems_skeleton, same, Pattern.isPlaced_skeleton,
    Pattern.stems_skeleton]
  exact ⟨placed, fun stem head => hasRule_exhaustive.mpr (ruled stem head)⟩

/-- What the non-terminals of a language derive solves its rules also if they are exhaustive. -/
theorem Defined.solves_exhaustive (defined : language.Defined grammar) :
    language.ground.Solves language.exhaustive where
  mentioned := rfl
  accepts := by
    intro stem rule term found
    rw [rule?_exhaustive] at found
    obtain ⟨source, known, rfl⟩ := Option.map_eq_some_iff.mp found
    rw [defined.solves.accepts stem source term known, List.any_map, Bool.eq_iff_iff,
      List.any_eq_true, List.any_eq_true]
    have same : ∀ prepared ∈ source.alternatives,
        language.ground.finds prepared.pattern term =
          language.ground.finds prepared.pattern.exhaustive term := by
      intro prepared inside
      obtain ⟨results, chosen, plainly, _⟩ :=
        defined.visit_alternative (ground_reads language) (mem_rules known).1 inside term
      rw [Ground.finds_of_visit chosen, Ground.finds_of_visit plainly]
    exact exists_congr fun prepared => and_congr_right fun inside => by
      rw [same prepared inside]
      rfl

/-- The ways to compile the rules of a language: with the modes chosen for them, or with all of
them exhaustive. -/
def treatments (language : Language) : List Language := [language, language.exhaustive]

end Language

/-- A matcher gives what the search finds, whichever way the rules are compiled. -/
theorem MatcherGives.of_treatment {definition : LanguageDefinition} {span : Span}
    {language : Language} (written : definition.isWritten = true)
    (unspelled : definition.spellsHole = false) (stage : Language.Stage definition span language)
    {treated : Language} (treatment : treated ∈ language.treatments) {pattern : Pattern}
    (item : pattern.isItem = true) (plain : pattern.spellsHole = false)
    (ruled : ∀ stem ∈ pattern.stems, language.HasRule stem) {terms : List Term}
    (proper : (Term.sequence terms).Proper) {head tail : Nat} (within : head ≤ tail)
    (bound : tail ≤ terms.length) {bindings : Bindings} {store changed : Store} {value : Value}
    (gives : MatcherGives treated pattern terms head tail bindings store value changed) :
    ∃ list found, value = .list list ∧
      Reduct.searchRange language.ground pattern terms head tail bindings = some found ∧
      Display.entry.Lists changed list found := by
  obtain ⟨grammar, defined⟩ := stage.defined written
  have plainly := stage.plain unspelled
  obtain rfl | rfl := List.mem_pair.mp treatment
  · obtain ⟨list, found, same, searched, lists, _⟩ :=
      gives.searchRange defined.closed plainly defined.solves item plain ruled proper within bound
    exact ⟨list, found, same, searched, lists⟩
  · have plainExhaustive : ∀ rule ∈ language.exhaustive.rules, ∀ alternative ∈ rule.alternatives,
        alternative.pattern.spellsHole = false := by
      intro rule listed alternative inside
      obtain ⟨source, known, prepared, among, same⟩ :=
        Language.exists_of_exhaustive listed inside
      rw [← Pattern.spellsHole_skeleton, same, Pattern.spellsHole_skeleton]
      exact plainly source known prepared among
    obtain ⟨list, found, same, searched, lists, _⟩ :=
      gives.searchRange defined.closed.exhaustive plainExhaustive defined.solves_exhaustive item
        plain (fun stem listed => Language.hasRule_exhaustive.mpr (ruled stem listed)) proper within
        bound
    exact ⟨list, found, same, searched, lists⟩

/-- Modes that are chosen keep what a placed pattern finds in a range. -/
theorem Preserves.searchRange {ground : Ground} {closures : Closures} {mentioned : SymbolSet}
    {pattern : Pattern} (preserves : Preserves ground closures mentioned pattern)
    (placed : pattern.isPlaced = true) {terms : List Term} {head tail : Nat} {bindings : Bindings}
    {found : List Reached}
    (searched : Reduct.searchRange ground pattern.exhaustive terms head tail bindings =
      some found) :
    Reduct.searchRange ground (pattern.classify closures mentioned) terms head tail bindings =
      some found := by
  have fixed := Pattern.isFixedWidth_of_isPlaced placed
  rw [searchRange_fixed _ (by rwa [Pattern.isFixedWidth_exhaustive])] at searched
  rw [searchRange_fixed _ (by rwa [Pattern.isFixedWidth_classify])]
  by_cases below : head < tail
  · rw [if_pos below] at searched ⊢
    obtain ⟨term, there, searched⟩ := Option.bind_eq_some_iff.mp searched
    obtain ⟨after, visited, rfl⟩ := Option.map_eq_some_iff.mp searched
    rw [there, Option.bind_some, preserves term bindings after visited]
    rfl
  · rwa [if_neg below] at searched ⊢

/-- The modes that are chosen for a pattern change nothing in the results of its matcher: whenever
the matcher of the exhaustive pattern and that of the pattern with modes chosen both give a value,
the two lists show the same bindings and positions, in the same order. The modes may be chosen
against fewer literal variables than there are in the runs. -/
theorem classify_gives_exhaustive_results {definition : LanguageDefinition} {span : Span}
    {language : Language} (written : definition.isWritten = true)
    (unspelled : definition.spellsHole = false) (stage : Language.Stage definition span language)
    {pattern : Pattern} (placed : pattern.isPlaced = true) (plain : pattern.spellsHole = false)
    (ruled : ∀ stem ∈ pattern.stems, language.HasRule stem) {earlier : SymbolSet}
    (grows : earlier.Subset language.mentioned) {first second : Language}
    (firstTreated : first ∈ language.treatments) (secondTreated : second ∈ language.treatments)
    {terms : List Term} (proper : (Term.sequence terms).Proper) {head tail : Nat}
    (within : head ≤ tail) (bound : tail ≤ terms.length) {bindings : Bindings}
    {firstStore firstChanged secondStore secondChanged : Store} {firstValue secondValue : Value}
    (firstGives : MatcherGives first pattern.exhaustive terms head tail bindings firstStore
      firstValue firstChanged)
    (secondGives : MatcherGives second (pattern.exhaustive.classify language.closures earlier) terms
      head tail bindings secondStore secondValue secondChanged) :
    ∃ firstList secondList found, firstValue = .list firstList ∧ secondValue = .list secondList ∧
      Display.entry.Lists firstChanged firstList found ∧
      Display.entry.Lists secondChanged secondList found := by
  obtain ⟨grammar, defined⟩ := stage.defined written
  have placedFirst : pattern.exhaustive.isPlaced = true := by
    rw [Pattern.isPlaced_exhaustive, placed]
  have placedSecond : (pattern.exhaustive.classify language.closures earlier).isPlaced = true := by
    rw [Pattern.isPlaced_classify, placedFirst]
  have shape : (pattern.exhaustive.classify language.closures earlier).skeleton =
      pattern.skeleton := by
    rw [Pattern.skeleton_classify, Pattern.skeleton_exhaustive]
  obtain ⟨firstList, found, firstSame, firstSearched, firstLists⟩ :=
    firstGives.of_treatment written unspelled stage firstTreated
      (Pattern.isItem_of_isPlaced placedFirst)
      (by rw [← Pattern.spellsHole_skeleton, Pattern.skeleton_exhaustive,
        Pattern.spellsHole_skeleton, plain])
      (by rwa [← Pattern.stems_skeleton, Pattern.skeleton_exhaustive, Pattern.stems_skeleton])
      proper within bound
  obtain ⟨secondList, other, secondSame, secondSearched, secondLists⟩ :=
    secondGives.of_treatment written unspelled stage secondTreated
      (Pattern.isItem_of_isPlaced placedSecond)
      (by rw [← Pattern.spellsHole_skeleton, shape, Pattern.spellsHole_skeleton, plain])
      (by rwa [← Pattern.stems_skeleton, shape, Pattern.stems_skeleton])
      proper within bound
  have kept := (defined.preserves (Language.ground_reads language) placedFirst grows).searchRange
    placedFirst (by rwa [Pattern.exhaustive_exhaustive])
  have agree : found = other := Option.some.inj (kept.symm.trans secondSearched)
  exact ⟨firstList, secondList, found, firstSame, secondSame, firstLists, agree ▸ secondLists⟩

open Matcher

/-- Numbers, and then one sequence of trees. -/
def numbersBeforeTrees (mode : RepeatMode) : Pattern :=
  .sequence [.repeated (.builtIn .number "number_1") mode,
    .sequence [.repeated (.nonTerminal "e" "e_1") mode]]

/-- Both repetitions can be greedy: no number is a sequence, and nothing follows the trees. -/
theorem classify_numbersBeforeTrees {language : Language}
    (accepted : Language.define numberTrees default = .ok language) :
    (numbersBeforeTrees .exhaustive).exhaustive.classify language.closures language.mentioned =
      numbersBeforeTrees .greedy := by
  have checked : (Language.define numberTrees default).toOption.map (fun language =>
      (numbersBeforeTrees .exhaustive).exhaustive.classify language.closures language.mentioned) =
      some (numbersBeforeTrees .greedy) := by decide +kernel
  rw [accepted] at checked
  exact Option.some.inj checked

theorem exists_runs_numbersBeforeTrees :
    ∃ language firstStore firstValue firstChanged secondStore secondValue secondChanged,
      Language.define numberTrees default = .ok language ∧
      MatcherGives language (numbersBeforeTrees .exhaustive) twoTerms 1 2 .empty firstStore
        firstValue firstChanged ∧
      MatcherGives language (numbersBeforeTrees .greedy) twoTerms 1 2 .empty secondStore
        secondValue secondChanged := by
  obtain ⟨language, firstValue, firstStore, firstChanged, accepted, firstGives⟩ :=
    exists_matcherGives (by decide +kernel : (wholeRun? numberTrees
      (fun language => Matcher.compile language (numbersBeforeTrees .exhaustive))
      (callArguments twoTerms 1 2 0) .empty 1000).isSome = true)
  obtain ⟨other, secondValue, secondStore, secondChanged, again, secondGives⟩ :=
    exists_matcherGives (by decide +kernel : (wholeRun? numberTrees
      (fun language => Matcher.compile language (numbersBeforeTrees .greedy))
      (callArguments twoTerms 1 2 0) .empty 1000).isSome = true)
  obtain rfl : language = other := Except.ok.inj (accepted.symm.trans again)
  exact ⟨language, firstStore, firstValue, firstChanged, secondStore, secondValue, secondChanged,
    accepted, firstGives, secondGives⟩

theorem classify_gives_exhaustive_results_numbersBeforeTrees :
    ∃ language firstStore firstValue firstChanged secondStore secondValue secondChanged,
      Language.define numberTrees default = .ok language ∧
      MatcherGives language (numbersBeforeTrees .exhaustive) twoTerms 1 2 .empty firstStore
        firstValue firstChanged ∧
      MatcherGives language (numbersBeforeTrees .greedy) twoTerms 1 2 .empty secondStore
        secondValue secondChanged ∧
      ∃ firstList secondList found, firstValue = .list firstList ∧
        secondValue = .list secondList ∧ Display.entry.Lists firstChanged firstList found ∧
        Display.entry.Lists secondChanged secondList found := by
  obtain ⟨language, firstStore, firstValue, firstChanged, secondStore, secondValue, secondChanged,
    accepted, firstGives, secondGives⟩ := exists_runs_numbersBeforeTrees
  refine ⟨language, firstStore, firstValue, firstChanged, secondStore, secondValue, secondChanged,
    accepted, firstGives, secondGives, ?_⟩
  have ruled : ∀ stem ∈ (numbersBeforeTrees .exhaustive).stems, language.HasRule stem := by
    intro stem listed
    rw [show stem = "e" by simpa [numbersBeforeTrees, Pattern.stems, Pattern.stemsAll] using listed]
    exact hasRule_numberTrees accepted
  have grows : language.mentioned.Subset language.mentioned := fun _ known => known
  rw [← classify_numbersBeforeTrees accepted] at secondGives
  exact classify_gives_exhaustive_results (by decide) (by decide) (.define accepted) (by decide)
    (by decide) ruled grows List.mem_cons_self List.mem_cons_self (by decide) (by decide)
    (by decide) firstGives secondGives

end Reduct
