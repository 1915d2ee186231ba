import Reduct.Proofs.CompiledMatchers
import Reduct.Proofs.GreedySearch
import Reduct.Proofs.SearchMatches

/-!
# What the rules of a language accept

The alternatives of a rule bind fresh names, each once, and check nothing, so the search with one
of them finds something exactly at the terms that it describes. The terms that non-terminals derive
therefore solve the rules, and compiled predicates tell them.
-/

namespace Reduct

namespace Pattern

mutual

theorem stems_skeleton : (pattern : Pattern) → pattern.skeleton.stems = pattern.stems
  | .literal _ | .nonTerminal .. | .builtIn .. | .check _ | .unresolved _ => rfl
  | .sequence items => stemsAll_skeletonAll items
  | .repeated inner _ => stems_skeleton inner
  | .inHole context contents _ => by
    rw [skeleton, stems, stems, stems_skeleton context, stems_skeleton contents]

theorem stemsAll_skeletonAll : (items : List Pattern) →
    stemsAll (skeletonAll items) = stemsAll items
  | [] => rfl
  | item :: rest => by
    by_cases test : item.isCheck = true
    · cases item with
      | check test => exact stemsAll_skeletonAll rest
      | _ => cases test
    · rw [skeletonAll_cons (by simpa using test), stemsAll, stemsAll, stems_skeleton item,
        stemsAll_skeletonAll rest]

end

mutual

theorem spellsHole_skeleton : (pattern : Pattern) →
    pattern.skeleton.spellsHole = pattern.spellsHole
  | .literal _ | .nonTerminal .. | .builtIn .. | .check _ | .unresolved _ => rfl
  | .sequence items => spellsHoleAny_skeletonAll items
  | .repeated inner _ => spellsHole_skeleton inner
  | .inHole context contents _ => by
    rw [skeleton, spellsHole, spellsHole, spellsHole_skeleton context,
      spellsHole_skeleton contents]

theorem spellsHoleAny_skeletonAll : (items : List Pattern) →
    spellsHoleAny (skeletonAll items) = spellsHoleAny items
  | [] => rfl
  | item :: rest => by
    by_cases test : item.isCheck = true
    · cases item with
      | check test => exact spellsHoleAny_skeletonAll rest
      | _ => cases test
    · rw [skeletonAll_cons (by simpa using test), spellsHoleAny, spellsHoleAny,
        spellsHole_skeleton item, spellsHoleAny_skeletonAll rest]

end

mutual

/-- Whether a pattern has an `in-hole`. -/
def takesApart : Pattern → Bool
  | .sequence items => takesApartAny items
  | .repeated inner _ => inner.takesApart
  | .inHole .. => true
  | _ => false

/-- Whether one of the patterns has an `in-hole`. -/
def takesApartAny : List Pattern → Bool
  | [] => false
  | item :: rest => item.takesApart || takesApartAny rest

end

mutual

/-- The non-terminals of a resolved pattern have rules. -/
theorem contains_of_mem_stems {names : SymbolSet} : (pattern : Pattern) →
    pattern.isResolved names = true → ∀ stem ∈ pattern.stems, names.contains stem = true
  | .literal _, _ | .builtIn .., _ | .check _, _ | .unresolved _, _ => nofun
  | .nonTerminal stem symbol, resolved => by
    rw [isResolved, Bool.and_eq_true] at resolved
    intro other listed
    rw [List.mem_singleton.mp listed]
    exact resolved.1
  | .sequence items, resolved => contains_of_mem_stemsAll items resolved
  | .inHole context contents checks, resolved => by
    rw [isResolved, Bool.and_eq_true, Bool.and_eq_true] at resolved
    intro stem listed
    rcases List.mem_append.mp listed with left | right
    · exact contains_of_mem_stems context resolved.1.2 stem left
    · exact contains_of_mem_stems contents resolved.2 stem right
termination_by pattern => sizeOf pattern

theorem contains_of_mem_stemsAll {names : SymbolSet} : (items : List Pattern) →
    areResolved names items = true → ∀ stem ∈ stemsAll items, names.contains stem = true
  | [], _ => nofun
  | item :: rest, resolved => by
    obtain ⟨first, others⟩ := areResolved_cons.mp resolved
    intro stem listed
    rcases List.mem_append.mp listed with here | later
    · rcases first with one | ⟨inner, mode, rfl, one⟩
      · exact contains_of_mem_stems item one stem here
      · exact contains_of_mem_stems inner one stem here
    · exact contains_of_mem_stemsAll rest others stem later
termination_by items => sizeOf items

end

mutual

/-- A resolved pattern checks nothing. -/
theorem tests_of_isResolved {names : SymbolSet} : (pattern : Pattern) →
    pattern.isResolved names = true → pattern.tests = []
  | .literal _, _ | .nonTerminal .., _ | .builtIn .., _ | .unresolved _, _ => rfl
  | .sequence items, resolved => testsAll_of_areResolved items resolved
  | .inHole context contents checks, resolved => by
    rw [isResolved, Bool.and_eq_true, Bool.and_eq_true, List.isEmpty_iff] at resolved
    rw [tests, tests_of_isResolved context resolved.1.2, tests_of_isResolved contents resolved.2,
      resolved.1.1]
    rfl
termination_by pattern => sizeOf pattern

theorem testsAll_of_areResolved {names : SymbolSet} : (items : List Pattern) →
    areResolved names items = true → testsAll items = []
  | [], _ => rfl
  | item :: rest, resolved => by
    obtain ⟨first, others⟩ := areResolved_cons.mp resolved
    have here : item.tests = [] := by
      rcases first with one | ⟨inner, mode, rfl, one⟩
      · exact tests_of_isResolved item one
      · exact tests_of_isResolved inner one
    rw [testsAll, here, testsAll_of_areResolved rest others]
    rfl
termination_by items => sizeOf items

end

mutual

/-- Fresh names leave the checks. -/
theorem tests_anonymize : (pattern : Pattern) → (fresh : FreshNames) →
    (pattern.anonymize fresh).1.tests = pattern.tests
  | .literal _, _ | .nonTerminal .., _ | .check _, _ | .unresolved _, _ => rfl
  | .builtIn kind symbol, fresh => by
    rw [anonymize]
    split <;> rfl
  | .sequence items, fresh => testsAll_anonymizeAll items fresh
  | .repeated inner _, fresh => tests_anonymize inner fresh
  | .inHole context contents checks, fresh => by
    change (context.anonymize fresh).1.tests ++
      (contents.anonymize (context.anonymize fresh).2).1.tests ++ checks = _
    rw [tests_anonymize context fresh, tests_anonymize contents _, tests]

theorem testsAll_anonymizeAll : (items : List Pattern) → (fresh : FreshNames) →
    testsAll (anonymizeAll items fresh).1 = testsAll items
  | [], _ => rfl
  | item :: rest, fresh => by
    change (item.anonymize fresh).1.tests ++
      testsAll (anonymizeAll rest (item.anonymize fresh).2).1 = _
    rw [tests_anonymize item fresh, testsAll_anonymizeAll rest _, testsAll]

end

mutual

/-- A placed pattern without checks compares nothing too early. -/
theorem scoped_of_tests : (pattern : Pattern) → pattern.tests = [] → pattern.Scoped
  | .literal _, _ | .nonTerminal .., _ | .builtIn .., _ | .unresolved _, _ => trivial
  | .sequence items, free => scopedAll_of_testsAll items [] free
  | .repeated inner _, free => scoped_of_tests inner free
  | .inHole context contents checks, free => by
    obtain ⟨sides, rfl⟩ := List.append_eq_nil_iff.mp free
    obtain ⟨left, right⟩ := List.append_eq_nil_iff.mp sides
    exact ⟨scoped_of_tests context left, scoped_of_tests contents right, nofun⟩

theorem scopedAll_of_testsAll : (items : List Pattern) → (known : List Symbol) →
    testsAll items = [] → ScopedAll known items
  | [], _, _ => trivial
  | item :: rest, known, free => by
    obtain ⟨here, others⟩ := List.append_eq_nil_iff.mp free
    have kept : item.isCheck = false := by
      cases item with
      | check test => cases here
      | _ => rfl
    exact (scopedAll_item kept).mpr
      ⟨scoped_of_tests item here, scopedAll_of_testsAll rest _ others⟩

end

end Pattern

section Existence

variable {reading : Reading}

/-- Rounds that are described one by one are matched one by one. -/
theorem exists_rounds {inner : Pattern}
    (matching : ∀ term, Fits reading inner term → ∃ assignment, Matches reading inner term assignment)
    (taken : List Term) (each : ∀ term ∈ taken, Fits reading inner term) :
    ∃ rounds : List (Term × Assignment), rounds.map (·.1) = taken ∧
      ∀ round ∈ rounds, Matches reading inner round.1 round.2 := by
  induction taken with
  | nil => exact ⟨[], rfl, nofun⟩
  | cons term rest ih =>
    obtain ⟨first, others⟩ := List.forall_mem_cons.mp each
    obtain ⟨assignment, matched⟩ := matching term first
    obtain ⟨rounds, same, all⟩ := ih others
    exact ⟨(term, assignment) :: rounds, by rw [List.map_cons, same],
      List.forall_mem_cons.mpr ⟨matched, all⟩⟩

/-- Items that bind every symbol once are matched where they describe the terms. -/
theorem exists_matchesAll (items : List Pattern)
    (fixed : ∀ item ∈ items, ∀ term, Fits reading item term →
      ∃ assignment, Matches reading item term assignment)
    (rounds : ∀ inner mode, .repeated inner mode ∈ items → ∀ term, Fits reading inner term →
      ∃ assignment, Matches reading inner term assignment)
    (distinct : (Pattern.occurrencesAll items).Nodup) :
    ∀ terms, FitsAll reading items terms → ∃ assignment, MatchesAll reading items terms assignment := by
  induction items with
  | nil =>
    intro terms all
    rw [fitsAll_nil.mp all]
    exact ⟨.empty, .nil⟩
  | cons item rest ih =>
    intro terms all
    have later := ih (fun other listed => fixed other (.tail _ listed))
      (fun inner mode listed => rounds inner mode (.tail _ listed))
      (List.nodup_append.mp distinct).2.1
    cases item using Pattern.itemCases with
    | check test =>
      obtain ⟨assignment, matched⟩ := later terms (fitsAll_check.mp all)
      exact ⟨assignment, .check matched⟩
    | repeated inner mode =>
      obtain ⟨taken, others, rfl, each, rest⟩ := fitsAll_repeated.mp all
      obtain ⟨found, rfl, matched⟩ := exists_rounds (rounds inner mode (.head _)) taken each
      obtain ⟨assignment, after⟩ := later others rest
      refine ⟨_, .repeated found matched after (agrees_of_occurrences (fun symbol => ?_)
        after.isSome_iff distinct)⟩
      rw [Assignment.isSome_collect, Pattern.mem_boundSymbols]
      rfl
    | fixed item one =>
      obtain ⟨term, others, rfl, fits, rest⟩ := (fitsAll_item one).mp all
      obtain ⟨first, matched⟩ := fixed item (.head _) term fits
      obtain ⟨assignment, after⟩ := later others rest
      exact ⟨_, .item one matched after
        (agrees_of_occurrences matched.isSome_iff after.isSome_iff distinct)⟩

/-- A pattern that binds every symbol once and checks nothing is matched where it describes the
term. -/
theorem Fits.exists_matches {pattern : Pattern} :
    pattern.tests = [] → pattern.occurrences.Nodup → ∀ term, Fits reading pattern term →
      ∃ assignment, Matches reading pattern term assignment := by
  induction pattern using Pattern.induction with
  | literal value =>
    intro _ _ term fits
    rw [fits_literal.mp fits]
    exact ⟨.empty, .literal⟩
  | nonTerminal stem symbol =>
    intro _ _ term fits
    exact ⟨_, .nonTerminal (fits_nonTerminal.mp fits)⟩
  | builtIn kind symbol =>
    intro _ _ term fits
    exact ⟨_, .builtIn (fits_builtIn.mp fits)⟩
  | sequence items each rounds =>
    intro none distinct term fits
    obtain ⟨terms, rfl, all⟩ := fits_sequence.mp fits
    have free := Pattern.tests_of_mem none
    obtain ⟨assignment, matched⟩ := exists_matchesAll items
      (fun item listed => each item listed (free item listed)
        (nodup_occurrences_of_mem listed distinct))
      (fun inner mode listed =>
        have once : (Pattern.repeated inner mode).occurrences.Nodup :=
          nodup_occurrences_of_mem listed distinct
        rounds inner mode listed (free (.repeated inner mode) listed) once)
      distinct terms all
    refine ⟨assignment, .sequence matched ?_⟩
    intro test listed
    exact absurd (free _ listed) nofun
  | inHole context contents checks around within =>
    intro none distinct term fits
    obtain ⟨sides, rfl⟩ := List.append_eq_nil_iff.mp none
    obtain ⟨left, right⟩ := List.append_eq_nil_iff.mp sides
    obtain ⟨outer, inner, one, two, decomposed⟩ := fits_inHole.mp fits
    obtain ⟨first, here⟩ := around left (List.nodup_append.mp distinct).1 outer one
    obtain ⟨second, there⟩ := within right (List.nodup_append.mp distinct).2.1 inner two
    exact ⟨_, .inHole here there decomposed
      (agrees_of_occurrences here.isSome_iff there.isSome_iff distinct) nofun⟩
  | repeated inner mode ih =>
    intro _ _ term fits
    exact absurd fits not_fits_repeated
  | check test =>
    intro _ _ term fits
    exact absurd fits not_fits_check
  | unresolved symbol =>
    intro _ _ term fits
    exact absurd fits not_fits_unresolved

end Existence

namespace Language

open Classical in
/-- What decides the leaves of the patterns of a language: non-terminals accept what they
derive. -/
noncomputable def ground (language : Language) : Ground :=
  ⟨fun stem term => decide (Derives language.reading stem term), language.mentioned⟩

theorem ground_reads (language : Language) : language.ground.Reads language.reading where
  accepts _ _ := by classical exact decide_eq_true_iff
  mentioned := rfl

variable {language : Language} {grammar : Grammar}

/-- An alternative is one of the grammar under fresh names, with modes chosen. -/
theorem Defined.exists_source (defined : language.Defined grammar) {rule : Rule}
    (listed : rule ∈ language.rules) {prepared : Prepared} (inside : prepared ∈ rule.alternatives) :
    ∃ source ∈ grammar.alternativesOf rule.name, ∃ fresh mentioned,
      mentioned.Subset language.mentioned ∧
        prepared.pattern = (source.anonymize fresh).1.classify language.closures mentioned := by
  obtain ⟨source, known, fresh, mentioned, grows, made⟩ :=
    defined.finished rule listed prepared inside
  exact ⟨source, known, fresh, mentioned, grows, (finish_eq_ok.mp made).2.1⟩

theorem Defined.exists_skeleton (defined : language.Defined grammar) {rule : Rule}
    (listed : rule ∈ language.rules) {prepared : Prepared} (inside : prepared ∈ rule.alternatives) :
    ∃ source ∈ grammar.alternativesOf rule.name, prepared.pattern.skeleton = source.skeleton := by
  obtain ⟨source, known, fresh, mentioned, _, made⟩ := defined.exists_source listed inside
  exact ⟨source, known, by rw [made, Pattern.skeleton_classify, Pattern.skeleton_anonymize]⟩

/-- A name of a language has a rule. -/
theorem Defined.hasRule (defined : language.Defined grammar) {stem : Symbol}
    (named : language.names.contains stem = true) : language.HasRule stem := by
  obtain ⟨rule, listed, rfl⟩ := defined.exists_rule.mp ((defined.names stem).mp named)
  exact ⟨rule, defined.rule?_eq listed⟩

/-- The non-terminals of a resolved pattern have rules. -/
theorem Defined.ruled (defined : language.Defined grammar) {pattern : Pattern}
    (resolved : pattern.isResolved language.names = true) :
    ∀ stem ∈ pattern.stems, language.HasRule stem :=
  fun stem listed => defined.hasRule (pattern.contains_of_mem_stems resolved stem listed)

/-- The alternatives of a language can be compiled. -/
theorem Defined.closed (defined : language.Defined grammar) : language.Closed := by
  intro rule listed alternative inside
  obtain ⟨source, known, same⟩ := defined.exists_skeleton listed inside
  have resolved := defined.resolved rule.name source known
  refine ⟨?_, ?_⟩
  · rw [← Pattern.isPlaced_skeleton, same, Pattern.isPlaced_skeleton]
    exact source.isPlaced_of_isResolved resolved
  · rw [← Pattern.stems_skeleton, same, Pattern.stems_skeleton]
    exact defined.ruled resolved

/-- Modes that are chosen against no more literal variables than there are keep the results of the
exhaustive search. -/
theorem Defined.preserves (defined : language.Defined grammar) {ground : Ground}
    (reads : ground.Reads language.reading) {pattern : Pattern} (placed : pattern.isPlaced = true)
    {earlier : SymbolSet} (grows : earlier.Subset language.mentioned) :
    Preserves ground language.closures earlier pattern := by
  have apart : ∀ left right term,
      language.closures.provablyDifferent earlier left right = true →
      Fits language.reading left term → ¬ Fits language.reading right term :=
    fun _ _ _ different => defined.not_fits_of_provablyDifferent grows different
  exact Reduct.preserves apart reads placed

/-- The search with a pattern that binds every symbol once finds the matches of the pattern, with
all modes exhaustive or chosen. -/
theorem Defined.exists_visit (defined : language.Defined grammar) {ground : Ground}
    (reads : ground.Reads language.reading) {pattern : Pattern} (placed : pattern.isPlaced = true)
    (distinct : pattern.occurrences.Nodup) (ordered : pattern.Scoped) {earlier : SymbolSet}
    (grows : earlier.Subset language.mentioned) (term : Term) {bindings : Bindings}
    (ready : bindings.Ready pattern) :
    ∃ found, visit ground pattern.exhaustive term bindings = some found ∧
      visit ground (pattern.classify language.closures earlier) term bindings = some found ∧
      Answers language.reading pattern term bindings found := by
  obtain ⟨found, visited, answers⟩ := searches reads placed distinct ordered term bindings ready
  exact ⟨found, visited, defined.preserves reads placed grows term bindings found visited, answers⟩

/-- The search with an alternative of a rule has results exactly at the terms that it describes. -/
theorem Defined.visit_alternative (defined : language.Defined grammar) {ground : Ground}
    (reads : ground.Reads language.reading) {rule : Rule} (listed : rule ∈ language.rules)
    {prepared : Prepared} (inside : prepared ∈ rule.alternatives) (term : Term) :
    ∃ found, visit ground prepared.pattern term .empty = some found ∧
      visit ground prepared.pattern.exhaustive term .empty = some found ∧
      (found ≠ [] ↔ Fits language.reading prepared.pattern term) := by
  obtain ⟨source, known, fresh, mentioned, grows, made⟩ := defined.exists_source listed inside
  have resolved := defined.resolved rule.name source known
  have free : (source.anonymize fresh).1.tests = [] := by
    rw [Pattern.tests_anonymize, source.tests_of_isResolved resolved]
  have distinct := (source.numbers_anonymize fresh).distinct
  have placed : (source.anonymize fresh).1.isPlaced = true := by
    rw [← Pattern.isPlaced_skeleton, Pattern.skeleton_anonymize, Pattern.isPlaced_skeleton]
    exact source.isPlaced_of_isResolved resolved
  have same : prepared.pattern.skeleton = (source.anonymize fresh).1.skeleton := by
    rw [made, Pattern.skeleton_classify]
  obtain ⟨found, plainly, visited, answers⟩ := defined.exists_visit reads placed distinct
    (Pattern.scoped_of_tests _ free) grows term (Bindings.ready_empty _)
  refine ⟨found, by rw [made, visited], by rw [made, Pattern.exhaustive_classify, plainly], ?_, ?_⟩
  · intro some
    obtain ⟨after, there⟩ := List.exists_mem_of_ne_nil found some
    obtain ⟨assignment, matched, _⟩ := answers.sound after there
    exact matched.fits.of_skeleton same.symm
  · intro fits
    obtain ⟨assignment, matched⟩ := Fits.exists_matches free distinct term (fits.of_skeleton same)
    obtain ⟨after, there, _⟩ := answers.complete assignment matched
    exact List.ne_nil_of_mem there

/-- What the non-terminals of a language derive solves its rules. -/
theorem Defined.solves (defined : language.Defined grammar) : language.ground.Solves language where
  mentioned := rfl
  accepts := by
    intro stem rule term found
    obtain ⟨listed, rfl⟩ := mem_rules found
    rw [Bool.eq_iff_iff, (ground_reads language).accepts, derives_iff, List.any_eq_true]
    have alternatives : language.reading.alternatives rule.name =
        rule.alternatives.map (·.pattern) := by
      simp only [reading, alternativesOf, found]
    rw [alternatives]
    constructor
    · rintro ⟨pattern, known, fits⟩
      obtain ⟨prepared, inside, rfl⟩ := List.mem_map.mp known
      obtain ⟨results, visited, _, some⟩ :=
        defined.visit_alternative (ground_reads language) listed inside term
      refine ⟨prepared, inside, ?_⟩
      rw [Ground.finds_of_visit visited, Bool.not_eq_true', List.isEmpty_eq_false_iff]
      exact some.mpr fits
    · rintro ⟨prepared, inside, finds⟩
      obtain ⟨results, visited, _, some⟩ :=
        defined.visit_alternative (ground_reads language) listed inside term
      rw [Ground.finds_of_visit visited, Bool.not_eq_true', List.isEmpty_eq_false_iff] at finds
      exact ⟨prepared.pattern, List.mem_map_of_mem inside, some.mp finds⟩

/-- Whether no rule leads back to itself by the heads of alternatives, as ranks tell. -/
def HeadsRanked (language : Language) : Prop :=
  ∃ rank : Symbol → Nat, ∀ rule ∈ language.rules, ∀ alternative ∈ rule.alternatives,
    ∀ stem ∈ alternative.pattern.heads, rank stem < rank rule.name

/-- The predicates of a compiled language come to an end and tell what its non-terminals derive,
if its heads are ranked. -/
theorem Defined.predicateMeets (defined : language.Defined grammar) (policy : Policy)
    {machine : Machine} {draft : Draft} (compiled : Compiled machine language draft)
    (ranked : language.HeadsRanked) (stem : Symbol) (term : Term) (proper : term.Proper) :
    Matcher.PredicateMeets (.total policy) machine language draft language.ground stem term := by
  obtain ⟨rank, lower⟩ := ranked
  refine compiled.predicateMeets_total policy defined.solves ?_ lower _ _ stem term rfl rfl proper
  intro rule listed alternative inside term
  obtain ⟨found, visited, _⟩ :=
    defined.visit_alternative (ground_reads language) listed inside term
  rw [visited]
  rfl

end Language

end Reduct
