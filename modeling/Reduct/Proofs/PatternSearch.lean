import Reduct.Proofs.FreshRenaming
import Reduct.Proofs.Hygiene

/-!
# The search for a written pattern

What a top-level matcher gives does not depend on the names that were fresh when its pattern was
prepared, nor on the modes that were chosen for its repetitions. It is the result of one search,
which the language, the pattern as it is written and the term decide.
-/

namespace Reduct

/-- Related lists have equal images, if related members have. -/
theorem map_eq_of_forall₂ {α β γ : Type} {related : α → β → Prop} {items : List α}
    {others : List β} (all : List.Forall₂ related items others) {left : α → γ} {right : β → γ}
    (same : ∀ item ∈ items, ∀ other ∈ others, related item other → left item = right other) :
    items.map left = others.map right := by
  induction all with
  | nil => rfl
  | cons first _ ih =>
    rw [List.map_cons, List.map_cons, same _ List.mem_cons_self _ List.mem_cons_self first,
      ih fun item listed other among =>
        same item (List.mem_cons_of_mem _ listed) other (List.mem_cons_of_mem _ among)]

namespace Bindings

theorem levels_eraseAll (symbols : List Symbol) (bindings : Bindings) (symbol : Symbol) :
    (bindings.eraseAll symbols).levels symbol =
      if symbol ∈ symbols then [] else bindings.levels symbol := by
  unfold levels
  rw [find?_eraseAll]
  split <;> rfl

theorem WellFormed.eraseAll {bindings : Bindings} (wellFormed : bindings.WellFormed)
    (symbols : List Symbol) : (bindings.eraseAll symbols).WellFormed := by
  unfold Bindings.eraseAll
  induction symbols generalizing bindings with
  | nil => exact wellFormed
  | cons first rest ih =>
    refine ih ⟨wellFormed.sorted.filter _, fun symbol => ?_⟩
    rw [erase, Table.find?_erase]
    split
    · exact (Option.some_ne_none _).symm
    · exact wellFormed.occupied symbol

/-- Bindings are known by their levels. -/
theorem WellFormed.eq_of_levels {one two : Bindings} (wellFormed : one.WellFormed)
    (formed : two.WellFormed) (same : ∀ symbol, one.levels symbol = two.levels symbol) :
    one = two := by
  have tables : one.bound = two.bound := by
    refine wellFormed.sorted.eq_of_find? formed.sorted fun symbol => ?_
    rw [wellFormed.find?_eq, formed.find?_eq, same]
  cases one
  exact congrArg Bindings.mk tables

/-- Bindings that are alike are equal once the fresh names are dropped, if only plain names are
left. -/
theorem Alike.eraseAll_eq {fresh other : FreshNames} {one two : Bindings}
    (alike : Alike (Counterparts fresh other) one two) {left right : List Symbol}
    (marked : ∀ symbol ∈ left, Symbol.isSynthetic symbol = true)
    (fewer : ∀ symbol ∈ right, Symbol.isSynthetic symbol = true)
    (wellFormed : one.WellFormed) (formed : two.WellFormed)
    (plain : ∀ symbol, Symbol.isSynthetic symbol = true →
      (one.eraseAll left).levels symbol = [] ∧ (two.eraseAll right).levels symbol = []) :
    one.eraseAll left = two.eraseAll right := by
  refine (wellFormed.eraseAll left).eq_of_levels (formed.eraseAll right) fun symbol => ?_
  cases mark : Symbol.isSynthetic symbol with
  | true =>
    obtain ⟨here, there⟩ := plain symbol mark
    rw [here, there]
  | false =>
    have outside : symbol ∉ left := fun listed => by simp [marked symbol listed] at mark
    have beside : symbol ∉ right := fun listed => by simp [fewer symbol listed] at mark
    rw [levels_eraseAll, levels_eraseAll, if_neg outside, if_neg beside]
    exact alike.same symbol symbol (.inl ⟨rfl, mark⟩)

end Bindings

namespace Language

/-- The matches of a resolved pattern at a term, in the order in which the matchers give them: the
repetitions are tried from the shortest on. -/
noncomputable def search (language : Language) (resolved : Pattern) (term : Term) :
    Option (List Bindings) :=
  let constrained := (resolved.insertChecks .empty).1
  (visit language.ground constrained.pattern.exhaustive term .empty).map
    (List.map (Bindings.eraseAll (constrained.synthetic.map (·.1))))

section Checked

variable {language : Language} {grammar : Grammar} {resolved : Pattern}

/-- The search with the checks inserted finds bindings without fresh names, beside those that it
drops, in whichever mode the repetitions are tried. -/
theorem Defined.exists_checked (defined : language.Defined grammar)
    (proper : resolved.isResolved language.names = true)
    (plain : ∀ symbol ∈ resolved.occurrences, Symbol.isSynthetic symbol = false)
    (fresh : FreshNames) {earlier : SymbolSet} (grows : earlier.Subset language.mentioned)
    (term : Term) :
    ∃ found, visit language.ground (resolved.insertChecks fresh).1.pattern.exhaustive term .empty =
        some found ∧
      visit language.ground
        ((resolved.insertChecks fresh).1.pattern.classify language.closures earlier) term .empty =
        some found ∧
      ∀ bindings ∈ found, bindings.WellFormed ∧ ∀ symbol, Symbol.isSynthetic symbol = true →
        (bindings.eraseAll ((resolved.insertChecks fresh).1.synthetic.map (·.1))).levels symbol =
          [] := by
  have free := resolved.tests_of_isResolved proper
  have placed : (resolved.insertChecks fresh).1.pattern.isPlaced = true := by
    rw [← Pattern.isPlaced_skeleton, Pattern.skeleton_insertChecks, Pattern.isPlaced_skeleton]
    exact resolved.isPlaced_of_isResolved proper
  obtain ⟨found, exhausted, visited, answers⟩ := defined.exists_visit (ground_reads language) placed
    (Pattern.nodup_insertChecks fresh plain) (Pattern.scoped_insertChecks fresh plain free) grows
    term (Bindings.ready_empty _)
  refine ⟨found, exhausted, visited, fun bindings listed => ?_⟩
  obtain ⟨named, matched, extends_⟩ := answers.sound bindings listed
  refine ⟨extends_.wellFormed, fun symbol mark => ?_⟩
  have written : Matches language.reading resolved term _ :=
    (Pattern.matches_insertChecks fresh plain free).mpr ⟨named, matched, rfl⟩
  have unbound : (bindings.eraseAll
      ((resolved.insertChecks fresh).1.synthetic.map (·.1))).lookup symbol = none := by
    rw [Bindings.lookup_eraseAll, extends_.finished.2, ← Option.not_isSome_iff_eq_none,
      written.isSome_iff]
    intro occurs
    simp [plain symbol occurs] at mark
  have finished := extends_.finished.1.eraseAll
    ((resolved.insertChecks fresh).1.synthetic.map (·.1))
  unfold Bindings.lookup at unbound
  unfold Bindings.levels
  cases stack : (bindings.eraseAll
      ((resolved.insertChecks fresh).1.synthetic.map (·.1))).bound.find? symbol with
  | none => rfl
  | some levels =>
    obtain ⟨level, rfl⟩ := finished symbol levels stack
    rw [stack] at unbound
    cases unbound

/-- The names that are fresh when the checks are inserted play no part in what is found. -/
theorem Defined.checked_eq (defined : language.Defined grammar)
    (proper : resolved.isResolved language.names = true)
    (plain : ∀ symbol ∈ resolved.occurrences, Symbol.isSynthetic symbol = false)
    (fresh : FreshNames) {earlier : SymbolSet} (grows : earlier.Subset language.mentioned)
    (term : Term) :
    (visit language.ground
      ((resolved.insertChecks fresh).1.pattern.classify language.closures earlier) term .empty).map
      (List.map (Bindings.eraseAll ((resolved.insertChecks fresh).1.synthetic.map (·.1)))) =
    language.search resolved term := by
  obtain ⟨found, exhausted, classified, plainly⟩ :=
    defined.exists_checked proper plain fresh grows term
  obtain ⟨results, searched, _, again⟩ := defined.exists_checked proper plain .empty grows term
  have alike := alike_visit (oneToOne_counterparts fresh .empty) language.ground _
    (Pattern.renamed_insertChecks (resolved.tests_of_isResolved proper) plain fresh
      .empty).exhaustive term _ _ (Bindings.alike_empty _) found results exhausted searched
  have marked := (Pattern.numbers_insertChecks resolved fresh).marked
  have fewer := (Pattern.numbers_insertChecks resolved .empty).marked
  simp only [search, classified, searched, Option.map_some]
  refine congrArg some (map_eq_of_forall₂ alike fun one listed two among related => ?_)
  obtain ⟨wellFormed, dropped⟩ := plainly one listed
  obtain ⟨formed, left⟩ := again two among
  exact related.eraseAll_eq marked fewer wellFormed formed fun symbol mark =>
    ⟨dropped symbol mark, left symbol mark⟩

end Checked

section Prepared

variable {definition : LanguageDefinition} {span : Span} {pattern resolved : Pattern}
  {prepared : Prepared} {language : Language} {grammar : Grammar}

/-- The search with a prepared pattern finds what the search for the written pattern does. -/
theorem Prepares.search_eq (defined : language.Defined grammar)
    (prepares : Prepares definition span pattern resolved prepared language)
    (written : pattern.isWritten = true)
    (unmarked : ∀ symbol ∈ resolved.boundSymbols, Symbol.isSynthetic symbol = false)
    (term : Term) :
    (visit language.ground prepared.pattern term .empty).map
      (List.map (Bindings.eraseAll prepared.synthetic)) = language.search resolved term := by
  obtain ⟨⟨_, _, resolves⟩, fresh, earlier, grows, made, synthetic, _⟩ := prepares.made
  rw [made, synthetic]
  exact defined.checked_eq (Pattern.isResolved_resolve pattern written resolves)
    (fun symbol listed => unmarked symbol (Pattern.mem_boundSymbols.mpr listed)) fresh grows term

/-- The search for a written pattern finds its matches. -/
theorem Prepares.exists_search (defined : language.Defined grammar)
    (prepares : Prepares definition span pattern resolved prepared language)
    (written : pattern.isWritten = true)
    (unmarked : ∀ symbol ∈ resolved.boundSymbols, Symbol.isSynthetic symbol = false)
    (term : Term) :
    ∃ found, language.search resolved term = some found ∧
      language.HoldsMatches resolved term found := by
  obtain ⟨found, visited, holds⟩ := prepares.exists_visit defined written unmarked term
  refine ⟨_, ?_, holds⟩
  rw [← prepares.search_eq defined written unmarked, visited]
  rfl

/-- The bindings that the search for a written pattern finds are well-formed. -/
theorem Prepares.wellFormed_search (defined : language.Defined grammar)
    (prepares : Prepares definition span pattern resolved prepared language)
    (written : pattern.isWritten = true)
    (unmarked : ∀ symbol ∈ resolved.boundSymbols, Symbol.isSynthetic symbol = false)
    {term : Term} {found : List Bindings} (searched : language.search resolved term = some found) :
    ∀ bindings ∈ found, bindings.WellFormed := by
  obtain ⟨⟨_, _, resolves⟩, _⟩ := prepares.made
  have nothing : SymbolSet.empty.Subset language.mentioned := nofun
  obtain ⟨results, visited, _, each⟩ := defined.exists_checked
    (Pattern.isResolved_resolve pattern written resolves)
    (fun symbol listed => unmarked symbol (Pattern.mem_boundSymbols.mpr listed)) .empty nothing term
  rw [Language.search, visited, Option.map_some, Option.some.injEq] at searched
  intro bindings listed
  rw [← searched] at listed
  obtain ⟨result, among, rfl⟩ := List.mem_map.mp listed
  exact (each result among).1.eraseAll _

end Prepared

end Language

end Reduct
