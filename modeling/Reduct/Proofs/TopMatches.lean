import Reduct.Proofs.CheckedMatches
import Reduct.Proofs.ContextAcceptance
import Reduct.Proofs.MatcherResults

/-!
# The results of top-level matchers

The top-level matcher of a pattern that a language accepts comes to an end at every term, if the
rules of the language are ranked by the heads of their alternatives. It gives a list of finished
bindings: one at least for every match of the pattern as it is written, and none besides.
-/

namespace Reduct

namespace Bindings

theorem find?_eraseAll (symbols : List Symbol) (bindings : Bindings) (symbol : Symbol) :
    (bindings.eraseAll symbols).bound.find? symbol =
      if symbol ∈ symbols then none else bindings.bound.find? symbol := by
  unfold eraseAll
  induction symbols generalizing bindings with
  | nil => rfl
  | cons first rest ih =>
    rw [List.foldl_cons, ih, erase, Table.find?_erase]
    by_cases listed : symbol ∈ rest
    · rw [if_pos listed, if_pos (List.mem_cons_of_mem _ listed)]
    · rw [if_neg listed]
      by_cases same : first = symbol
      · rw [if_pos same, if_pos (same ▸ List.mem_cons_self)]
      · rw [if_neg same, if_neg (List.not_mem_cons_of_ne_of_not_mem (Ne.symm same) listed)]

theorem lookup_eraseAll (symbols : List Symbol) (bindings : Bindings) :
    (bindings.eraseAll symbols).lookup = Assignment.without bindings.lookup symbols := by
  funext symbol
  rw [lookup, find?_eraseAll, Assignment.without]
  split <;> simp_all [lookup]

theorem Finished.eraseAll {bindings : Bindings} (finished : bindings.Finished)
    (symbols : List Symbol) : (bindings.eraseAll symbols).Finished := by
  intro symbol stack found
  rw [find?_eraseAll] at found
  split at found
  · cases found
  · exact finished symbol stack found

end Bindings

namespace Language

/-- A pattern was accepted at some state of an accepted language, which may have prepared other
patterns since. -/
inductive Prepares (definition : LanguageDefinition) (span : Span) (pattern resolved : Pattern)
    (prepared : Prepared) : Language → Prop
  | prepare {language : Language} {mentioned : SymbolSet} (stage : Stage definition span language)
      (found : (pattern.resolve language.names).run language.mentioned = (.ok resolved, mentioned))
      (accepted : (language.prepare pattern).1 = .ok prepared) :
      Prepares definition span pattern resolved prepared (language.prepare pattern).2
  | later {language : Language} (earlier : Prepares definition span pattern resolved prepared language)
      (other : Pattern) :
      Prepares definition span pattern resolved prepared (language.prepare other).2

section Facts

variable {definition : LanguageDefinition} {span : Span} {pattern resolved : Pattern}
  {prepared : Prepared} {language : Language}

theorem Prepares.stage (prepares : Prepares definition span pattern resolved prepared language) :
    Stage definition span language := by
  induction prepares with
  | prepare stage => exact stage.prepare pattern
  | later _ other ih => exact ih.prepare other

/-- What a prepared pattern is made of: the modes are chosen for the pattern with checks, against
literal variables that the language knows. -/
theorem Prepares.made (prepares : Prepares definition span pattern resolved prepared language) :
    (∃ before after, (pattern.resolve language.names).run before = (.ok resolved, after)) ∧
    ∃ fresh earlier, earlier.Subset language.mentioned ∧
      prepared.pattern =
        (resolved.insertChecks fresh).1.pattern.classify language.closures earlier ∧
      prepared.synthetic = (resolved.insertChecks fresh).1.synthetic.map (·.1) ∧
      checkContexts language.holes prepared.pattern = .ok () := by
  induction prepares with
  | @prepare start mentioned stage found accepted =>
    cases depths : resolved.depths with
    | error fault =>
      rw [Language.prepare, found] at accepted
      simp only [depths] at accepted
      cases accepted
    | ok inner =>
      rw [prepare_fst found depths] at accepted
      obtain ⟨_, made, contexts, synthetic⟩ := finish_eq_ok.mp accepted
      obtain ⟨_, _, _, same⟩ := prepare_snd start pattern
      have names : (start.prepare pattern).2.names = start.names := by rw [same]
      exact ⟨⟨_, _, by rw [names, found]⟩, start.fresh, _, fun _ known => known, made, synthetic,
        contexts⟩
  | @later before _ other ih =>
    obtain ⟨resolves, fresh, earlier, grows, made, rest⟩ := ih
    obtain ⟨_, _, more, same⟩ := prepare_snd before other
    rw [same]
    exact ⟨resolves, fresh, earlier, fun name known => more name (grows name known), made, rest⟩

/-- The depths of a prepared pattern are those of the pattern with checks, which adds the fresh
names. -/
theorem Prepares.exists_depths
    (prepares : Prepares definition span pattern resolved prepared language) :
    ∃ fresh inner, resolved.depths = .ok inner ∧
      (resolved.insertChecks fresh).1.pattern.depths = .ok prepared.depths ∧
      prepared.synthetic = (resolved.insertChecks fresh).1.synthetic.map (·.1) := by
  induction prepares with
  | @prepare start mentioned stage found accepted =>
    cases depths : resolved.depths with
    | error fault =>
      rw [Language.prepare, found] at accepted
      simp only [depths] at accepted
      cases accepted
    | ok inner =>
      rw [prepare_fst found depths] at accepted
      obtain ⟨known, _, _, synthetic⟩ := finish_eq_ok.mp accepted
      exact ⟨start.fresh, inner, rfl, known, synthetic⟩
  | later _ _ ih => exact ih

end Facts

end Language

open Draft Matcher

/-- The top-level matcher of a prepared pattern can be compiled after any functions for languages
of different names. A machine that carries it, without a limit of calls, gives with enough fuel a
list of bindings as they are expected at the term, unless a list has no room for more. -/
def TopGives (language : Language) (prepared : Prepared)
    (expected : Term → List Bindings → Prop) : Prop :=
  ∀ (languages : Language → Prop) (before : Draft), Apart languages → languages language →
    before.Sound languages [] →
    ∃ name draft, Yields (compileTop language prepared) before name draft ∧
      ∀ machine : Machine, machine.Carries draft → machine.calls.limit = none →
        ∀ term : Term, term.Proper → ∃ enough, ∀ fuel, enough ≤ fuel →
          (∃ place found after, machine.call fuel name [.term term] = (.ok (.list place), after) ∧
            Display.found.Lists after.store place found ∧ expected term found) ∨
          ∃ after, machine.call fuel name [.term term] = (.error .exhausted, after) ∧
            after.store.Crowded

/-- The body of a top-level matcher gives what the search with its pattern finds, if the predicates
are right that the pattern consults. -/
theorem Compiled.topPerforms {judgement : Judgement} {machine : Machine} {language : Language}
    {draft : Draft} {ground : Ground} (compiled : Compiled machine language draft)
    (same : ground.mentioned = language.mentioned) {prepared : Prepared}
    (placed : prepared.pattern.isPlaced = true) (plain : prepared.pattern.spellsHole = false)
    {name inner : Symbol} {count : Nat}
    (reserved : lookupIn (language.name, prepared.pattern) draft.matchers = some inner)
    (written : .define name [whole] (topBody prepared.synthetic inner ("rs" ++ toString count)
      ("out" ++ toString (count + 1)) ("m" ++ toString (count + 2)) ("h" ++ toString (count + 3))
      ("m" ++ toString (count + 4))) ∈ draft.functions) {term : Term} (proper : term.Proper)
    (accepts : ∀ stem part, part.Proper →
      PredicateMeets judgement machine language draft ground stem part)
    (expected : judgement.Expects (visit ground prepared.pattern term .empty)) (store : Store) :
    Performs judgement machine name [.term term] store
      (GivesFound store ((visit ground prepared.pattern term .empty).map
        fun found => found.map (Bindings.eraseAll prepared.synthetic))) := by
  have meets := compiled.matcherMeets same placed plain proper
    fun stem part consults => accepts stem part (consults.proper proper)
  have slots : Slots count ["rs" ++ toString count, "out" ++ toString (count + 1),
      "m" ++ toString (count + 2), "h" ++ toString (count + 3), "m" ++ toString (count + 4)] :=
    ⟨⟨_, by decide, by decide, rfl⟩, ⟨_, by decide, by decide, rfl⟩,
      ⟨_, by decide, by decide, rfl⟩, ⟨_, by decide, by decide, rfl⟩,
      ⟨_, by decide, by decide, rfl⟩, trivial⟩
  exact ⟨_, compiled.carries.functions _ _ _ written, rfl,
    topBody_runs slots meets reserved expected store⟩

namespace Language

variable {definition : LanguageDefinition} {span : Span} {pattern resolved : Pattern}
  {prepared : Prepared} {language : Language}

/-- A prepared pattern can be compiled, and takes the terms that its written form takes. -/
theorem Prepares.compilable {grammar : Grammar} (defined : language.Defined grammar)
    (prepares : Prepares definition span pattern resolved prepared language)
    (written : pattern.isWritten = true) (plain : pattern.spellsHole = false) :
    resolved.isResolved language.names = true ∧ prepared.pattern.skeleton = resolved.skeleton ∧
      prepared.pattern.isPlaced = true ∧ prepared.pattern.spellsHole = false ∧
      ∀ stem ∈ prepared.pattern.stems, language.HasRule stem := by
  obtain ⟨⟨before, after, found⟩, fresh, earlier, _, made, _⟩ := prepares.made
  have resolves := Pattern.isResolved_resolve pattern written found
  have shape : prepared.pattern.skeleton = resolved.skeleton := by
    rw [made, Pattern.skeleton_classify, Pattern.skeleton_insertChecks]
  refine ⟨resolves, shape, ?_, ?_, ?_⟩
  · rw [← Pattern.isPlaced_skeleton, shape, Pattern.isPlaced_skeleton]
    exact resolved.isPlaced_of_isResolved resolves
  · rw [← Pattern.spellsHole_skeleton, shape, Pattern.spellsHole_skeleton]
    exact Pattern.spellsHole_resolve pattern plain found
  · rw [← Pattern.stems_skeleton, shape, Pattern.stems_skeleton]
    exact defined.ruled resolves

/-- Finished bindings that hold exactly the matches of a pattern at a term. -/
def HoldsMatches (language : Language) (pattern : Pattern) (term : Term) (found : List Bindings) :
    Prop :=
  (∀ bindings ∈ found, bindings.Finished) ∧ ∀ assignment : Assignment,
    (∃ bindings ∈ found, bindings.lookup = assignment) ↔
      Matches language.reading pattern term assignment

/-- The search with a prepared pattern holds the matches of the pattern as it is written. -/
theorem Prepares.exists_visit {grammar : Grammar} (defined : language.Defined grammar)
    (prepares : Prepares definition span pattern resolved prepared language)
    (written : pattern.isWritten = true)
    (unmarked : ∀ symbol ∈ resolved.boundSymbols, Symbol.isSynthetic symbol = false)
    (term : Term) :
    ∃ found, visit language.ground prepared.pattern term .empty = some found ∧
      language.HoldsMatches resolved term
        (found.map (Bindings.eraseAll prepared.synthetic)) := by
  obtain ⟨⟨before, after, resolves⟩, fresh, earlier, grows, made, synthetic, _⟩ := prepares.made
  have proper := Pattern.isResolved_resolve pattern written resolves
  have free := resolved.tests_of_isResolved proper
  have plain : ∀ symbol ∈ resolved.occurrences, Symbol.isSynthetic symbol = false :=
    fun symbol listed => unmarked symbol (Pattern.mem_boundSymbols.mpr listed)
  have placed : (resolved.insertChecks fresh).1.pattern.isPlaced = true := by
    rw [← Pattern.isPlaced_skeleton, Pattern.skeleton_insertChecks, Pattern.isPlaced_skeleton]
    exact resolved.isPlaced_of_isResolved proper
  obtain ⟨found, _, visited, answers⟩ := defined.exists_visit (ground_reads language) placed
    (Pattern.nodup_insertChecks fresh plain) (Pattern.scoped_insertChecks fresh plain free) grows
    term (Bindings.ready_empty _)
  refine ⟨found, by rw [made, visited], fun bindings listed => ?_, fun assignment => ?_⟩
  · obtain ⟨after, there, rfl⟩ := List.mem_map.mp listed
    obtain ⟨named, _, extends_⟩ := answers.sound after there
    exact extends_.finished.1.eraseAll _
  · rw [Pattern.matches_insertChecks fresh plain free, synthetic]
    constructor
    · rintro ⟨bindings, listed, rfl⟩
      obtain ⟨after, there, rfl⟩ := List.mem_map.mp listed
      obtain ⟨named, matched, made⟩ := answers.sound after there
      exact ⟨named, matched, by rw [Bindings.lookup_eraseAll, made.finished.2]⟩
    · rintro ⟨named, matched, rfl⟩
      obtain ⟨after, there, made⟩ := answers.complete named matched
      exact ⟨_, List.mem_map_of_mem there, by rw [Bindings.lookup_eraseAll, made.finished.2]⟩

end Language

/-- Whether a language and then a pattern are accepted, and what they are prepared to passes a
test. -/
def preparesTo (definition : LanguageDefinition) (pattern : Pattern)
    (test : Language → Pattern → Prepared → Bool) : Bool :=
  match Language.define definition default with
  | .ok language =>
    match ((pattern.resolve language.names).run language.mentioned).1, language.prepare pattern with
    | .ok resolved, (.ok prepared, after) => test after resolved prepared
    | _, _ => false
  | .error _ => false

/-- Trees that begin and end with the same tree. -/
def sameEnds : Pattern :=
  .sequence [.unresolved "e_1", .repeated (.unresolved "e_2") .exhaustive, .unresolved "e_1"]

end Reduct
