import Reduct.Proofs.Loading
import Reduct.Proofs.Recognition

/-!
# The results of compiled matchers

The matcher that is compiled for a pattern of an accepted language gives, whenever it gives a
value, the list that the search by frontiers finds, in the same order, and leaves the bindings of
its caller as they were. The repetitions of the pattern may have any modes.
-/

namespace Reduct

namespace Pattern

/-- The symbol `hole` never stands for a literal variable. -/
theorem resolution_hole (names : SymbolSet) : Symbol.resolution names "hole" ≠ .literal := by
  have stem : Symbol.stem "hole" = "hole" := by decide
  unfold Symbol.resolution
  rw [stem]
  dsimp only
  split
  · nofun
  · rw [if_neg (by decide), if_neg (by decide), show BuiltIn.ofKeyword? "hole" = some .hole by decide]
    nofun

theorem spellsHole_ofSymbol {names before after : SymbolSet} {symbol : Symbol} {resolved : Pattern}
    (accepted : (ofSymbol names symbol).run before = (.ok resolved, after)) :
    resolved.spellsHole = false := by
  unfold ofSymbol at accepted
  split at accepted
  · cases accepted
    rfl
  · cases accepted
    rfl
  · cases accepted
  · rename_i literal
    cases accepted
    refine decide_eq_false fun same => ?_
    injection same with named
    exact resolution_hole names (named ▸ literal)

mutual

/-- Resolution makes no literal out of the symbol `hole`. -/
theorem spellsHole_resolve {names : SymbolSet} : (pattern : Pattern) → {resolved : Pattern} →
    {before after : SymbolSet} → pattern.spellsHole = false →
    (pattern.resolve names).run before = (.ok resolved, after) → resolved.spellsHole = false
  | .unresolved symbol, resolved, before, after, _, accepted => spellsHole_ofSymbol accepted
  | .literal value, resolved, before, after, plain, accepted => by
    cases value <;> (cases accepted; exact plain)
  | .builtIn .., resolved, before, after, _, accepted
  | .nonTerminal .., resolved, before, after, _, accepted
  | .check _, resolved, before, after, _, accepted => by
    cases accepted
    rfl
  | .sequence items, resolved, before, after, plain, accepted => by
    rw [resolve] at accepted
    obtain ⟨all, middle, first, last⟩ := run_bind_eq_ok.mp accepted
    obtain ⟨rfl, rfl⟩ := run_pure_eq_ok.mp last
    exact spellsHoleAny_resolveAll items plain first
  | .repeated inner mode, resolved, before, after, plain, accepted => by
    rw [resolve] at accepted
    obtain ⟨body, middle, first, last⟩ := run_bind_eq_ok.mp accepted
    obtain ⟨rfl, rfl⟩ := run_pure_eq_ok.mp last
    change body.spellsHole = false
    exact spellsHole_resolve inner plain first
  | .inHole context contents checks, resolved, before, after, plain, accepted => by
    rw [resolve] at accepted
    obtain ⟨outer, middle, first, rest⟩ := run_bind_eq_ok.mp accepted
    obtain ⟨inner, later, second, last⟩ := run_bind_eq_ok.mp rest
    obtain ⟨rfl, rfl⟩ := run_pure_eq_ok.mp last
    rw [spellsHole, Bool.or_eq_false_iff] at plain ⊢
    exact ⟨spellsHole_resolve context plain.1 first, spellsHole_resolve contents plain.2 second⟩

theorem spellsHoleAny_resolveAll {names : SymbolSet} : (items : List Pattern) →
    {resolved : List Pattern} → {before after : SymbolSet} → spellsHoleAny items = false →
    (resolveAll names items).run before = (.ok resolved, after) → spellsHoleAny resolved = false
  | [], resolved, before, after, _, accepted => by
    cases accepted
    rfl
  | item :: rest, resolved, before, after, plain, accepted => by
    rw [resolveAll] at accepted
    obtain ⟨first, middle, here, last⟩ := run_bind_eq_ok.mp accepted
    obtain ⟨others, later, second, all⟩ := run_bind_eq_ok.mp last
    obtain ⟨rfl, rfl⟩ := run_pure_eq_ok.mp all
    rw [spellsHoleAny, Bool.or_eq_false_iff] at plain ⊢
    exact ⟨spellsHole_resolve item plain.1 here, spellsHoleAny_resolveAll rest plain.2 second⟩

end

end Pattern

/-- Whether a literal of a definition is the variable named `hole`. The reader gives none. -/
def LanguageDefinition.spellsHole (definition : LanguageDefinition) : Bool :=
  definition.rules.any fun rule => Pattern.spellsHoleAny rule.alternatives

namespace Language

/-- Rules without such literals resolve to alternatives without them. -/
theorem resolveRules_plain {names : SymbolSet} {rules : List RuleDefinition} :
    ∀ {before after : SymbolSet} {resolved : List (Symbol × List Pattern)},
      (∀ rule ∈ rules, Pattern.spellsHoleAny rule.alternatives = false) →
      resolveRules names rules before = .ok (resolved, after) →
      ∀ entry ∈ resolved, Pattern.spellsHoleAny entry.2 = false := by
  induction rules with
  | nil =>
    intro before after resolved _ accepted
    cases accepted
    exact List.forall_mem_nil _
  | cons rule rest ih =>
    intro before after resolved plain accepted
    obtain ⟨first, others⟩ := List.forall_mem_cons.mp plain
    rw [resolveRules] at accepted
    rcases ran : (Pattern.resolveAll names rule.alternatives).run before with ⟨outcome, middle⟩
    simp only [ran] at accepted
    obtain ⟨alternatives, located, accepted⟩ := Except.bind_eq_ok.mp accepted
    obtain ⟨⟨later, final⟩, remaining, made⟩ := Except.bind_eq_ok.mp accepted
    cases made
    rw [locate_eq_ok.mp located] at ran
    exact List.forall_mem_cons.mpr
      ⟨Pattern.spellsHoleAny_resolveAll _ first ran, ih others remaining⟩

/-- No literal of a rule of an accepted language is the variable named `hole`. -/
theorem Stage.plain {definition : LanguageDefinition} {span : Span} {language : Language}
    (plain : definition.spellsHole = false) (stage : Stage definition span language) :
    ∀ rule ∈ language.rules, ∀ alternative ∈ rule.alternatives,
      alternative.pattern.spellsHole = false := by
  induction stage with
  | define accepted =>
    obtain ⟨_, names, rest⟩ := Except.bind_eq_ok.mp accepted
    obtain ⟨⟨resolved, mentioned⟩, found, last⟩ := Except.bind_eq_ok.mp rest
    dsimp only at last
    cases cycle : (Grammar.ofRules resolved).aliasCycle? with
    | some way =>
      rw [cycle] at last
      cases last
    | none =>
      rw [cycle] at last
      obtain ⟨⟨rules, fresh⟩, finished, made⟩ := Except.bind_eq_ok.mp last
      cases made
      intro rule listed prepared inside
      obtain ⟨_, start, stop, source⟩ := (finishRules_eq_ok finished).2 rule listed
      obtain ⟨alternative, known, _, ended⟩ := (finishAlternatives_eq_ok source).2 prepared inside
      rw [(finish_eq_ok.mp ended).2.1, ← Pattern.spellsHole_skeleton, Pattern.skeleton_classify,
        Pattern.skeleton_anonymize, Pattern.spellsHole_skeleton]
      obtain ⟨entry, among, here⟩ := Grammar.exists_of_mem_ofRules known
      have rules : ∀ rule ∈ definition.rules, Pattern.spellsHoleAny rule.alternatives = false :=
        fun rule there => by simpa using List.any_eq_false.mp plain rule there
      exact Pattern.spellsHole_of_mem (resolveRules_plain rules found entry among) alternative here
  | prepare _ pattern ih =>
    obtain ⟨_, _, _, same⟩ := prepare_snd _ pattern
    rw [same]
    exact ih

end Language

/-- A draft in which nothing is left unfinished has the matchers and predicates of a language. -/
theorem Draft.Sound.compiled {languages : Language → Prop} {language : Language} {draft : Draft}
    (sound : draft.Sound languages []) (listed : languages language) (closed : language.Closed)
    (plain : ∀ rule ∈ language.rules, ∀ alternative ∈ rule.alternatives,
      alternative.pattern.spellsHole = false) {machine : Machine}
    (carries : machine.Carries draft) : Compiled machine language draft where
  closed := closed
  plain := plain
  carries := carries
  matchers pattern name reserved :=
    (sound.matchers language listed pattern name reserved).resolve_left List.not_mem_nil
  predicates stem name reserved :=
    (sound.predicates language listed stem name reserved).resolve_left List.not_mem_nil
  mentioned := sound.mentioned language listed

/-- A language is told apart from itself. -/
theorem Draft.apart_self (language : Language) : Draft.Apart (· = language) := by
  rintro first second rfl rfl _
  rfl

/-- What the matcher of a pattern finds at the terms from one position up to another: the states
of a repetition, and for any other pattern its results at the first of the terms. -/
def searchRange (ground : Ground) (pattern : Pattern) (terms : List Term) (head tail : Nat)
    (bindings : Bindings) : Option (List Reached) :=
  match pattern with
  | .repeated inner mode =>
    repetition inner.boundSymbols mode (visit ground inner) (terms.take tail) (bindings, head)
  | fixed =>
    if head < tail then
      terms[head]?.bind fun term =>
        (visit ground fixed term bindings).map fun found => found.map (·, head + 1)
    else some []

theorem searchRange_fixed (ground : Ground) {pattern : Pattern}
    (fixed : pattern.isFixedWidth = true) (terms : List Term) (head tail : Nat)
    (bindings : Bindings) :
    searchRange ground pattern terms head tail bindings =
      if head < tail then
        terms[head]?.bind fun term =>
          (visit ground pattern term bindings).map fun found => found.map (·, head + 1)
      else some [] := by
  cases pattern with
  | repeated inner mode => cases fixed
  | _ => rfl

theorem Pattern.isFixedWidth_of_isPlaced {pattern : Pattern} (placed : pattern.isPlaced = true) :
    pattern.isFixedWidth = true := by
  cases pattern with
  | repeated | check | unresolved => cases placed
  | _ => rfl

open Draft Matcher

/-- The body of the matcher of an item gives what the item finds in the range, if the predicates
are right. -/
theorem Compiled.performs {judgement : Judgement} {machine : Machine} {language : Language}
    {draft : Draft} {ground : Ground} (compiled : Compiled machine language draft)
    (same : ground.mentioned = language.mentioned) {pattern : Pattern}
    (item : pattern.isItem = true) (plain : pattern.spellsHole = false)
    (accepts : ∀ stem term, term.Proper →
      PredicateMeets judgement machine language draft ground stem term) {name : Symbol}
    (reserved : lookupIn (language.name, pattern) draft.matchers = some name) {terms : List Term}
    (proper : (Term.sequence terms).Proper) {head tail place : Nat} {bindings : Bindings}
    {store : Store} (within : head ≤ tail) (bound : tail ≤ terms.length)
    (held : store.cell? place = some (.bindings bindings))
    (expected : judgement.Expects (searchRange ground pattern terms head tail bindings)) :
    Performs judgement machine name (callArguments terms head tail place) store
      (GivesList store (searchRange ground pattern terms head tail bindings)) := by
  have meets : ∀ {inner : Pattern}, inner.isPlaced = true → inner.spellsHole = false →
      ∀ term ∈ terms, MatcherMeets judgement machine language draft ground inner term :=
    fun placed plain term among => compiled.matcherMeets same placed plain (proper.of_mem among)
      fun stem part consults => accepts stem part (consults.proper (proper.of_mem among))
  by_cases many : ∃ inner mode, pattern = .repeated inner mode
  · obtain ⟨inner, mode, rfl⟩ := many
    exact compiled.repeatMeets item mode proper.counted (meets item plain) name reserved head tail
      place bindings store within bound held expected
  · have placed : pattern.isPlaced = true := by
      cases pattern with
      | repeated inner mode => exact absurd ⟨inner, mode, rfl⟩ many
      | _ => exact item
    have small := Nat.le_trans bound proper.counted
    rw [searchRange_fixed _ (Pattern.isFixedWidth_of_isPlaced placed)] at expected ⊢
    rcases Nat.lt_or_eq_of_le within with below | rfl
    · have inside : head < terms.length := by omega
      have there : terms[head]? = some terms[head] := List.getElem?_eq_getElem inside
      rw [if_pos below, there] at expected ⊢
      exact meets placed plain _ (List.getElem_mem inside) name reserved terms head tail place
        bindings store small below there held expected.of_map
    · rw [if_neg (Nat.lt_irrefl head)]
      exact matcherStops compiled.carries placed (compiled.matchers pattern) name reserved terms
        head place store small

/-- Compiling a pattern reserves its matcher and leaves nothing unfinished. -/
theorem Draft.Sound.compile {languages : Language → Prop} {language : Language}
    {before draft : Draft} (sound : before.Sound languages []) (apart : Apart languages)
    (listed : languages language) (closed : language.Closed) {pattern : Pattern}
    (item : pattern.isItem = true) (ruled : ∀ stem ∈ pattern.stems, language.HasRule stem)
    {name : Symbol} (compiles : Yields (Matcher.compile language pattern) before name draft) :
    draft.Sound languages [] ∧
      lookupIn (language.name, pattern) draft.matchers = some name := by
  obtain ⟨other, after, yields, still⟩ :=
    (steady_compile apart listed closed item ruled []).succeeds before sound
  have same := yields.symm.trans compiles
  cases same
  exact ⟨still, (yields_compileWith closed item compiles).2⟩

/-- A call of the matcher of a pattern gives a value: the matcher is compiled in a draft for
languages of different names in which nothing is left unfinished, the machine carries the finished
draft and has no limit of calls, and the bindings are in its store before the call. -/
inductive MatcherGives (language : Language) (pattern : Pattern) (terms : List Term)
    (head tail : Nat) (bindings : Bindings) : Store → Value → Store → Prop
  | call {languages : Language → Prop} {before draft : Draft} {name : Symbol}
      {machine after : Machine} {place fuel : Nat} {value : Value} (apart : Apart languages)
      (listed : languages language) (sound : before.Sound languages [])
      (compiles : Yields (Matcher.compile language pattern) before name draft)
      (carries : machine.Carries draft) (unlimited : machine.calls.limit = none)
      (held : machine.store.cell? place = some (.bindings bindings))
      (returned : machine.call fuel name (callArguments terms head tail place) =
        (.ok value, after)) :
      MatcherGives language pattern terms head tail bindings machine.store value after.store

/-- A matcher gives what the search finds in which non-terminals accept a solution of the rules. -/
theorem MatcherGives.searchRange {language : Language} {pattern : Pattern} {terms : List Term}
    {head tail : Nat} {bindings : Bindings} {store changed : Store} {value : Value}
    (gives : MatcherGives language pattern terms head tail bindings store value changed)
    (closed : language.Closed)
    (plainly : ∀ rule ∈ language.rules, ∀ alternative ∈ rule.alternatives,
      alternative.pattern.spellsHole = false)
    {ground : Ground} (solves : ground.Solves language) (item : pattern.isItem = true)
    (plain : pattern.spellsHole = false) (ruled : ∀ stem ∈ pattern.stems, language.HasRule stem)
    (proper : (Term.sequence terms).Proper) (within : head ≤ tail) (bound : tail ≤ terms.length) :
    ∃ list found, value = .list list ∧
      searchRange ground pattern terms head tail bindings = some found ∧
      Display.entry.Lists changed list found ∧ store.Keeps changed := by
  obtain ⟨apart, listed, sound, compiles, carries, _, held, returned⟩ := gives
  obtain ⟨finished, reserved⟩ := sound.compile apart listed closed item ruled compiles
  have compiled := finished.compiled listed closed plainly carries
  have performs := fun count =>
    compiled.performs solves.mentioned item plain (compiled.predicateMeets_upTo solves count)
      reserved proper within bound held (.inl trivial)
  obtain ⟨list, found, same, _, searched, keeps, lists⟩ :=
    Machine.call_of_partial performs returned
  exact ⟨list, found, same, searched, lists, keeps⟩

/-- The matcher that is compiled for a pattern of an accepted language gives, whenever it gives a
value, a list of what the search by frontiers finds, in the same order. All lists and bindings that
were there before, those of the caller among them, are as they were. -/
theorem matcher_gives_searchRange {definition : LanguageDefinition} {span : Span}
    {language : Language} (written : definition.isWritten = true)
    (unspelled : definition.spellsHole = false) (stage : Language.Stage definition span language)
    {pattern : Pattern} (item : pattern.isItem = true) (plain : pattern.spellsHole = false)
    (ruled : ∀ stem ∈ pattern.stems, language.HasRule stem) {terms : List Term}
    (proper : (Term.sequence terms).Proper) {head tail : Nat} (within : head ≤ tail)
    (bound : tail ≤ terms.length) {bindings : Bindings} {store changed : Store} {value : Value}
    (gives : MatcherGives language pattern terms head tail bindings store value changed) :
    ∃ list found, value = .list list ∧
      searchRange language.ground pattern terms head tail bindings = some found ∧
      Display.entry.Lists changed list found ∧ store.Keeps changed := by
  obtain ⟨grammar, defined⟩ := stage.defined written
  exact gives.searchRange defined.closed (stage.plain unspelled) defined.solves item plain ruled
    proper within bound

/-- Numbers, and sequences of such terms. -/
def numberTrees : LanguageDefinition where
  name := "trees"
  rules :=
    [⟨"e", [.unresolved "number", .sequence [.repeated (.unresolved "e") .exhaustive]], default⟩]

theorem hasRule_numberTrees {language : Language}
    (accepted : Language.define numberTrees default = .ok language) : language.HasRule "e" := by
  have checked : ((Language.define numberTrees default).toOption.bind
      (·.rule? "e")).isSome = true := by decide +kernel
  rw [accepted] at checked
  exact Option.isSome_iff_exists.mp checked

/-- A whole run in a new draft, with the bindings in the first cell of the store. -/
theorem exists_matcherGives {definition : LanguageDefinition} {pattern : Language → Pattern}
    {terms : List Term} {head tail : Nat} {bindings : Bindings} {fuel : Nat}
    (ran : (wholeRun? definition (fun language => Matcher.compile language (pattern language))
      (callArguments terms head tail 0) bindings fuel).isSome = true) :
    ∃ language value store changed, Language.define definition default = .ok language ∧
      MatcherGives language (pattern language) terms head tail bindings store value changed := by
  obtain ⟨language, name, draft, machine, value, after, accepted, compiles, carries, unlimited,
    store, returned⟩ := exists_of_wholeRun? ran
  exact ⟨language, value, machine.store, after.store, accepted,
    .call (apart_self language) rfl (sound_empty _) compiles carries unlimited (by rw [store]; rfl) returned⟩

/-- A sequence of trees, cut in two parts. -/
def twoParts : Pattern :=
  .sequence [.repeated (.nonTerminal "e" "e_1") .exhaustive,
    .repeated (.nonTerminal "e" "e_2") .exhaustive]

/-- A number, and a sequence of two trees. -/
def twoTerms : List Term := [.integer 1, .sequence [.integer 2, .sequence []]]

theorem matcher_gives_searchRange_twoParts :
    ∃ language value store changed, Language.define numberTrees default = .ok language ∧
      MatcherGives language twoParts twoTerms 1 2 .empty store value changed ∧
      ∃ list found, value = .list list ∧
        searchRange language.ground twoParts twoTerms 1 2 .empty = some found ∧
        Display.entry.Lists changed list found ∧ store.Keeps changed := by
  obtain ⟨language, value, store, changed, accepted, gives⟩ :=
    exists_matcherGives (by decide +kernel : (wholeRun? numberTrees
      (fun language => Matcher.compile language twoParts) (callArguments twoTerms 1 2 0) .empty
      1000).isSome = true)
  refine ⟨language, value, store, changed, accepted, gives, ?_⟩
  have ruled : ∀ stem ∈ twoParts.stems, language.HasRule stem := by
    intro stem listed
    rw [show stem = "e" by simpa [twoParts, Pattern.stems, Pattern.stemsAll] using listed]
    exact hasRule_numberTrees accepted
  exact matcher_gives_searchRange (by decide) (by decide) (.define accepted) (by decide)
    (by decide) ruled (by decide) (by decide) (by decide) gives

end Reduct
