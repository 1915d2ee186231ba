import Reduct.Proofs.PredicateCode

/-!
# What compiled matchers compute

The matcher of a pattern is right at a term if the predicates are right that it consults there. A
predicate consults those of its alternatives, so all of them are right up to any number of steps,
and all come to an end where every predicate consults smaller terms or lower rules.
-/

namespace Reduct

namespace Pattern

mutual

/-- Whether some literal is the variable named `hole`, which is read as the hole. -/
def spellsHole : Pattern → Bool
  | .literal value => decide (value = .symbol "hole")
  | .sequence items => spellsHoleAny items
  | .repeated inner _ => inner.spellsHole
  | .inHole context contents _ => context.spellsHole || contents.spellsHole
  | _ => false

/-- Whether some literal of a list of patterns is the variable named `hole`. -/
def spellsHoleAny : List Pattern → Bool
  | [] => false
  | item :: rest => item.spellsHole || spellsHoleAny rest

end

theorem spellsHole_of_mem {items : List Pattern} (plain : spellsHoleAny items = false) :
    ∀ item ∈ items, item.spellsHole = false := by
  induction items with
  | nil => nofun
  | cons item rest ih =>
    rw [spellsHoleAny, Bool.or_eq_false_iff] at plain
    exact List.forall_mem_cons.mpr ⟨plain.1, ih plain.2⟩

/-- The non-terminals that a pattern tests at the term itself. -/
def heads : Pattern → List Symbol
  | .nonTerminal stem _ => [stem]
  | .repeated inner _ => inner.heads
  | .inHole context contents _ => context.heads ++ contents.heads
  | _ => []

end Pattern

/-- Which predicates the search with a pattern may ask about which terms. -/
inductive Consults : Pattern → Term → Symbol → Term → Prop
  | nonTerminal {stem symbol : Symbol} {term : Term} :
      Consults (.nonTerminal stem symbol) term stem term
  | item {items : List Pattern} {terms : List Term} {item : Pattern} {term part : Term}
      {stem : Symbol} (listed : item ∈ items) (among : term ∈ terms)
      (consults : Consults item term stem part) :
      Consults (.sequence items) (.sequence terms) stem part
  | round {inner : Pattern} {mode : RepeatMode} {term part : Term} {stem : Symbol}
      (consults : Consults inner term stem part) :
      Consults (.repeated inner mode) term stem part
  | context {context contents : Pattern} {checks : List Check} {term holed part : Term}
      {stem : Symbol} {steps : Path} (cut : term.replace? steps .hole = some holed)
      (consults : Consults context holed stem part) :
      Consults (.inHole context contents checks) term stem part
  | contents {context contents : Pattern} {checks : List Check} {term inner part : Term}
      {stem : Symbol} {steps : Path} (reached : term.subterm? steps = some inner)
      (consults : Consults contents inner stem part) :
      Consults (.inHole context contents checks) term stem part

theorem Term.Proper.counted {terms : List Term} (proper : (Term.sequence terms).Proper) :
    terms.length ≤ mostCount := by
  cases proper with
  | sequence counted _ => exact counted

theorem Term.Proper.of_mem {terms : List Term} (proper : (Term.sequence terms).Proper) {term : Term}
    (among : term ∈ terms) : term.Proper := by
  cases proper with
  | sequence _ each => exact each term among

theorem Consults.proper {pattern : Pattern} {term part : Term} {stem : Symbol}
    (consults : Consults pattern term stem part) (proper : term.Proper) : part.Proper := by
  induction consults with
  | nonTerminal => exact proper
  | item _ among _ ih => exact ih (proper.of_mem among)
  | round _ ih => exact ih proper
  | context cut _ ih => exact ih (proper.replace .hole cut)
  | contents reached _ ih => exact ih (proper.subterm reached)

namespace Term

mutual

/-- The number of nodes of a term that are no holes. -/
def weight : Term → Nat
  | .atom _ => 1
  | .hole => 0
  | .sequence items => weightAll items + 1

/-- The number of nodes of terms that are no holes. -/
def weightAll : List Term → Nat
  | [] => 0
  | item :: rest => item.weight + weightAll rest

end

theorem weight_le_weightAll {items : List Term} {item : Term} (listed : item ∈ items) :
    item.weight ≤ weightAll items := by
  induction items with
  | nil => cases listed
  | cons first rest ih =>
    rw [weightAll]
    rcases List.mem_cons.mp listed with rfl | later
    · omega
    · have bound := ih later
      omega

theorem weight_lt_of_mem {items : List Term} {item : Term} (listed : item ∈ items) :
    item.weight < (Term.sequence items).weight :=
  Nat.lt_succ_of_le (weight_le_weightAll listed)

/-- A subterm is the whole term, or weighs less. -/
theorem weight_subterm {term found : Term} {path : Path}
    (reached : term.subterm? path = some found) : found = term ∨ found.weight < term.weight := by
  induction path generalizing term with
  | nil =>
    cases reached
    exact .inl rfl
  | cons index rest ih =>
    obtain ⟨items, item, rfl, there, inside⟩ := subterm?_cons.mp reached
    have below := weight_lt_of_mem (List.mem_of_getElem? there)
    rcases ih inside with rfl | less
    · exact .inr below
    · exact .inr (Nat.lt_trans less below)

theorem weightAll_set {items : List Term} {index : Nat} {item : Term}
    (there : items[index]? = some item) (other : Term) :
    weightAll (items.set index other) + item.weight = weightAll items + other.weight := by
  induction items generalizing index with
  | nil => cases there
  | cons first rest ih =>
    cases index with
    | zero =>
      cases there
      simp only [List.set_cons_zero, weightAll]
      omega
    | succ index =>
      have same := ih there
      simp only [List.set_cons_succ, weightAll]
      omega

/-- A term with a hole cut into it is the term itself, or weighs less. -/
theorem weight_replace_hole {term holed : Term} {path : Path}
    (cut : term.replace? path .hole = some holed) :
    holed = term ∨ holed.weight < term.weight := by
  induction path generalizing term holed with
  | nil =>
    cases cut
    cases term with
    | hole => exact .inl rfl
    | atom value => exact .inr Nat.one_pos
    | sequence items => exact .inr (Nat.succ_pos _)
  | cons index rest ih =>
    obtain ⟨items, item, child, rfl, there, inside, rfl⟩ := replace?_cons.mp cut
    rcases ih inside with rfl | less
    · obtain ⟨within, rfl⟩ := List.getElem?_eq_some_iff.mp there
      exact .inl (by rw [List.set_getElem_self within])
    · right
      have sum := weightAll_set there child
      simp only [weight]
      omega

end Term

/-- A pattern consults predicates about smaller terms, or its heads about the term itself. -/
theorem Consults.weight_lt {pattern : Pattern} {term part : Term} {stem : Symbol}
    (consults : Consults pattern term stem part) :
    part.weight < term.weight ∨ part = term ∧ stem ∈ pattern.heads := by
  induction consults with
  | nonTerminal => exact .inr ⟨rfl, List.mem_singleton.mpr rfl⟩
  | item _ among _ ih =>
    have below := Term.weight_lt_of_mem among
    rcases ih with less | ⟨rfl, _⟩
    · exact .inl (Nat.lt_trans less below)
    · exact .inl below
  | round _ ih => exact ih
  | context cut _ ih =>
    rcases Term.weight_replace_hole cut, ih with ⟨rfl | below, less | ⟨rfl, listed⟩⟩
    · exact .inl less
    · exact .inr ⟨rfl, List.mem_append_left _ listed⟩
    · exact .inl (Nat.lt_trans less below)
    · exact .inl below
  | contents reached _ ih =>
    rcases Term.weight_subterm reached, ih with ⟨rfl | below, less | ⟨rfl, listed⟩⟩
    · exact .inl less
    · exact .inr ⟨rfl, List.mem_append_right _ listed⟩
    · exact .inl (Nat.lt_trans less below)
    · exact .inl below

open Draft Matcher

/-- A machine with the finished matchers and predicates of a language. -/
structure Compiled (machine : Machine) (language : Language) (draft : Draft) : Prop where
  closed : language.Closed
  plain : ∀ rule ∈ language.rules, ∀ alternative ∈ rule.alternatives,
    alternative.pattern.spellsHole = false
  carries : machine.Carries draft
  matchers : ∀ pattern name, lookupIn (language.name, pattern) draft.matchers = some name →
    HasMatcher language draft pattern name
  predicates : ∀ stem name, lookupIn (language.name, stem) draft.predicates = some name →
    HasPredicate language draft stem name
  mentioned : ∀ name, draft.mentioned.find? language.name = some name →
    draft.Names name (.sequence (language.mentioned.members.map Term.symbol))

/-- The non-terminals of a language accept the terms at which one of their alternatives finds
anything. -/
structure Ground.Solves (ground : Ground) (language : Language) : Prop where
  accepts : ∀ stem rule term, language.rule? stem = some rule →
    ground.accepts stem term = rule.alternatives.any fun alternative =>
      ground.finds alternative.pattern term
  mentioned : ground.mentioned = language.mentioned

namespace Compiled

variable {judgement : Judgement} {machine : Machine} {language : Language} {draft : Draft}
  {ground : Ground}

theorem repeatMeets (compiled : Compiled machine language draft) {inner : Pattern}
    (placed : inner.isPlaced = true) (mode : RepeatMode) {terms : List Term}
    (counted : terms.length ≤ mostCount)
    (each : ∀ term ∈ terms, MatcherMeets judgement machine language draft ground inner term) :
    RepeatMeets judgement machine language draft ground inner mode terms := by
  intro name reserved head tail place bindings store within bound held expected
  obtain ⟨_, _, _, _, yields, grows, defined⟩ := compiled.matchers _ _ reserved
  exact ⟨_, compiled.carries.functions _ _ _ defined, rfl,
    repeatBody_runs compiled.closed placed counted each
      (matcherStops compiled.carries placed (compiled.matchers inner)) yields grows within bound
      held expected⟩

/-- The matcher of a leaf is right if its predicate is. -/
theorem leafMeets (compiled : Compiled machine language draft)
    (same : ground.mentioned = language.mentioned) {leaf : Pattern} (leafy : leaf.isLeaf = true)
    (plain : leaf.spellsHole = false) {term : Term} (proper : term.Proper)
    (accepts : ∀ stem part, Consults leaf term stem part →
      PredicateMeets judgement machine language draft ground stem part) :
    MatcherMeets judgement machine language draft ground leaf term := by
  intro name reserved terms head tail place bindings store small below there held expected
  obtain ⟨_, _, _, _, yields, grows, defined⟩ := compiled.matchers _ _ reserved
  rw [bodyWith_leaf _ _ leafy] at yields
  have ready : LeafReady judgement machine language draft ground leaf term :=
    { closed := compiled.closed
      carries := compiled.carries
      mentioned := compiled.mentioned
      same := same
      literal := by
        rintro rfl
        cases plain
      accepts := by
        rintro stem symbol rfl
        exact accepts stem term .nonTerminal }
  exact ⟨_, compiled.carries.functions _ _ _ defined, rfl,
    leafBody_runs leafy ready yields grows proper small below there held expected⟩

/-- The matcher of a pattern is right at a term if the predicates are that it consults there. -/
theorem matcherMeets (compiled : Compiled machine language draft)
    (same : ground.mentioned = language.mentioned) {pattern : Pattern}
    (placed : pattern.isPlaced = true) :
    pattern.spellsHole = false → ∀ {term : Term}, term.Proper →
      (∀ stem part, Consults pattern term stem part →
        PredicateMeets judgement machine language draft ground stem part) →
      MatcherMeets judgement machine language draft ground pattern term := by
  revert placed
  induction pattern using Pattern.induction with
  | literal value => exact fun _ plain _ => compiled.leafMeets same rfl plain
  | nonTerminal stem symbol => exact fun _ plain _ => compiled.leafMeets same rfl plain
  | builtIn kind symbol => exact fun _ plain _ => compiled.leafMeets same rfl plain
  | sequence items each rounds =>
    intro placed plain term proper accepts
    have plain := Pattern.spellsHole_of_mem plain
    obtain ⟨fixed, repeating⟩ := Pattern.arePlaced_iff.mp placed
    intro name reserved terms head tail place bindings store small below there held expected
    obtain ⟨_, _, _, _, yields, grows, defined⟩ := compiled.matchers _ _ reserved
    refine ⟨_, compiled.carries.functions _ _ _ defined, rfl,
      sequenceBody_runs compiled.closed ?_ ?_ yields grows proper small below there held expected⟩
    · intro item listed
      cases item using Pattern.itemCases with
      | check test => exact .inl rfl
      | repeated inner mode => exact .inr (repeating inner mode listed)
      | fixed item one => exact .inr (Pattern.isItem_of_isPlaced (fixed item listed one))
    · rintro sequence rfl item listed
      cases item using Pattern.itemCases with
      | check test => trivial
      | repeated inner mode =>
        refine compiled.repeatMeets (repeating inner mode listed) mode proper.counted ?_
        intro term among
        exact rounds inner mode listed (repeating inner mode listed)
          (plain (.repeated inner mode) listed)
          (proper.of_mem among) fun stem part consults =>
            accepts stem part (.item listed among (.round consults))
      | fixed item one =>
        refine itemMeets_fixed one fun term among => ?_
        exact each item listed (fixed item listed one) (plain item listed) (proper.of_mem among)
          fun stem part consults => accepts stem part (.item listed among consults)
  | inHole context contents checks around within =>
    intro placed plain term proper accepts
    obtain ⟨left, right⟩ := Bool.and_eq_true_iff.mp placed
    obtain ⟨first, second⟩ := Bool.or_eq_false_iff.mp plain
    intro name reserved terms head tail place bindings store small below there held expected
    obtain ⟨_, _, _, _, yields, grows, defined⟩ := compiled.matchers _ _ reserved
    refine ⟨_, compiled.carries.functions _ _ _ defined, rfl,
      inHoleBody_runs compiled.closed compiled.carries left right ?_ ?_ yields grows proper small
        below there held expected⟩
    · intro steps holed cut
      exact around left first (proper.replace .hole cut) fun stem part consults =>
        accepts stem part (.context cut consults)
    · intro steps part reached
      exact within right second (proper.subterm reached) fun stem inner consults =>
        accepts stem inner (.contents reached consults)
  | repeated inner mode => nofun
  | check test => nofun
  | unresolved symbol => nofun

/-- The body of a predicate tells whether some alternative of its rule finds anything, if the
matchers of the alternatives are right. -/
theorem exists_predicate (compiled : Compiled machine language draft) {stem name : Symbol}
    (reserved : lookupIn (language.name, stem) draft.predicates = some name) :
    ∃ rule body, language.rule? stem = some rule ∧
      machine.functions.find? name = some ⟨[whole], body⟩ ∧
      ∀ judgement ground term, (∀ alternative ∈ rule.alternatives,
          MatcherMeets judgement machine language draft ground alternative.pattern term) →
        (∀ alternative ∈ rule.alternatives,
          judgement.Expects (visit ground alternative.pattern term .empty)) →
        ∀ store, Runs judgement machine body (.ofList ([whole].zip [.term term])) store
          (fun _ _ => False) fun value changed =>
            value = .bool (rule.alternatives.any fun alternative =>
              ground.finds alternative.pattern term) ∧ store.Keeps changed := by
  obtain ⟨rule, fuel, before, tests, after, found, yields, grows, defined⟩ :=
    compiled.predicates _ _ reserved
  refine ⟨rule, _, found, compiled.carries.functions _ _ _ defined, ?_⟩
  intro judgement ground term meets expected store
  have placed := fun alternative listed =>
    (compiled.closed rule (Language.mem_rules found).1 alternative listed).1
  exact predicateBody_runs compiled.closed placed meets expected yields grows store

/-- The matchers of the alternatives of a rule are right if the predicates are that they
consult. -/
theorem alternativesMeet (compiled : Compiled machine language draft)
    (same : ground.mentioned = language.mentioned) {stem : Symbol} {rule : Rule}
    (found : language.rule? stem = some rule) {term : Term} (proper : term.Proper)
    (accepts : ∀ alternative ∈ rule.alternatives, ∀ other part,
      Consults alternative.pattern term other part →
      PredicateMeets judgement machine language draft ground other part) :
    ∀ alternative ∈ rule.alternatives,
      MatcherMeets judgement machine language draft ground alternative.pattern term := by
  intro alternative listed
  obtain ⟨known, _⟩ := Language.mem_rules found
  exact compiled.matcherMeets same (compiled.closed rule known alternative listed).1
    (compiled.plain rule known alternative listed) proper (accepts alternative listed)

/-- Predicates tell what any solution of the rules accepts, as far as they are judged and the
searches with the alternatives have results. -/
theorem predicateMeets_of_descends (compiled : Compiled machine language draft)
    (solves : ground.Solves language) {family : Nat → Judgement} (descends : Descends family)
    (searched : ∀ number, ∀ rule ∈ language.rules, ∀ alternative ∈ rule.alternatives, ∀ term,
      (family number).Expects (visit ground alternative.pattern term .empty)) (number : Nat) :
    ∀ (stem : Symbol) (term : Term), term.Proper →
      PredicateMeets (family number) machine language draft ground stem term := by
  induction number using Nat.strongRecOn with
  | _ number ih =>
    intro stem term proper name reserved store
    obtain ⟨rule, body, found, defined, runs⟩ := compiled.exists_predicate reserved
    rw [solves.accepts stem rule term found]
    refine descends defined rfl fun lower less => ?_
    refine runs _ ground term ?_ (fun alternative listed =>
      searched lower rule (Language.mem_rules found).1 alternative listed term) store
    refine compiled.alternativesMeet solves.mentioned found proper ?_
    intro alternative _ other part consults
    exact ih lower less other part (consults.proper proper)

/-- Up to any number of steps, predicates tell what any solution of the rules accepts. -/
theorem predicateMeets_upTo (compiled : Compiled machine language draft)
    (solves : ground.Solves language) (count : Nat) :
    ∀ (stem : Symbol) (term : Term), term.Proper →
      PredicateMeets (.upTo .lax True count) machine language draft ground stem term :=
  compiled.predicateMeets_of_descends solves (descends_upTo .lax True)
    (fun _ _ _ _ _ _ => .inl trivial) count

/-- Predicates come to an end and tell what a solution of the rules accepts, if the searches with
the alternatives have results and the heads of an alternative rank below its rule. -/
theorem predicateMeets_total (policy : Policy) (compiled : Compiled machine language draft)
    (solves : ground.Solves language)
    (searched : ∀ rule ∈ language.rules, ∀ alternative ∈ rule.alternatives, ∀ term,
      (visit ground alternative.pattern term .empty).isSome = true)
    {rank : Symbol → Nat}
    (lower : ∀ rule ∈ language.rules, ∀ alternative ∈ rule.alternatives,
      ∀ stem ∈ alternative.pattern.heads, rank stem < rank rule.name) :
    ∀ (weight level : Nat) (stem : Symbol) (term : Term), term.weight = weight →
      rank stem = level → term.Proper →
      PredicateMeets (.total policy) machine language draft ground stem term := by
  intro weight
  induction weight using Nat.strongRecOn with
  | _ weight lighter =>
    intro level
    induction level using Nat.strongRecOn with
    | _ level below =>
      intro stem term weighs ranks proper name reserved store
      obtain ⟨rule, body, found, defined, runs⟩ := compiled.exists_predicate reserved
      obtain ⟨known, named⟩ := Language.mem_rules found
      rw [solves.accepts stem rule term found]
      refine Performs.calls ⟨_, defined, rfl, runs _ ground term ?_ ?_ store⟩
      · refine compiled.alternativesMeet solves.mentioned found proper ?_
        intro alternative listed other part consults
        rcases consults.weight_lt with less | ⟨rfl, head⟩
        · exact lighter part.weight (weighs ▸ less) _ other part rfl rfl (consults.proper proper)
        · have less := lower rule known alternative listed other head
          rw [named, ranks] at less
          exact below (rank other) less other part weighs rfl proper
      · exact fun alternative listed => .inr (searched rule known alternative listed term)

end Compiled

end Reduct
