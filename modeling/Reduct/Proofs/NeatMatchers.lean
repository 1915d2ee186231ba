import Reduct.Proofs.ConstructionDrafts
import Reduct.Proofs.NeatDrafts

/-!
# Neat matchers and constructions

The argument that drafts stay neat goes along the generator. Every piece of code sets names that
were drawn for it, each once, and a matcher or a predicate asks for what its pattern or its rule
needs. Constructions share nothing.
-/

namespace Reduct

namespace Matcher

open Draft Statement

variable {demand : Demand} {language : Language} {predicate : Symbol → Drafting Symbol}

theorem codes_variableTest (term excluded : Symbol) (success : List Statement) :
    Codes demand [] (introductions success)
      (variableTest term excluded success) := by
  iterate 3 refine .withLocal rfl fun _ => ?_
  refine works_pure fun name => ?_
  simp only [introductions, placesAll_cons, places_assignPrimitive, Bool.false_eq_true, ↓reduceIte,
    places_whenTrue, places_assignBinary, placesAll_nil]
  omega

theorem codes_leafTest {leaf : Pattern}
    (tests : ∀ stem ∈ leaf.tested, Serves demand [.predicate language.name stem] (predicate stem))
    (term : Symbol) (success : List Statement) :
    Codes demand (leaf.tested.map (.predicate language.name))
      (introductions success)
      (leafTest language predicate leaf term success) := by
  unfold leafTest
  refine .withLocal rfl fun ok => ?_
  split
  · refine (works_constant _).bind fun _ => works_pure fun name => ?_
    simp only [introductions, placesAll_cons, places_assignPrimitive, Bool.false_eq_true,
      ↓reduceIte, places_whenTrue, placesAll_nil]
    omega
  · refine (tests _ List.mem_cons_self).serve fun _ => works_pure fun name => ?_
    simp only [introductions, placesAll_cons, places_assignCall, Bool.false_eq_true, ↓reduceIte,
      places_whenTrue, placesAll_nil]
    omega
  · refine (works_mentionedConstant _ _).bind fun _ => ?_
    exact (codes_variableTest _ _ _).mono (List.Subset.refl _) fun _ => by omega
  · refine (works_constant _).bind fun _ => ?_
    exact (codes_variableTest _ _ _).mono (List.Subset.refl _) fun _ => by omega
  · refine works_pure fun name => ?_
    simp only [introductions, placesAll_cons, places_assignPrimitive, Bool.false_eq_true,
      ↓reduceIte, places_whenTrue, placesAll_nil]
    omega
  · exact works_throw _

theorem codes_leafBody {leaf : Pattern}
    (tests : ∀ stem ∈ leaf.tested, Serves demand [.predicate language.name stem] (predicate stem)) :
    Codes demand (leaf.tested.map (.predicate language.name)) (fun _ => 0)
      (leafBody language predicate leaf) := by
  refine .withLocal rfl fun results => .withLocal rfl fun inRange => .withLocal rfl fun term =>
    .withLocal rfl fun extended => .withLocal rfl fun next => .withLocal rfl fun pair => ?_
  refine .spend (fun name => tally name results + tally name inRange + tally name term)
    (codes_leafTest tests _ _) (fun name => ?_) fun test => works_pure fun name => ?_
  · simp only [introductions, List.cons_append, placesAll_cons, places_assignPrimitive,
      Bool.false_eq_true, ↓reduceIte, placesAll_append, placesAll_performs, places_assignBinary,
      places_perform, placesAll_nil]
    omega
  · simp only [introductions, placesAll_cons, places_assignPrimitive, Bool.false_eq_true,
      ↓reduceIte, places_assignBinary, places_whenTrue, places_returns, placesAll_nil]
    omega

theorem codes_checkStep (test : Check) (entry position next : Symbol) :
    Codes demand [] (fun _ => 0) (checkStep test entry position next) := by
  iterate 2 refine .withLocal rfl fun _ => ?_
  exact works_pure fun name => by
    simp only [introductions, placesAll_cons, places_assignPrimitive, Bool.false_eq_true,
      ↓reduceIte, places_whenTrue, places_perform, placesAll_nil]
    omega

theorem codes_itemStep (matcher : Symbol) (isFixed : Bool) (remaining : Nat)
    (term length entry position next : Symbol) :
    Codes demand [] (fun _ => 0)
      (itemStep matcher isFixed remaining term length entry position next) := by
  unfold itemStep
  refine .withLocal rfl fun _ => ?_
  split
  · iterate 2 refine .withLocal rfl fun _ => ?_
    refine works_pure fun name => ?_
    simp only [introductions, placesAll_cons, places_assignBinary, Bool.false_eq_true, ↓reduceIte,
      places_whenTrue, places_assignCall, places_perform, placesAll_nil]
    omega
  · exact works_pure fun name => by
      simp only [introductions, placesAll_cons, places_assignCall, Bool.false_eq_true, ↓reduceIte,
        places_perform, placesAll_nil]
      omega

theorem codes_sequenceBody {wanted : List Use} (items : List Pattern)
    {steps : SequenceLocals → Symbol → Drafting (List Statement × Symbol)}
    (each : ∀ locals first, CodesFirst demand wanted (steps locals first)) :
    Codes demand wanted (fun _ => 0) (sequenceBody items steps) := by
  unfold sequenceBody
  iterate 8 refine .withLocal rfl fun _ => ?_
  refine (each _ _).serve fun result => ?_
  iterate 5 refine .withLocal rfl fun _ => ?_
  refine works_pure fun name => ?_
  simp only [introductions, List.cons_append, List.nil_append, placesAll_cons,
    places_assignPrimitive, Bool.false_eq_true, ↓reduceIte, places_assignBinary, places_whenTrue,
    places_perform, placesAll_append, places_forEach, count_cons_tally, List.count_nil,
    placesAll_nil, places_returns]
  omega

/-- The loop of a search updates what was set before it. -/
theorem codes_explore (matcher start : Symbol) (mode : RepeatMode) :
    CodesFirst demand [] (explore matcher start mode) := by
  cases mode with
  | exhaustive =>
    iterate 10 refine .withLocal rfl fun _ => ?_
    refine works_pure fun name => ?_
    simp only [introductions, placesAll_cons, places_assignPrimitive, Bool.false_eq_true,
      ↓reduceIte, places_perform, places_assign, places_loop, placesAll_nil, places_assignBinary,
      places_branch, places_assignCall]
    omega
  | greedy =>
    iterate 9 refine .withLocal rfl fun _ => ?_
    refine works_pure fun name => ?_
    simp only [introductions, placesAll_cons, places_assignPrimitive, Bool.false_eq_true,
      ↓reduceIte, places_perform, places_assign, places_loop, placesAll_nil, places_forEach,
      count_cons_tally, List.count_nil, places_assignCall, places_assignBinary, places_branch]
    omega

theorem codes_repeatBody {wanted : List Use} (bound : List Symbol) (mode : RepeatMode)
    {inner : Drafting Symbol} (round : Serves demand wanted inner) :
    Codes demand wanted (fun _ => 0) (repeatBody bound mode inner) := by
  refine round.serve fun _ => .withLocal rfl fun _ => (codes_explore _ _ _).bind fun search => ?_
  iterate 5 refine .withLocal rfl fun _ => ?_
  refine works_pure fun name => ?_
  simp only [introductions, List.cons_append, List.append_assoc, placesAll_cons,
    places_assignPrimitive, Bool.false_eq_true, ↓reduceIte, placesAll_append, placesAll_performs,
    places_forEach, count_cons_tally, List.count_nil, places_perform, placesAll_nil, places_returns]
  omega

theorem codes_guardChecks (merged : Symbol) (accept : List Statement) : ∀ checks,
    Codes demand [] (introductions accept) (guardChecks merged accept checks)
  | [] => works_pure fun _ => Nat.le_refl _
  | test :: rest => by
    refine .spend (fun _ => 0) (codes_guardChecks merged accept rest)
      (fun _ => Nat.le_refl _) fun inner => .withLocal rfl fun _ => works_pure fun name => ?_
    simp only [introductions, placesAll_cons, places_assignPrimitive, Bool.false_eq_true,
      ↓reduceIte, places_whenTrue, placesAll_nil]
    omega

theorem codes_inHoleBody {around within : List Use} (checks : List Check)
    {context contents : Drafting Symbol} (outer : Serves demand around context)
    (inner : Serves demand within contents) :
    Codes demand (around ++ within) (fun _ => 0) (inHoleBody checks context contents) := by
  refine outer.ask fun _ => inner.serve fun _ => (works_constant _).bind fun _ => ?_
  refine .withLocal rfl fun results => .withLocal rfl fun inRange => .withLocal rfl fun term =>
    .withLocal rfl fun candidates => .withLocal rfl fun subterm => .withLocal rfl fun path =>
    .withLocal rfl fun wrappedSubterm => .withLocal rfl fun innerEnv => .withLocal rfl fun inner =>
    .withLocal rfl fun count => .withLocal rfl fun any => .withLocal rfl fun holed =>
    .withLocal rfl fun wrappedContext => .withLocal rfl fun outerEnv => .withLocal rfl fun outer =>
    .withLocal rfl fun contextEntry => .withLocal rfl fun contextPosition =>
    .withLocal rfl fun contentsEntry => .withLocal rfl fun contentsPosition =>
    .withLocal rfl fun merged => .withLocal rfl fun next => .withLocal rfl fun pair => ?_
  refine .spend (fun name => tally name results + tally name inRange + tally name term +
      tally name candidates + tally name subterm + tally name path + tally name wrappedSubterm +
      tally name innerEnv + tally name inner + tally name count + tally name any +
      tally name holed + tally name wrappedContext + tally name outerEnv + tally name outer +
      tally name contextEntry + tally name contextPosition + tally name contentsEntry +
      tally name contentsPosition + tally name merged + tally name next)
    (codes_guardChecks _ _ _) (fun name => ?_) fun accept => works_pure fun name => ?_
  · simp only [introductions, placesAll_cons, places_assignPrimitive, Bool.false_eq_true,
      ↓reduceIte, places_perform, placesAll_nil]
    omega
  · simp only [introductions, callOnWhole, List.cons_append, List.nil_append, placesAll_cons,
      places_assignPrimitive, Bool.false_eq_true, ↓reduceIte, places_assignBinary, places_whenTrue,
      places_forEach, count_cons_tally, List.count_nil, places_assignCall, places_perform,
      placesAll_nil, places_returns]
    omega

/-- The matchers of the items of a sequence. -/
def itemUses (language : Symbol) (items : List Pattern) : List Use :=
  (items.filter fun item => !item.isCheck).map (.matcher language)

theorem itemUses_cons (language : Symbol) (item : Pattern) (rest : List Pattern) :
    itemUses language (item :: rest) = itemUses language [item] ++ itemUses language rest := by
  rw [itemUses, itemUses, itemUses, ← List.map_append, ← List.filter_append]
  rfl

mutual

/-- Compiling the matcher of a pattern. -/
theorem serves_compileWith (tests : ∀ stem, demand.allowed (.predicate language.name stem) →
      Serves demand [.predicate language.name stem] (predicate stem)) :
    (pattern : Pattern) → demand.allowed (.matcher language.name pattern) →
      Serves demand [.matcher language.name pattern] (compileWith language predicate pattern)
  | .literal _, allowed | .builtIn _ _, allowed | .nonTerminal _ _, allowed => by
    rw [compileWith]
    refine works_sharedMatcher allowed (codes_leafBody fun stem tested => ?_)
    exact tests stem (demand.closed _ allowed _
      (List.mem_append_right _ (List.mem_map_of_mem tested)))
  | .sequence items, allowed => by
    rw [compileWith]
    refine works_sharedMatcher allowed ?_
    refine (codes_sequenceBody items fun locals frontier => codes_compileItems tests locals
      (fixedCount items) frontier items fun item listed kept => ?_).mono ?_ fun _ => Nat.le_refl _
    · refine demand.closed _ allowed _ (List.mem_append_left _ (List.mem_map_of_mem ?_))
      exact List.mem_filter.mpr ⟨listed, by rw [kept]; rfl⟩
    · exact fun use listed => (List.mem_append.mp listed).elim id nofun
  | .repeated inner mode, allowed => by
    rw [compileWith]
    exact works_sharedMatcher allowed (codes_repeatBody _ mode (serves_compileWith tests inner
      (demand.closed _ allowed _ List.mem_cons_self)))
  | .inHole context contents checks, allowed => by
    rw [compileWith]
    have around := serves_compileWith tests context (demand.closed _ allowed _ List.mem_cons_self)
    have within := serves_compileWith tests contents
      (demand.closed _ allowed _ (List.mem_cons_of_mem _ List.mem_cons_self))
    have body := codes_inHoleBody checks around within
    exact works_sharedMatcher allowed body
  | .check _, _ | .unresolved _, _ => by
    rw [compileWith]
    exact works_throw _

/-- Compiling the items of a sequence. -/
theorem codes_compileItems (tests : ∀ stem, demand.allowed (.predicate language.name stem) →
      Serves demand [.predicate language.name stem] (predicate stem)) (locals : SequenceLocals)
    (remaining : Nat) (frontier : Symbol) : (items : List Pattern) →
      (∀ item ∈ items, item.isCheck = false → demand.allowed (.matcher language.name item)) →
      CodesFirst demand (itemUses language.name items)
        (compileItems language predicate locals remaining frontier items)
  | [], _ => by
    rw [compileItems]
    exact works_pure fun _ => Nat.zero_le _
  | item :: rest, allowed => by
    obtain ⟨here, later⟩ := List.forall_mem_cons.mp allowed
    have one := fun kept => serves_compileWith tests item (here kept)
    rw [compileItems_cons, itemUses_cons]
    iterate 3 refine .withLocal rfl fun _ => ?_
    refine Works.ask (?_ : Codes demand (itemUses language.name [item]) _ _) fun step => ?_
    · cases item with
      | check test => exact codes_checkStep test _ _ _
      | _ => exact (one rfl).serve fun _ => codes_itemStep _ _ _ _ _ _ _ _
    · refine (codes_compileItems tests locals _ _ rest later).serve fun others => ?_
      refine works_pure fun name => ?_
      simp only [introductions, List.cons_append, List.nil_append, placesAll_cons,
        places_assignPrimitive, Bool.false_eq_true, ↓reduceIte, places_forEach, count_cons_tally,
        List.count_nil]
      omega

end

theorem codes_alternativeTests {compile : Pattern → Drafting Symbol} (bindings : Symbol) :
    ∀ {alternatives : List Prepared}, (∀ alternative ∈ alternatives,
      Serves demand [.matcher language.name alternative.pattern] (compile alternative.pattern)) →
      Codes demand (alternatives.map fun alternative => .matcher language.name alternative.pattern)
        (fun _ => 0) (alternativeTests compile bindings alternatives)
  | [], _ => works_pure fun _ => Nat.zero_le _
  | alternative :: rest, each => by
    obtain ⟨here, later⟩ := List.forall_mem_cons.mp each
    rw [alternativeTests, List.map_cons, ← List.singleton_append]
    refine here.ask fun _ => ?_
    iterate 3 refine .withLocal rfl fun _ => ?_
    refine (codes_alternativeTests bindings later).serve fun others => ?_
    refine works_pure fun name => ?_
    simp only [introductions, callOnWhole, List.cons_append, List.nil_append, placesAll_cons,
      places_assignCall, Bool.false_eq_true, ↓reduceIte, places_assignPrimitive,
      places_assignBinary, places_whenTrue, places_returns, placesAll_nil]
    omega

/-- A predicate that is new is compiled for its rule. -/
theorem serves_sharedPredicate {stem : Symbol} {enter : Rule → Drafting Symbol}
    (entered : ∀ rule, language.rule? stem = some rule → ∀ pending before name after,
      Yields (enter rule) before name after → Neat demand pending before →
      .predicate language.name stem ∉ before.uses →
      ∃ names, Course demand pending [.predicate language.name stem] (fun _ => 0) (fun _ _ => 0)
        (enter rule) before names name after) :
    Serves demand [.predicate language.name stem] (sharedPredicate language stem enter) := by
  intro _ pending before name after yields neat
  have taken := yields
  have asked : Yields (predicate? language.name stem) before
      (lookupIn (language.name, stem) before.predicates) before :=
    yields_bind.mpr ⟨before, before, yields_get.mpr ⟨rfl, rfl⟩, yields_pure.mpr ⟨rfl, rfl⟩⟩
  rcases yields_sharedPredicate yields with ⟨known, rfl⟩ | ⟨rule, found, free, yields⟩
  · have shared := mem_uses (mem_memo_predicate.mpr (mem_of_lookupIn_eq_some known))
    exact ⟨[], neat.course taken (List.forall_mem_singleton.mpr shared) fun _ => Nat.le_refl _⟩
  · have new : Use.predicate language.name stem ∉ before.uses := by
      intro listed
      obtain ⟨⟨_, name⟩, shared, rfl⟩ := List.mem_map.mp listed
      exact not_mem_of_lookupIn_eq_none free name (mem_memo_predicate.mp shared)
    obtain ⟨names, course⟩ := entered rule found _ _ _ _ yields neat new
    refine ⟨names, course.relog (.skip asked rfl ?_)⟩
    rw [free, found]
    exact course.logged

theorem spends_predicateBody (tests : List Statement) :
    Spends (introductions tests) [whole] [terms, env] (predicateBody tests) where
  enough name := by
    simp only [introductions, predicateBody, List.cons_append, List.nil_append, placesAll_cons,
      places_assignPrimitive, Bool.false_eq_true, ↓reduceIte, placesAll_append, places_returns,
      placesAll_nil, count_cons_tally, List.count_nil]
    omega
  plain := by decide
  once := by decide
  fixed := .refl _

/-- Compiling the predicate of a non-terminal. -/
theorem serves_predicate (known : demand.languages.find? language.name = some language) :
    ∀ fuel stem, demand.allowed (.predicate language.name stem) →
      Serves demand [.predicate language.name stem] (Matcher.predicate language fuel stem) := by
  intro fuel
  induction fuel with
  | zero =>
    intro stem _
    rw [Matcher.predicate]
    exact serves_sharedPredicate fun _ _ _ _ _ _ yields => by cases yields
  | succ fuel ih =>
    intro stem allowed
    rw [Matcher.predicate]
    refine serves_sharedPredicate fun rule found pending before name after yields neat new => ?_
    have needs : (Use.predicate language.name stem).needs demand.languages =
        rule.alternatives.map fun alternative => .matcher language.name alternative.pattern := by
      rw [Use.needs, known, Option.bind_some, found]
    have each : ∀ alternative ∈ rule.alternatives,
        Serves demand [.matcher language.name alternative.pattern]
          (compileWith language (Matcher.predicate language fuel) alternative.pattern) := by
      refine fun alternative listed => serves_compileWith ih _ ?_
      exact demand.closed _ allowed _ (by
        rw [needs]
        exact List.mem_map_of_mem listed)
    have tests := codes_alternativeTests env each
    rw [← needs] at tests
    have reserving : Reserving (.predicate language.name stem) fun name draft =>
        { draft with predicates := ((language.name, stem), name) :: draft.predicates } :=
      ⟨fun _ _ => List.perm_middle, fun _ _ => rfl, fun _ _ => rfl⟩
    exact course_shareNew yields neat new allowed reserving tests spends_predicateBody
      (fun same => absurd same (by decide)) fun _ => ⟨_, _, rfl⟩

/-- Compiling a matcher of whole terms. -/
theorem serves_compileTop (known : demand.languages.find? language.name = some language)
    {prepared : Prepared} (allowed : demand.allowed (.matcher language.name prepared.pattern)) :
    Serves demand [.matcher language.name prepared.pattern] (compileTop language prepared) := by
  have inner := serves_compileWith (serves_predicate known language.rules.length) _ allowed
  refine inner.serve fun matcher => (works_freshFunction _ _).bind fun name => ?_
  refine .withLocal rfl fun results => .withLocal rfl fun out => .withLocal rfl fun entry =>
    .withLocal rfl fun position => .withLocal rfl fun kept => ?_
  have spends : Spends (fun name => tally name results + tally name out + tally name entry +
      tally name position + tally name kept) [whole] [terms, env]
      (topBody prepared.synthetic matcher results out entry position kept) :=
    { enough := fun name => by
        simp only [introductions, topBody, callOnWhole, List.cons_append, placesAll_cons,
          places_assignPrimitive, Bool.false_eq_true, ↓reduceIte, places_assignCall, places_forEach,
          count_cons_tally, List.count_nil, placesAll_append, placesAll_performs, places_perform,
          placesAll_nil, places_returns]
        omega
      plain := by decide
      once := by decide
      fixed := .refl _ }
  refine .spend (fun _ => 0) (works_addFunction spends (by decide) fun _ last => ?_)
    (fun name => ?_) fun _ => works_pure fun _ => Nat.le_refl _
  · simp at last
  · omega

end Matcher

namespace Construction

open Draft Statement

variable {demand : Demand} {table : Table Symbol}

theorem codes_addPiece (list : Symbol) (piece : Piece) :
    Codes demand [] (fun _ => 0) (addPiece list piece) := by
  cases piece with
  | term result => exact works_pure fun _ => Nat.zero_le _
  | list result => exact works_pure fun _ => Nat.zero_le _
  | spliced result =>
    refine .withLocal rfl fun _ => works_pure fun name => ?_
    simp only [introductions, placesAll_cons, places_assignPrimitive, Bool.false_eq_true,
      ↓reduceIte, places_perform, placesAll_nil]
    omega

theorem codes_contribution {coded : Coded} (codes : CodesFirst demand [] coded) (list : Symbol) :
    Codes demand [] (fun _ => 0) (contribution coded list) := by
  refine codes.bind fun built => (codes_addPiece list _).bind fun added => ?_
  refine works_pure fun name => ?_
  have append := introductions_append_le name built.1 added
  omega

theorem codes_listOf {contribute : Symbol → Drafting (List Statement)}
    (each : ∀ list, Codes demand [] (fun _ => 0) (contribute list)) :
    CodesFirst demand [] (listOf contribute) := by
  refine .withLocal rfl fun list => (each list).bind fun code => works_pure fun name => ?_
  simp only [introductions, placesAll_cons, places_assignPrimitive, Bool.false_eq_true, ↓reduceIte]
  omega

theorem codes_sequenceOf {contribute : Symbol → Drafting (List Statement)}
    (each : ∀ list, Codes demand [] (fun _ => 0) (contribute list)) :
    CodesFirst demand [] (sequenceOf contribute) := by
  refine (codes_listOf each).bind fun listed => .withLocal rfl fun result => works_pure fun name => ?_
  simp only [introductions, placesAll_append, placesAll_cons, places_assignPrimitive,
    Bool.false_eq_true, ↓reduceIte, placesAll_nil]
  omega

theorem codes_asTerm {coded : Coded} (codes : CodesFirst demand [] coded) (template : Annotated) :
    CodesFirst demand [] (asTerm template coded) := by
  unfold asTerm
  split
  · exact codes_sequenceOf (codes_contribution codes)
  · refine codes.bind fun built => ?_
    obtain ⟨code, piece⟩ := built
    cases piece <;> exact works_pure fun _ => Nat.le_of_eq (Nat.zero_add _).symm

theorem serves_driverLocals (scope : Scope) (drivers : List Symbol) :
    Serves demand [] (driverLocals scope drivers) := by
  refine works_quiet fun before sources after yields => ?_
  obtain ⟨rfl, _⟩ := yields_driverLocals yields
  exact ⟨rfl, rfl, rfl⟩

/-- Every fetch sets the local that is drawn for it. -/
theorem codes_fetchEach {α : Type} {hint : String} (plain : EndsPlain hint.toList)
    (other : hint ≠ "lit") (key : α → Symbol) {fetch : Symbol → α → Statement}
    (sets : ∀ target item name, introductions [fetch target item] name ≤ tally name target) :
    ∀ items scope, CodesFirst demand [] (fetchEach hint key fetch items scope)
  | [], _ => works_pure fun _ => Nat.zero_le _
  | item :: rest, scope => by
    refine .withLocal (isPlainHint_iff.mpr ⟨plain, other⟩) fun target => ?_
    refine (codes_fetchEach plain other key sets rest _).bind fun fetched => ?_
    refine works_pure fun name => ?_
    have first := sets target item name
    have append := introductions_append_le name [fetch target item] fetched.1
    rw [List.singleton_append] at append
    dsimp only
    omega

theorem codes_repeatCode (scope : Scope) (drivers : List Symbol) {inner : Scope → Coded}
    (each : ∀ innerScope, CodesFirst demand [] (inner innerScope)) :
    CodesFirst demand [] (repeatCode scope drivers inner) := by
  refine (serves_driverLocals scope drivers).bind fun sources => ?_
  cases sources with
  | nil => exact works_throw _
  | cons first others =>
    refine .withLocal rfl fun results => .withLocal rfl fun count => .withLocal rfl fun index => ?_
    dsimp only
    rw [fetchElements_eq]
    refine (codes_fetchEach (by decide) (by decide) _ (fun target _ name => ?_) _ _).bind
      fun fetched => ?_
    · simp only [introductions, placesAll_cons, places_assignPrimitive, Bool.false_eq_true,
        ↓reduceIte, placesAll_nil]
      omega
    · refine (codes_listOf (codes_contribution (each _))).bind fun built => ?_
      refine works_pure fun name => ?_
      simp only [introductions, List.cons_append, List.nil_append, List.append_assoc,
        placesAll_cons, places_assignPrimitive, Bool.false_eq_true, ↓reduceIte, placesAll_append,
        placesAll_performs, places_forRange, places_perform, placesAll_nil]
      omega

mutual

/-- Generating the code of an annotated template. -/
theorem codes_build : (template : Annotated) → (scope : Scope) →
    CodesFirst demand [] (build table scope template)
  | .literal _, scope => by
    rw [build]
    exact (works_constant _).bind fun _ => works_pure fun _ => Nat.zero_le _
  | .bound _ _, scope => by
    rw [build]
    split
    · exact works_pure fun _ => Nat.zero_le _
    · exact works_throw _
  | .sequence items, scope => by
    rw [build]
    refine (codes_sequenceOf (codes_contributeAll items scope)).bind fun built => ?_
    exact works_pure fun _ => Nat.le_of_eq (Nat.zero_add _).symm
  | .repeated inner drivers, scope => by
    rw [build]
    exact codes_repeatCode scope drivers fun innerScope => codes_build inner innerScope
  | .inHole context contents, scope => by
    rw [build]
    refine (codes_asTerm (codes_build context scope) _).bind fun around => ?_
    refine (codes_asTerm (codes_build contents scope) _).bind fun within => ?_
    refine .withLocal rfl fun result => works_pure fun name => ?_
    simp only [introductions, List.append_assoc, placesAll_append, placesAll_cons,
      places_assignPrimitive, Bool.false_eq_true, ↓reduceIte, placesAll_nil]
    omega
  | .metafunction function arguments, scope => by
    rw [build]
    split
    · exact works_throw _
    · refine (codes_sequenceOf (codes_contributeAll arguments scope)).bind fun built => ?_
      refine .withLocal rfl fun result => works_pure fun name => ?_
      simp only [introductions, placesAll_append, placesAll_cons, places_assignCall,
        Bool.false_eq_true, ↓reduceIte, placesAll_nil]
      omega
  | .foreign function arguments mode, scope => by
    rw [build]
    refine (codes_buildArguments arguments scope).bind fun built => .withLocal rfl fun result => ?_
    have called : ∀ name, introductions
        (built.1 ++ [assignCall result function (built.2.map Operand.name)]) name ≤
          0 + introductions built.1 name + tally name result := by
      intro name
      simp only [introductions, placesAll_append, placesAll_cons, places_assignCall,
        Bool.false_eq_true, ↓reduceIte, placesAll_nil]
      omega
    cases mode <;> exact works_pure called

/-- Generating the code that adds what templates contribute to a list. -/
theorem codes_contributeAll : (items : List Annotated) → (scope : Scope) → (list : Symbol) →
    Codes demand [] (fun _ => 0) (contributeAll table scope items list)
  | [], _, _ => by
    rw [contributeAll]
    exact works_pure fun _ => Nat.zero_le _
  | item :: rest, scope, list => by
    rw [contributeAll]
    refine (codes_contribution (codes_build item scope) list).bind fun first => ?_
    refine (codes_contributeAll rest scope list).bind fun others => works_pure fun name => ?_
    have append := introductions_append_le name first others
    omega

/-- Generating the code of the arguments of a host function. -/
theorem codes_buildArguments : (items : List Annotated) → (scope : Scope) →
    CodesFirst demand [] (buildArguments table scope items)
  | [], _ => by
    rw [buildArguments]
    exact works_pure fun _ => Nat.zero_le _
  | item :: rest, scope => by
    rw [buildArguments]
    refine (codes_asTerm (codes_build item scope) item).bind fun first => ?_
    refine (codes_buildArguments rest scope).bind fun others => works_pure fun name => ?_
    have append := introductions_append_le name first.1 others.1
    dsimp only
    omega

end

/-- Compiling the construction of an annotated template. -/
theorem serves_compile (template : Annotated) : Serves demand [] (compile table template) := by
  refine (works_freshFunction _ _).bind fun name => ?_
  dsimp only
  rw [fetchVariables_eq]
  refine (codes_fetchEach (by decide) (by decide) _ (fun target _ name => ?_) _ _).bind
    fun fetched => ?_
  · simp only [introductions, placesAll_cons, places_assignPrimitive, Bool.false_eq_true,
      ↓reduceIte, placesAll_nil]
    omega
  · refine (codes_asTerm (codes_build template _) template).bind fun built => ?_
    have spends : Spends (fun name => introductions fetched.1 name + introductions built.1 name)
        ["m"] [] (fetched.1 ++ built.1 ++ [.returns (.name built.2)]) :=
      { enough := fun name => by
          simp only [introductions, List.append_assoc, placesAll_append, placesAll_cons,
            places_returns, placesAll_nil, List.count_nil]
          omega
        plain := by decide
        once := by decide
        fixed := List.nil_sublist _ }
    refine .spend (fun _ => 0) (works_addFunction spends (by decide) fun same => ?_)
      (fun name => ?_) fun _ => works_pure fun _ => Nat.le_refl _
    · exact absurd same (by decide)
    · omega

end Construction

end Reduct
