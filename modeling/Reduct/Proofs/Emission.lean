import Reduct.Proofs.Drafts
import Reduct.Proofs.Frontier

/-!
# Every matcher is emitted

Compiling a placed pattern whose non-terminals have rules succeeds, and leaves a draft in which
every reserved name belongs to one finished function. The body of that function is what the
compiler gives for the pattern or the rule, in some earlier draft. A rule is reserved before its
alternatives are compiled, so the fuel for rules inside one another suffices.
-/

namespace Reduct

namespace Pattern

mutual

/-- The stems of the non-terminals of a pattern. -/
def stems : Pattern → List Symbol
  | .nonTerminal stem _ => [stem]
  | .sequence items => stemsAll items
  | .repeated inner _ => inner.stems
  | .inHole context contents _ => context.stems ++ contents.stems
  | _ => []

/-- The stems of the non-terminals of a list of patterns. -/
def stemsAll : List Pattern → List Symbol
  | [] => []
  | item :: rest => item.stems ++ stemsAll rest

end

theorem mem_stemsAll {items : List Pattern} {stem : Symbol} :
    stem ∈ stemsAll items ↔ ∃ item ∈ items, stem ∈ item.stems := by
  induction items with
  | nil => simp [stemsAll]
  | cons first rest ih => simp [stemsAll, ih]

/-- Whether a pattern is placed, or repeats what is placed. -/
def isItem : Pattern → Bool
  | .repeated inner _ => inner.isPlaced
  | pattern => pattern.isPlaced

theorem isItem_of_isPlaced {pattern : Pattern} (placed : pattern.isPlaced = true) :
    pattern.isItem = true := by
  cases pattern with
  | repeated inner mode => cases placed
  | _ => exact placed

end Pattern

namespace Matcher

open Draft Statement

section Bodies

variable {good : Draft → Prop} {language : Language} {predicate : Symbol → Drafting Symbol}

theorem steady_variableTest (stable : Stable good) (term excluded : Symbol)
    (success : List Statement) : Steady good (variableTest term excluded success) :=
  .bind (stable.freshLocal _) fun _ => .bind (stable.freshLocal _) fun _ =>
    .bind (stable.freshLocal _) fun _ => .pure _

theorem steady_leafTest (stable : Stable good)
    (mentioned : Steady good (mentionedConstant language.name language.mentioned))
    {leaf : Pattern} (leafy : leaf.isLeaf = true)
    (tests : ∀ stem ∈ leaf.stems, Steady good (predicate stem)) (term : Symbol)
    (success : List Statement) :
    Steady good (leafTest language predicate leaf term success) := by
  unfold leafTest
  refine .bind (stable.freshLocal _) fun ok => ?_
  split
  · exact .bind (stable.constant _) fun _ => .pure _
  · exact .bind (tests _ (List.mem_singleton.mpr rfl)) fun _ => .pure _
  · exact .bind mentioned fun _ => steady_variableTest stable _ _ _
  · exact .bind (stable.constant _) fun _ => steady_variableTest stable _ _ _
  · exact .pure _
  · rename_i literal nonTerminal _ _ builtIn
    cases leaf with
    | literal value => exact absurd rfl (literal value)
    | nonTerminal stem symbol => exact absurd rfl (nonTerminal stem symbol)
    | builtIn kind symbol => exact absurd rfl (builtIn kind symbol)
    | _ => cases leafy

theorem steady_leafBody (stable : Stable good)
    (mentioned : Steady good (mentionedConstant language.name language.mentioned))
    {leaf : Pattern} (leafy : leaf.isLeaf = true)
    (tests : ∀ stem ∈ leaf.stems, Steady good (predicate stem)) :
    Steady good (leafBody language predicate leaf) := by
  unfold leafBody
  refine .bind (stable.freshLocal _) fun _ => .bind (stable.freshLocal _) fun _ =>
    .bind (stable.freshLocal _) fun _ => .bind (stable.freshLocal _) fun _ =>
    .bind (stable.freshLocal _) fun _ => .bind (stable.freshLocal _) fun _ => ?_
  exact .bind (steady_leafTest stable mentioned leafy tests _ _) fun _ => .pure _

theorem steady_checkStep (stable : Stable good) (test : Check) (entry position next : Symbol) :
    Steady good (checkStep test entry position next) :=
  .bind (stable.freshLocal _) fun _ => .bind (stable.freshLocal _) fun _ => .pure _

theorem steady_itemStep (stable : Stable good) (matcher : Symbol) (isFixed : Bool)
    (remaining : Nat) (term length entry position next : Symbol) :
    Steady good (itemStep matcher isFixed remaining term length entry position next) := by
  unfold itemStep
  refine .bind (stable.freshLocal _) fun _ => ?_
  split
  · exact .bind (stable.freshLocal _) fun _ => .bind (stable.freshLocal _) fun _ => .pure _
  · exact .pure _

theorem steady_sequenceBody (stable : Stable good) (items : List Pattern)
    {steps : SequenceLocals → Symbol → Drafting (List Statement × Symbol)}
    (each : ∀ locals first, Steady good (steps locals first)) :
    Steady good (sequenceBody items steps) := by
  unfold sequenceBody
  refine .bind (stable.freshLocal _) fun _ => .bind (stable.freshLocal _) fun _ =>
    .bind (stable.freshLocal _) fun _ => .bind (stable.freshLocal _) fun _ =>
    .bind (stable.freshLocal _) fun _ => .bind (stable.freshLocal _) fun _ =>
    .bind (stable.freshLocal _) fun _ => .bind (stable.freshLocal _) fun _ => ?_
  refine .bind (each _ _) fun _ => ?_
  exact .bind (stable.freshLocal _) fun _ => .bind (stable.freshLocal _) fun _ =>
    .bind (stable.freshLocal _) fun _ => .bind (stable.freshLocal _) fun _ =>
    .bind (stable.freshLocal _) fun _ => .pure _

theorem steady_explore (stable : Stable good) (matcher start : Symbol) (mode : RepeatMode) :
    Steady good (explore matcher start mode) := by
  cases mode with
  | exhaustive =>
    exact .bind (stable.freshLocal _) fun _ => .bind (stable.freshLocal _) fun _ =>
      .bind (stable.freshLocal _) fun _ => .bind (stable.freshLocal _) fun _ =>
      .bind (stable.freshLocal _) fun _ => .bind (stable.freshLocal _) fun _ =>
      .bind (stable.freshLocal _) fun _ => .bind (stable.freshLocal _) fun _ =>
      .bind (stable.freshLocal _) fun _ => .bind (stable.freshLocal _) fun _ => .pure _
  | greedy =>
    exact .bind (stable.freshLocal _) fun _ => .bind (stable.freshLocal _) fun _ =>
      .bind (stable.freshLocal _) fun _ => .bind (stable.freshLocal _) fun _ =>
      .bind (stable.freshLocal _) fun _ => .bind (stable.freshLocal _) fun _ =>
      .bind (stable.freshLocal _) fun _ => .bind (stable.freshLocal _) fun _ =>
      .bind (stable.freshLocal _) fun _ => .pure _

theorem steady_repeatBody (stable : Stable good) (bound : List Symbol) (mode : RepeatMode)
    {inner : Drafting Symbol} (round : Steady good inner) :
    Steady good (repeatBody bound mode inner) := by
  unfold repeatBody
  refine .bind round fun _ => .bind (stable.freshLocal _) fun _ =>
    .bind (steady_explore stable _ _ _) fun _ => ?_
  exact .bind (stable.freshLocal _) fun _ => .bind (stable.freshLocal _) fun _ =>
    .bind (stable.freshLocal _) fun _ => .bind (stable.freshLocal _) fun _ =>
    .bind (stable.freshLocal _) fun _ => .pure _

theorem steady_guardChecks (stable : Stable good) (merged : Symbol) (accept : List Statement)
    (checks : List Check) : Steady good (guardChecks merged accept checks) := by
  induction checks with
  | nil => exact .pure _
  | cons test rest ih => exact .bind ih fun _ => .bind (stable.freshLocal _) fun _ => .pure _

theorem steady_inHoleBody (stable : Stable good) (checks : List Check)
    {context contents : Drafting Symbol} (around : Steady good context)
    (within : Steady good contents) : Steady good (inHoleBody checks context contents) := by
  unfold inHoleBody
  refine .bind around fun _ => .bind within fun _ => .bind (stable.constant _) fun _ => ?_
  refine .bind (stable.freshLocal _) fun _ => .bind (stable.freshLocal _) fun _ =>
    .bind (stable.freshLocal _) fun _ => .bind (stable.freshLocal _) fun _ =>
    .bind (stable.freshLocal _) fun _ => .bind (stable.freshLocal _) fun _ =>
    .bind (stable.freshLocal _) fun _ => .bind (stable.freshLocal _) fun _ =>
    .bind (stable.freshLocal _) fun _ => .bind (stable.freshLocal _) fun _ => ?_
  refine .bind (stable.freshLocal _) fun _ => .bind (stable.freshLocal _) fun _ =>
    .bind (stable.freshLocal _) fun _ => .bind (stable.freshLocal _) fun _ =>
    .bind (stable.freshLocal _) fun _ => .bind (stable.freshLocal _) fun _ =>
    .bind (stable.freshLocal _) fun _ => .bind (stable.freshLocal _) fun _ =>
    .bind (stable.freshLocal _) fun _ => .bind (stable.freshLocal _) fun _ => ?_
  refine .bind (stable.freshLocal _) fun _ => .bind (stable.freshLocal _) fun _ => ?_
  exact .bind (steady_guardChecks stable _ _ _) fun _ => .pure _

end Bodies

/-- The body of the matcher of a pattern. -/
def bodyWith (language : Language) (predicate : Symbol → Drafting Symbol) :
    Pattern → Drafting (List Statement)
  | .sequence items =>
    sequenceBody items fun locals frontier =>
      compileItems language predicate locals (fixedCount items) frontier items
  | .repeated inner mode =>
    repeatBody inner.boundSymbols mode (compileWith language predicate inner)
  | .inHole context contents checks =>
    inHoleBody checks (compileWith language predicate context)
      (compileWith language predicate contents)
  | leaf => leafBody language predicate leaf

theorem bodyWith_leaf (language : Language) (predicate : Symbol → Drafting Symbol) {leaf : Pattern}
    (leafy : leaf.isLeaf = true) :
    bodyWith language predicate leaf = leafBody language predicate leaf := by
  cases leaf with
  | literal _ | nonTerminal _ _ | builtIn _ _ => rw [bodyWith] <;> simp
  | _ => cases leafy

/-- The matcher of an item is shared, and has the body of the item. -/
theorem compileWith_eq (language : Language) (predicate : Symbol → Drafting Symbol)
    {pattern : Pattern} (item : pattern.isItem = true) :
    ∃ kind hint, compileWith language predicate pattern =
      sharedMatcher language.name pattern kind hint parameters
        (bodyWith language predicate pattern) := by
  cases pattern with
  | check test => cases item
  | unresolved symbol => cases item
  | _ => exact ⟨_, _, by rw [compileWith, bodyWith] <;> simp⟩

/-- The code that takes an item of a sequence from an entry of the frontier. -/
def stepWith (language : Language) (predicate : Symbol → Drafting Symbol)
    (locals : SequenceLocals) (remaining : Nat) (entry position next : Symbol) :
    Pattern → Drafting (List Statement)
  | .check test => checkStep test entry position next
  | item => do
    let matcher ← compileWith language predicate item
    itemStep matcher item.isFixedWidth remaining locals.term locals.length entry position next

/-- The items of a sequence are compiled one by one. -/
theorem compileItems_cons (language : Language) (predicate : Symbol → Drafting Symbol)
    (locals : SequenceLocals) (remaining : Nat) (frontier : Symbol) (item : Pattern)
    (rest : List Pattern) :
    compileItems language predicate locals remaining frontier (item :: rest) = (do
      let next ← freshLocal "frontier"
      let entry ← freshLocal "m"
      let position ← freshLocal "h"
      let step ← stepWith language predicate locals remaining entry position next item
      let (others, last) ← compileItems language predicate locals
        (if item.isFixedWidth then remaining - 1 else remaining) next rest
      pure
        ([assignPrimitive next .newList [], .forEach [entry, position] frontier step] ++ others,
          last)) := by
  rw [compileItems]
  refine bind_congr fun next => bind_congr fun entry => bind_congr fun position => ?_
  cases item with
  | check test => rfl
  | _ =>
    simp only [stepWith, bind_assoc]

/-- What keeps drafts good while matchers are reserved and finished. The list holds the names that
are reserved and not finished. -/
structure Admissible (language : Language) (predicate : Symbol → Drafting Symbol)
    (known : Symbol → Prop) (good : List Symbol → Draft → Prop) : Prop where
  stable : ∀ pending, Stable (good pending)
  mentioned : ∀ pending,
    Steady (good pending) (mentionedConstant language.name language.mentioned)
  tests : ∀ pending stem, known stem → Steady (good pending) (predicate stem)
  reserve : ∀ pending draft pattern name, good pending draft →
    lookupIn (language.name, pattern) draft.matchers = none → Numbered name draft.nameCount →
    good (name :: pending) { draft with
      nameCount := draft.nameCount + 1
      matchers := ((language.name, pattern), name) :: draft.matchers }
  finish : ∀ pending before pattern name body after,
    Yields (bodyWith language predicate pattern) before body after →
    lookupIn (language.name, pattern) after.matchers = some name → good (name :: pending) after →
    good pending
      { after with functions := after.functions ++ [.define name parameters body] }

section Sharing

variable {language : Language} {predicate : Symbol → Drafting Symbol} {known : Symbol → Prop}
  {good : List Symbol → Draft → Prop}

/-- A shared matcher is reserved for its pattern. -/
theorem yields_sharedMatcher {language name : Symbol} {pattern : Pattern} {kind hint : String}
    {parameters : List Symbol} {body : Drafting (List Statement)} {before after : Draft}
    {fine : Draft → Prop} (steady : Steady fine body)
    (yields : Yields (sharedMatcher language pattern kind hint parameters body) before name after) :
    before.Grows after ∧ lookupIn (language, pattern) after.matchers = some name := by
  unfold sharedMatcher at yields
  obtain ⟨_, _, got, yields⟩ := yields_bind.mp yields
  obtain ⟨rfl, rfl⟩ := yields_get.mp got
  split at yields
  · rename_i found
    obtain ⟨rfl, rfl⟩ := yields_pure.mp yields
    exact ⟨.refl before, found⟩
  · rename_i free
    obtain ⟨fresh, named, drawn, yields⟩ := yields_bind.mp yields
    obtain ⟨_, rfl⟩ := yields_freshFunction drawn
    obtain ⟨_, reserved, changed, yields⟩ := yields_bind.mp yields
    obtain rfl := yields_modify.mp changed
    obtain ⟨statements, written, filled, yields⟩ := yields_bind.mp yields
    obtain ⟨_, _, added, yields⟩ := yields_bind.mp yields
    obtain rfl := yields_modify.mp added
    obtain ⟨rfl, rfl⟩ := yields_pure.mp yields
    have grown := steady.grows _ _ _ filled
    have reserving : before.Grows { before with
        nameCount := before.nameCount + 1
        matchers := ((language, pattern), fresh) :: before.matchers } :=
      ⟨List.prefix_refl _, fun _ listed => listed,
        fun _ _ known => lookupIn_cons_of_none free known, fun _ _ found => found,
        fun _ _ found => found, Nat.le_refl _⟩
    refine ⟨(reserving.trans grown).trans (grows_addFunction _ _), ?_⟩
    exact grown.matchers _ _ (by rw [lookupIn_cons, if_pos rfl])

theorem Admissible.sharedMatcher (admissible : Admissible language predicate known good)
    {pattern : Pattern}
    (body : ∀ pending, Steady (good pending) (bodyWith language predicate pattern))
    (kind hint : String) (pending : List Symbol) :
    Steady (good pending) (sharedMatcher language.name pattern kind hint parameters
      (bodyWith language predicate pattern)) where
  grows _ _ _ yields := (yields_sharedMatcher (body pending) yields).1
  succeeds := by
    intro before fine
    unfold Draft.sharedMatcher
    cases found : lookupIn (language.name, pattern) before.matchers with
    | some name =>
      refine ⟨name, before, yields_bind.mpr ⟨before, before, yields_get.mpr ⟨rfl, rfl⟩, ?_⟩, fine⟩
      rw [found]
      exact yields_pure.mpr ⟨rfl, rfl⟩
    | none =>
      obtain ⟨name, named, drawn⟩ : ∃ name named, Yields (freshFunction kind hint) before name
          named := ⟨_, _, rfl⟩
      obtain ⟨numbered, same⟩ := yields_freshFunction drawn
      rw [same] at drawn
      have reserved := admissible.reserve pending before pattern name fine found numbered
      obtain ⟨statements, written, filled, still⟩ := (body (name :: pending)).succeeds _ reserved
      have kept := ((body (name :: pending)).grows _ _ _ filled).matchers (language.name, pattern)
        name (by rw [lookupIn_cons, if_pos rfl])
      refine ⟨name, _, yields_bind.mpr ⟨before, before, yields_get.mpr ⟨rfl, rfl⟩, ?_⟩,
        admissible.finish pending _ pattern name statements written filled kept still⟩
      rw [found]
      refine yields_bind.mpr ⟨name, _, drawn,
        yields_bind.mpr ⟨⟨⟩, _, yields_modify.mpr rfl, ?_⟩⟩
      exact yields_bind.mpr ⟨statements, written, filled,
        yields_bind.mpr ⟨⟨⟩, _, yields_modify.mpr rfl, yields_pure.mpr ⟨rfl, rfl⟩⟩⟩

/-- The code of a sequence is steady if the matchers of its items are. -/
theorem Admissible.compileItems (admissible : Admissible language predicate known good)
    {items : List Pattern} (pending : List Symbol)
    (each : ∀ item ∈ items, item.isCheck = false →
      Steady (good pending) (compileWith language predicate item))
    (locals : SequenceLocals) (remaining : Nat) (frontier : Symbol) :
    Steady (good pending) (compileItems language predicate locals remaining frontier items) := by
  have stable := admissible.stable pending
  induction items generalizing remaining frontier with
  | nil =>
    rw [Matcher.compileItems]
    exact .pure _
  | cons item rest ih =>
    rw [compileItems_cons]
    refine .bind (stable.freshLocal _) fun next => .bind (stable.freshLocal _) fun entry =>
      .bind (stable.freshLocal _) fun position => .bind ?_ fun step => .bind ?_ fun _ => .pure _
    · cases item with
      | check test => exact steady_checkStep stable test entry position next
      | _ =>
        exact .bind (each _ List.mem_cons_self rfl) fun _ =>
          steady_itemStep stable _ _ _ _ _ _ _ _
    · exact ih (fun other listed => each other (List.mem_cons_of_mem _ listed)) _ _

theorem Admissible.compileOf (admissible : Admissible language predicate known good)
    {pattern : Pattern} (item : pattern.isItem = true)
    (body : ∀ pending, Steady (good pending) (bodyWith language predicate pattern))
    (pending : List Symbol) : Steady (good pending) (compileWith language predicate pattern) := by
  obtain ⟨kind, hint, same⟩ := compileWith_eq language predicate item
  rw [same]
  exact admissible.sharedMatcher body kind hint pending

/-- Compiling the body of the matcher of an item is steady. -/
theorem Admissible.body (admissible : Admissible language predicate known good)
    {pattern : Pattern} (item : pattern.isItem = true)
    (ruled : ∀ stem ∈ pattern.stems, known stem) (pending : List Symbol) :
    Steady (good pending) (bodyWith language predicate pattern) := by
  induction pattern using Pattern.induction generalizing pending with
  | check test => cases item
  | unresolved symbol => cases item
  | literal value | nonTerminal stem symbol | builtIn kind symbol =>
    rw [bodyWith_leaf language predicate rfl]
    exact steady_leafBody (admissible.stable pending) (admissible.mentioned pending) rfl
      fun stem listed => admissible.tests pending stem (ruled stem listed)
  | sequence items each rounds =>
    obtain ⟨fixed, inner⟩ := Pattern.arePlaced_iff.mp
      (show Pattern.arePlaced items = true from item)
    rw [bodyWith]
    refine steady_sequenceBody (admissible.stable pending) items fun locals first => ?_
    refine admissible.compileItems pending (fun other listed kept => ?_) _ _ _
    have placed : other.isItem = true := by
      cases other using Pattern.itemCases with
      | check test => cases kept
      | repeated body mode => exact inner body mode listed
      | fixed other wide => exact Pattern.isItem_of_isPlaced (fixed other listed wide)
    exact admissible.compileOf placed (each other listed placed
      fun stem found => ruled stem (Pattern.mem_stemsAll.mpr ⟨other, listed, found⟩)) pending
  | repeated inner mode round =>
    have placed := Pattern.isItem_of_isPlaced item
    rw [bodyWith]
    exact steady_repeatBody (admissible.stable pending) _ _
      (admissible.compileOf placed (round placed ruled) pending)
  | inHole context contents checks around within =>
    have placed : (Pattern.inHole context contents checks).isPlaced = true := item
    simp only [Pattern.isPlaced, Bool.and_eq_true] at placed
    have outer := Pattern.isItem_of_isPlaced placed.1
    have inner := Pattern.isItem_of_isPlaced placed.2
    rw [bodyWith]
    refine steady_inHoleBody (admissible.stable pending) checks ?_ ?_
    · exact admissible.compileOf outer
        (around outer fun stem listed => ruled stem (List.mem_append_left _ listed)) pending
    · exact admissible.compileOf inner
        (within inner fun stem listed => ruled stem (List.mem_append_right _ listed)) pending

/-- Compiling the matcher of an item is steady. -/
theorem Admissible.compileWith (admissible : Admissible language predicate known good)
    {pattern : Pattern} (item : pattern.isItem = true)
    (ruled : ∀ stem ∈ pattern.stems, known stem) (pending : List Symbol) :
    Steady (good pending) (compileWith language predicate pattern) :=
  admissible.compileOf item (admissible.body item ruled) pending

end Sharing

theorem steady_alternativeTests {good : Draft → Prop} (stable : Stable good)
    {compile : Pattern → Drafting Symbol} {alternatives : List Prepared}
    (each : ∀ alternative ∈ alternatives, Steady good (compile alternative.pattern))
    (bindings : Symbol) : Steady good (alternativeTests compile bindings alternatives) := by
  induction alternatives with
  | nil => exact .pure _
  | cons first rest ih =>
    refine .bind (each first List.mem_cons_self) fun _ => .bind (stable.freshLocal _) fun _ =>
      .bind (stable.freshLocal _) fun _ => .bind (stable.freshLocal _) fun _ => ?_
    exact .bind (ih fun other listed => each other (List.mem_cons_of_mem _ listed)) fun _ =>
      .pure _

end Matcher

/-- Whether a non-terminal has a rule. -/
def Language.HasRule (language : Language) (stem : Symbol) : Prop :=
  ∃ rule, language.rule? stem = some rule

/-- The alternatives of the rules can be compiled. -/
def Language.Closed (language : Language) : Prop :=
  ∀ rule ∈ language.rules, ∀ alternative ∈ rule.alternatives,
    alternative.pattern.isPlaced = true ∧ ∀ stem ∈ alternative.pattern.stems, language.HasRule stem

theorem Language.mem_rules {language : Language} {stem : Symbol} {rule : Rule}
    (found : language.rule? stem = some rule) : rule ∈ language.rules ∧ rule.name = stem := by
  refine ⟨List.mem_of_find?_eq_some found, ?_⟩
  have passed := List.find?_some found
  exact of_decide_eq_true passed

namespace Matcher

open Draft Statement

variable {language : Language}

/-- The body of the predicate of a rule, given the tests of its alternatives. -/
def predicateBody (tests : List Statement) : List Statement :=
  [assignPrimitive terms .wrapTerm [.name whole], assignPrimitive env .newMatch []] ++ tests ++
    [.returns (.bool false)]

/-- A predicate that is reserved is not compiled again. -/
theorem sharedPredicate_reserved {stem name : Symbol} (enter : Rule → Drafting Symbol)
    {draft : Draft} (known : lookupIn (language.name, stem) draft.predicates = some name) :
    Yields (sharedPredicate language stem enter) draft name draft := by
  unfold sharedPredicate
  refine yields_bind.mpr ⟨some name, draft, ?_, yields_pure.mpr ⟨rfl, rfl⟩⟩
  refine yields_bind.mpr ⟨draft, draft, yields_get.mpr ⟨rfl, rfl⟩, ?_⟩
  exact yields_pure.mpr ⟨known, rfl⟩

/-- The rule of a predicate that is not reserved is entered. -/
theorem sharedPredicate_new {stem : Symbol} {enter : Rule → Drafting Symbol} {rule : Rule}
    (found : language.rule? stem = some rule) {draft : Draft}
    (free : lookupIn (language.name, stem) draft.predicates = none) {name : Symbol}
    {after : Draft} :
    Yields (sharedPredicate language stem enter) draft name after ↔
      Yields (enter rule) draft name after := by
  have reserved : Yields (predicate? language.name stem) draft none draft :=
    yields_bind.mpr ⟨draft, draft, yields_get.mpr ⟨rfl, rfl⟩, yields_pure.mpr ⟨free, rfl⟩⟩
  unfold sharedPredicate
  rw [yields_bind]
  constructor
  · rintro ⟨other, middle, got, yields⟩
    have same := reserved.symm.trans got
    cases same
    rw [found] at yields
    exact yields
  · intro yields
    refine ⟨none, draft, reserved, ?_⟩
    rw [found]
    exact yields

/-- A predicate that is compiled is reserved, or its rule is entered. -/
theorem yields_sharedPredicate {stem name : Symbol} {enter : Rule → Drafting Symbol}
    {draft after : Draft} (yields : Yields (sharedPredicate language stem enter) draft name after) :
    (lookupIn (language.name, stem) draft.predicates = some name ∧ after = draft) ∨
      ∃ rule, language.rule? stem = some rule ∧
        lookupIn (language.name, stem) draft.predicates = none ∧
        Yields (enter rule) draft name after := by
  cases known : lookupIn (language.name, stem) draft.predicates with
  | some other =>
    have same := (sharedPredicate_reserved enter known).symm.trans yields
    cases same
    exact .inl ⟨rfl, rfl⟩
  | none =>
    cases found : language.rule? stem with
    | some rule => exact .inr ⟨rule, rfl, rfl, (sharedPredicate_new found known).mp yields⟩
    | none =>
      unfold sharedPredicate at yields
      obtain ⟨other, middle, got, yields⟩ := yields_bind.mp yields
      obtain ⟨_, _, here, got⟩ := yields_bind.mp got
      obtain ⟨rfl, rfl⟩ := yields_get.mp here
      obtain ⟨rfl, rfl⟩ := yields_pure.mp got
      rw [known, found] at yields
      cases yields

theorem stable_never : Stable fun _ => False := ⟨fun _ never => never, fun _ _ never => never⟩

/-- What the compiler does in any draft, good or not. -/
theorem admissible_never (predicate : Symbol → Drafting Symbol) (known : Symbol → Prop)
    (grows : ∀ stem before name after, known stem → Yields (predicate stem) before name after →
      before.Grows after) :
    Admissible language predicate known fun _ _ => False where
  stable _ := stable_never
  mentioned _ := ⟨fun _ _ _ yields => (yields_mentionedConstant yields).1, nofun⟩
  tests _ stem ruled := ⟨fun before name after => grows stem before name after ruled, nofun⟩
  reserve _ _ _ _ never := never.elim
  finish _ _ _ _ _ _ _ _ never := never.elim

/-- A predicate that is compiled is reserved for its rule. -/
theorem yields_predicate (closed : language.Closed) {fuel : Nat} :
    ∀ {stem name : Symbol} {before after : Draft},
      Yields (predicate language fuel stem) before name after →
      before.Grows after ∧ lookupIn (language.name, stem) after.predicates = some name := by
  induction fuel with
  | zero =>
    intro stem name before after yields
    rw [predicate] at yields
    obtain ⟨known, rfl⟩ | ⟨rule, _, _, entered⟩ := yields_sharedPredicate yields
    · exact ⟨.refl _, known⟩
    · cases entered
  | succ fuel ih =>
    intro stem name before after yields
    rw [predicate] at yields
    obtain ⟨known, rfl⟩ | ⟨rule, found, free, entered⟩ := yields_sharedPredicate yields
    · exact ⟨.refl _, known⟩
    · obtain ⟨fresh, named, drawn, entered⟩ := yields_bind.mp entered
      obtain ⟨_, rfl⟩ := yields_freshFunction drawn
      obtain ⟨_, _, changed, entered⟩ := yields_bind.mp entered
      obtain rfl := yields_modify.mp changed
      obtain ⟨tests, written, compiled, entered⟩ := yields_bind.mp entered
      obtain ⟨_, _, added, entered⟩ := yields_bind.mp entered
      obtain rfl := yields_modify.mp added
      obtain ⟨rfl, rfl⟩ := yields_pure.mp entered
      have admissible : Admissible language (predicate language fuel) (fun _ => True)
          fun _ _ => False :=
        admissible_never _ _ fun _ _ _ _ _ yields => (ih yields).1
      have tested := steady_alternativeTests stable_never
        (fun alternative listed => admissible.compileWith
          (Pattern.isItem_of_isPlaced
            (closed rule (Language.mem_rules found).1 alternative listed).1)
          (fun _ _ => trivial) []) env
      have grown := tested.grows _ _ _ compiled
      have reserving : before.Grows { before with
          nameCount := before.nameCount + 1
          predicates := ((language.name, stem), fresh) :: before.predicates } :=
        ⟨List.prefix_refl _, fun _ listed => listed, fun _ _ found => found,
          fun _ _ known => lookupIn_cons_of_none free known, fun _ _ found => found,
          Nat.le_refl _⟩
      refine ⟨(reserving.trans grown).trans (grows_addFunction _ _), ?_⟩
      exact grown.predicates _ _ (by rw [lookupIn_cons, if_pos rfl])

theorem admissible_predicate (closed : language.Closed) (fuel : Nat) :
    Admissible language (predicate language fuel) (fun _ => True) fun _ _ => False :=
  admissible_never _ _ fun _ _ _ _ _ yields => (yields_predicate closed yields).1

/-- A matcher that is compiled is reserved for its pattern. -/
theorem yields_compileWith (closed : language.Closed) {fuel : Nat} {pattern : Pattern}
    (item : pattern.isItem = true) {name : Symbol} {before after : Draft}
    (yields : Yields (compileWith language (predicate language fuel) pattern) before name after) :
    before.Grows after ∧ lookupIn (language.name, pattern) after.matchers = some name := by
  obtain ⟨kind, hint, same⟩ := compileWith_eq language (predicate language fuel) item
  rw [same] at yields
  have admissible := admissible_predicate closed fuel
  exact yields_sharedMatcher (admissible.body item (fun _ _ => trivial) []) yields

end Matcher

end Reduct
