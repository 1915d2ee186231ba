import Reduct.Proofs.ConstructionDrafts
import Reduct.Proofs.FinishedDrafts

/-!
# Tame code

The code of a function raises a message only where it has just put the message together, and it
defines no functions. So its failures do not depend on the store, and a run leaves the functions
of the machine as they are. All code that is generated is tame. The argument goes along the
generator: a step keeps the functions of the draft tame, and the statements that it gives are
tame wherever they stand.
-/

namespace Reduct

/-- Whether an expression is a sum, of two texts or of two numbers. -/
def Expression.isSum : Expression → Bool
  | binary .add _ _ => true
  | _ => false

namespace Statement

/-- The variable that a statement sets to a sum. -/
def sum? : Statement → Option Symbol
  | .assign target value => if value.isSum then some target else none
  | _ => none

mutual

/-- Whether a statement defines no function, and raises no variable but the one that was set to a
sum just before. -/
def isTame : Option Symbol → Statement → Bool
  | _, .define .. => false
  | _, .branch _ onTrue onFalse => areTame none onTrue && areTame none onFalse
  | _, .forEach _ _ body => areTame none body
  | _, .forRange _ _ _ body => areTame none body
  | _, .loop _ body => areTame none body
  | sum, .raise (.name shown) => decide (sum = some shown)
  | _, _ => true

/-- Whether statements are tame, one after the other. -/
def areTame : Option Symbol → List Statement → Bool
  | _, [] => true
  | sum, statement :: rest => statement.isTame sum && areTame statement.sum? rest

end

/-- Statements are tame, whatever was set before them. -/
def Tame (code : List Statement) : Prop := ∀ sum, areTame sum code = true

/-- Code that comes with something else has a property. -/
def First {α : Type} (good : List Statement → Prop) (result : List Statement × α) : Prop :=
  good result.1

variable {sum : Option Symbol} {code rest : List Statement}

@[simp]
theorem areTame_nil : areTame sum [] = true := rfl

@[simp]
theorem areTame_cons (statement : Statement) :
    areTame sum (statement :: rest) =
      (statement.isTame sum && areTame statement.sum? rest) := rfl

theorem areTame_append (first : areTame sum code = true)
    (second : ∀ sum, areTame sum rest = true) : areTame sum (code ++ rest) = true := by
  induction code generalizing sum with
  | nil => exact second sum
  | cons statement code ih =>
    rw [areTame_cons, Bool.and_eq_true] at first
    rw [List.cons_append, areTame_cons, first.1, ih first.2, Bool.and_true]

theorem tame_nil : Tame [] := fun _ => areTame_nil

theorem Tame.append (first : Tame code) (second : Tame rest) : Tame (code ++ rest) :=
  fun sum => areTame_append (first sum) second

theorem tame_flatten {blocks : List (List Statement)} (each : ∀ block ∈ blocks, Tame block) :
    Tame blocks.flatten := by
  induction blocks with
  | nil => exact tame_nil
  | cons block blocks ih =>
    obtain ⟨first, others⟩ := List.forall_mem_cons.mp each
    exact first.append (ih others)

/-- A statement that is tame wherever it stands. -/
theorem Tame.cons {statement : Statement} (first : ∀ sum, statement.isTame sum = true)
    (others : Tame rest) : Tame (statement :: rest) := by
  intro sum
  rw [areTame_cons, first, others, Bool.and_true]

theorem tame_of_each (each : ∀ statement ∈ code, Tame [statement]) : Tame code := by
  induction code with
  | nil => exact tame_nil
  | cons statement code ih =>
    obtain ⟨first, others⟩ := List.forall_mem_cons.mp each
    exact .append first (ih others)

@[simp]
theorem isTame_assign (target : Symbol) (value : Expression) :
    isTame sum (.assign target value) = true := rfl

@[simp]
theorem isTame_effect (value : Expression) : isTame sum (.effect value) = true := rfl

@[simp]
theorem isTame_returns (value : Operand) : isTame sum (.returns value) = true := rfl

@[simp]
theorem isTame_print (value : Operand) : isTame sum (.print value) = true := rfl

@[simp]
theorem isTame_branch (condition : Operand) (onTrue onFalse : List Statement) :
    isTame sum (.branch condition onTrue onFalse) =
      (areTame none onTrue && areTame none onFalse) := rfl

@[simp]
theorem isTame_forEach (targets : List Symbol) (iterable : Symbol) (body : List Statement) :
    isTame sum (.forEach targets iterable body) = areTame none body := rfl

@[simp]
theorem isTame_forRange (target : Symbol) (start stop : Operand) (body : List Statement) :
    isTame sum (.forRange target start stop body) = areTame none body := rfl

@[simp]
theorem isTame_loop (condition : Symbol) (body : List Statement) :
    isTame sum (.loop condition body) = areTame none body := rfl

@[simp]
theorem isTame_assignPrimitive (target : Symbol) (function : Primitive)
    (arguments : List Operand) :
    isTame sum (assignPrimitive target function arguments) = true := isTame_assign _ _

@[simp]
theorem isTame_assignCall (target function : Symbol) (arguments : List Operand) :
    isTame sum (assignCall target function arguments) = true := isTame_assign _ _

@[simp]
theorem isTame_assignBinary (target : Symbol) (op : BinaryOp) (left right : Operand) :
    isTame sum (assignBinary target op left right) = true := isTame_assign _ _

@[simp]
theorem isTame_perform (function : Primitive) (arguments : List Operand) :
    isTame sum (perform function arguments) = true := isTame_effect _

@[simp]
theorem isTame_whenTrue (condition : Symbol) (body : List Statement) :
    isTame sum (whenTrue condition body) = areTame none body := by
  rw [whenTrue, isTame_branch, areTame_nil, Bool.and_true]

@[simp]
theorem isTame_whenFalse (condition : Symbol) (body : List Statement) :
    isTame sum (whenFalse condition body) = areTame none body := by
  rw [whenFalse, isTame_branch, areTame_nil, Bool.true_and]

/-- Statements that are called for their effect are tame. -/
theorem tame_performs {α : Type} (function : Primitive) (arguments : α → List Operand)
    (items : List α) : Tame (items.map fun item => perform function (arguments item)) := by
  induction items with
  | nil => exact tame_nil
  | cons item items ih => exact .cons (fun _ => isTame_perform _ _) ih

end Statement

namespace Draft

open Statement

/-- The functions of a draft have tame code. -/
def AllTame (draft : Draft) : Prop :=
  ∀ name parameters body, .define name parameters body ∈ draft.functions → Tame body

/-- A step of a compilation keeps the functions of the draft tame, and gives what is good. -/
def Makes {α : Type} (good : α → Prop) (action : Drafting α) : Prop :=
  ∀ before result after, Yields action before result after →
    (before.AllTame → after.AllTame) ∧ good result

/-- A step of a compilation keeps the functions of the draft tame. -/
abbrev KeepsTame {α : Type} (action : Drafting α) : Prop := Makes (fun _ => True) action

section Steps

variable {α β : Type} {good : α → Prop} {fine : β → Prop}

theorem makes_pure {value : α} (fits : good value) : Makes good (pure value : Drafting α) := by
  intro before result after yields
  obtain ⟨rfl, rfl⟩ := yields_pure.mp yields
  exact ⟨id, fits⟩

theorem makes_throw (fault : Fault) : Makes good (throw fault : Drafting α) := nofun

theorem Makes.bind {first : Drafting α} {next : α → Drafting β} (one : Makes good first)
    (two : ∀ value, good value → Makes fine (next value)) : Makes fine (first >>= next) := by
  intro before result after yields
  obtain ⟨value, middle, begun, ended⟩ := yields_bind.mp yields
  obtain ⟨kept, fits⟩ := one _ _ _ begun
  obtain ⟨still, good⟩ := two value fits _ _ _ ended
  exact ⟨still ∘ kept, good⟩

/-- A step that leaves the functions as they are. -/
theorem keepsTame_of_same {action : Drafting α}
    (same : ∀ before result after, Yields action before result after →
      after.functions = before.functions) : KeepsTame action := by
  intro before result after yields
  refine ⟨fun tame name parameters body listed => ?_, trivial⟩
  rw [same _ _ _ yields] at listed
  exact tame name parameters body listed

theorem keepsTame_freshLocal (hint : String) : KeepsTame (freshLocal hint) := by
  refine keepsTame_of_same fun before name after yields => ?_
  obtain ⟨_, rfl⟩ := yields_freshLocal.mp yields
  rfl

theorem keepsTame_freshFunction (kind hint : String) : KeepsTame (freshFunction kind hint) := by
  refine keepsTame_of_same fun before name after yields => ?_
  obtain ⟨_, rfl⟩ := yields_freshFunction yields
  rfl

theorem functions_of_constant {term : Term} {before after : Draft} {name : Symbol}
    (yields : Yields (constant term) before name after) : after.functions = before.functions := by
  unfold constant at yields
  obtain ⟨_, _, got, yields⟩ := yields_bind.mp yields
  obtain ⟨rfl, rfl⟩ := yields_get.mp got
  split at yields
  · obtain ⟨_, rfl⟩ := yields_pure.mp yields
    rfl
  · obtain ⟨_, _, kept, yields⟩ := yields_bind.mp yields
    obtain rfl := yields_set.mp kept
    obtain ⟨_, rfl⟩ := yields_pure.mp yields
    rfl

theorem keepsTame_constant (term : Term) : KeepsTame (constant term) :=
  keepsTame_of_same fun _ _ _ yields => functions_of_constant yields

theorem keepsTame_mentionedConstant (language : Symbol) (mentioned : SymbolSet) :
    KeepsTame (mentionedConstant language mentioned) := by
  refine keepsTame_of_same fun before name after yields => ?_
  unfold mentionedConstant at yields
  obtain ⟨_, _, got, yields⟩ := yields_bind.mp yields
  obtain ⟨rfl, rfl⟩ := yields_get.mp got
  split at yields
  · obtain ⟨_, rfl⟩ := yields_pure.mp yields
    rfl
  · obtain ⟨_, _, made, yields⟩ := yields_bind.mp yields
    obtain ⟨_, _, changed, yields⟩ := yields_bind.mp yields
    obtain rfl := yields_modify.mp changed
    obtain ⟨_, rfl⟩ := yields_pure.mp yields
    have same := functions_of_constant made
    exact same

/-- A local name is drawn and then used. -/
theorem Makes.withLocal {hint : String} {next : Symbol → Drafting β}
    (rest : ∀ name, Makes fine (next name)) : Makes fine (freshLocal hint >>= next) :=
  (keepsTame_freshLocal hint).bind fun name _ => rest name

theorem Makes.mapM {step : α → Drafting β} (each : ∀ item, Makes fine (step item)) :
    ∀ items : List α, Makes (fun results => ∀ result ∈ results, fine result) (items.mapM step)
  | [] => by
    rw [List.mapM_nil]
    exact makes_pure nofun
  | item :: rest => by
    rw [List.mapM_cons]
    refine (each item).bind fun result here => (Makes.mapM each rest).bind fun results others => ?_
    exact makes_pure (List.forall_mem_cons.mpr ⟨here, others⟩)

/-- A function with tame code is added. -/
theorem keepsTame_addFunction (name : Symbol) (parameters : List Symbol) {body : List Statement}
    (tame : Tame body) : KeepsTame (addFunction name parameters body) := by
  intro before result after yields
  obtain rfl := yields_modify.mp yields
  refine ⟨fun earlier other others code listed => ?_, trivial⟩
  rcases List.mem_append.mp listed with known | new
  · exact earlier other others code known
  · cases List.mem_singleton.mp new
    exact tame

/-- A name is reserved for a matcher or for a predicate. -/
theorem keepsTame_modify (change : Draft → Draft)
    (same : ∀ draft, (change draft).functions = draft.functions) :
    KeepsTame (modify change : Drafting PUnit) := by
  refine keepsTame_of_same fun before result after yields => ?_
  obtain rfl := yields_modify.mp yields
  exact same before

theorem keepsTame_get : KeepsTame (get : Drafting Draft) := by
  refine keepsTame_of_same fun before result after yields => ?_
  obtain ⟨_, rfl⟩ := yields_get.mp yields
  rfl

theorem keepsTame_sharedMatcher {language : Symbol} {pattern : Pattern} {kind hint : String}
    {parameters : List Symbol} {body : Drafting (List Statement)}
    (inner : Makes Tame body) :
    KeepsTame (sharedMatcher language pattern kind hint parameters body) := by
  unfold sharedMatcher
  refine keepsTame_get.bind fun draft _ => ?_
  split
  · exact makes_pure trivial
  · refine (keepsTame_freshFunction kind hint).bind fun name _ => ?_
    have reserving := keepsTame_modify
      (fun draft => { draft with matchers := ((language, pattern), name) :: draft.matchers })
      fun _ => rfl
    refine reserving.bind fun _ _ => inner.bind fun statements tame => ?_
    exact (keepsTame_addFunction name parameters tame).bind fun _ _ => makes_pure trivial

end Steps

end Draft

namespace Matcher

open Draft Statement

section Bodies

variable {language : Language} {predicate : Symbol → Drafting Symbol}

theorem makes_variableTest (term excluded : Symbol) {success : List Statement}
    (tame : Tame success) : Makes Tame (variableTest term excluded success) := by
  iterate 3 refine .withLocal fun _ => ?_
  exact makes_pure fun _ => by simp [tame none]

theorem makes_leafTest (tests : ∀ stem, KeepsTame (predicate stem)) (leaf : Pattern)
    (term : Symbol) {success : List Statement} (tame : Tame success) :
    Makes Tame (leafTest language predicate leaf term success) := by
  unfold leafTest
  refine .withLocal fun ok => ?_
  have direct : ∀ target test arguments,
      Tame [assignCall target test arguments, whenTrue ok success] :=
    fun _ _ _ _ => by simp [tame none]
  have primitive : ∀ target test arguments,
      Tame [assignPrimitive target test arguments, whenTrue ok success] :=
    fun _ _ _ _ => by simp [tame none]
  split
  · exact (keepsTame_constant _).bind fun _ _ => makes_pure (primitive _ _ _)
  · exact (tests _).bind fun _ _ => makes_pure (direct _ _ _)
  · exact (keepsTame_mentionedConstant _ _).bind fun _ _ => makes_variableTest _ _ tame
  · exact (keepsTame_constant _).bind fun _ _ => makes_variableTest _ _ tame
  · exact makes_pure (primitive _ _ _)
  · exact makes_throw _

theorem makes_leafBody (tests : ∀ stem, KeepsTame (predicate stem)) (leaf : Pattern) :
    Makes Tame (leafBody language predicate leaf) := by
  unfold leafBody
  iterate 6 refine .withLocal fun _ => ?_
  refine (makes_leafTest tests leaf _ ?_).bind fun test tame => makes_pure fun _ => ?_
  · refine .cons (fun _ => by simp) (.append (tame_performs _ _ _) fun _ => ?_)
    simp
  · simp [tame _]

theorem makes_checkStep (test : Check) (entry position next : Symbol) :
    Makes Tame (checkStep test entry position next) := by
  iterate 2 refine .withLocal fun _ => ?_
  exact makes_pure fun _ => by simp

theorem makes_itemStep (matcher : Symbol) (isFixed : Bool) (remaining : Nat)
    (term length entry position next : Symbol) :
    Makes Tame (itemStep matcher isFixed remaining term length entry position next) := by
  unfold itemStep
  refine .withLocal fun _ => ?_
  split
  · iterate 2 refine .withLocal fun _ => ?_
    exact makes_pure fun _ => by simp
  · exact makes_pure fun _ => by simp

theorem makes_sequenceBody (items : List Pattern)
    {steps : SequenceLocals → Symbol → Drafting (List Statement × Symbol)}
    (each : ∀ locals first, Makes (First Tame) (steps locals first)) :
    Makes Tame (sequenceBody items steps) := by
  unfold sequenceBody
  iterate 8 refine .withLocal fun _ => ?_
  refine (each _ _).bind fun result tame => ?_
  iterate 5 refine .withLocal fun _ => ?_
  exact makes_pure fun _ => by simp [areTame_append, tame _]

theorem makes_explore (matcher start : Symbol) (mode : RepeatMode) :
    Makes (First Tame) (explore matcher start mode) := by
  cases mode with
  | exhaustive =>
    iterate 10 refine .withLocal fun _ => ?_
    exact makes_pure fun _ => by simp
  | greedy =>
    iterate 9 refine .withLocal fun _ => ?_
    exact makes_pure fun _ => by simp

theorem makes_repeatBody (bound : List Symbol) (mode : RepeatMode) {inner : Drafting Symbol}
    (round : KeepsTame inner) : Makes Tame (repeatBody bound mode inner) := by
  refine round.bind fun _ _ => .withLocal fun _ => ?_
  refine (makes_explore _ _ _).bind fun search tame => ?_
  iterate 5 refine .withLocal fun _ => ?_
  dsimp only
  have opened := fun target => tame_performs .matchIncreaseDepth
    (fun symbol => [.name target, .string symbol]) bound
  have closed := fun target => tame_performs .matchDecreaseDepth
    (fun symbol => [.name target, .string symbol]) bound
  refine makes_pure (.append (.append (.cons (fun _ => by simp) (opened _)) tame) fun _ => ?_)
  simp [areTame_append, closed _ _]

theorem makes_guardChecks (merged : Symbol) {accept : List Statement} (tame : Tame accept) :
    ∀ checks, Makes Tame (guardChecks merged accept checks)
  | [] => makes_pure tame
  | test :: rest => by
    refine (makes_guardChecks merged tame rest).bind fun inner nested => .withLocal fun _ => ?_
    exact makes_pure fun _ => by simp [nested none]

theorem makes_inHoleBody (checks : List Check) {context contents : Drafting Symbol}
    (around : KeepsTame context) (within : KeepsTame contents) :
    Makes Tame (inHoleBody checks context contents) := by
  refine around.bind fun _ _ => within.bind fun _ _ => (keepsTame_constant _).bind fun _ _ => ?_
  iterate 22 refine .withLocal fun _ => ?_
  refine (makes_guardChecks _ (fun _ => by simp) checks).bind fun accept tame => ?_
  exact makes_pure fun _ => by simp [tame _, callOnWhole]

mutual

/-- Compiling the matcher of a pattern. -/
theorem keepsTame_compileWith (tests : ∀ stem, KeepsTame (predicate stem)) :
    (pattern : Pattern) → KeepsTame (compileWith language predicate pattern)
  | .literal _ | .builtIn _ _ | .nonTerminal _ _ => by
    rw [compileWith]
    exact keepsTame_sharedMatcher (makes_leafBody tests _)
  | .sequence items => by
    rw [compileWith]
    exact keepsTame_sharedMatcher (makes_sequenceBody items fun locals frontier =>
      makes_compileItems tests locals (fixedCount items) frontier items)
  | .repeated inner mode => by
    rw [compileWith]
    exact keepsTame_sharedMatcher (makes_repeatBody _ mode (keepsTame_compileWith tests inner))
  | .inHole context contents checks => by
    rw [compileWith]
    exact keepsTame_sharedMatcher (makes_inHoleBody checks (keepsTame_compileWith tests context)
      (keepsTame_compileWith tests contents))
  | .check _ | .unresolved _ => by
    rw [compileWith]
    exact makes_throw _

/-- Compiling the items of a sequence. -/
theorem makes_compileItems (tests : ∀ stem, KeepsTame (predicate stem)) (locals : SequenceLocals)
    (remaining : Nat) (frontier : Symbol) : (items : List Pattern) →
      Makes (First Tame)
        (compileItems language predicate locals remaining frontier items)
  | [] => by
    rw [compileItems]
    exact makes_pure tame_nil
  | item :: rest => by
    have one := keepsTame_compileWith tests item
    rw [compileItems_cons]
    iterate 3 refine .withLocal fun _ => ?_
    refine Makes.bind (?_ : Makes Tame _) fun step here => ?_
    · cases item with
      | check test => exact makes_checkStep test _ _ _
      | _ => exact one.bind fun _ _ => makes_itemStep _ _ _ _ _ _ _ _
    · refine (makes_compileItems tests locals _ _ rest).bind fun others there => ?_
      exact makes_pure (.append (fun _ => by simp [here none]) there)

end

end Bodies

theorem makes_alternativeTests {compile : Pattern → Drafting Symbol}
    (each : ∀ pattern, KeepsTame (compile pattern)) (bindings : Symbol) :
    ∀ alternatives, Makes Tame (alternativeTests compile bindings alternatives)
  | [] => makes_pure tame_nil
  | alternative :: rest => by
    rw [alternativeTests]
    refine (each _).bind fun _ _ => ?_
    iterate 3 refine .withLocal fun _ => ?_
    refine (makes_alternativeTests each bindings rest).bind fun others tame => ?_
    exact makes_pure (.append (fun _ => by simp [callOnWhole]) tame)

theorem keepsTame_sharedPredicate {language : Language} {nonTerminal : Symbol}
    {enter : Rule → Drafting Symbol} (entered : ∀ rule, KeepsTame (enter rule)) :
    KeepsTame (sharedPredicate language nonTerminal enter) := by
  unfold sharedPredicate predicate?
  have asked : ∀ key, KeepsTame (do
      let draft ← get
      pure (lookupIn key draft.predicates) : Drafting (Option Symbol)) :=
    fun _ => keepsTame_get.bind fun _ _ => makes_pure trivial
  refine (asked _).bind fun reserved _ => ?_
  split
  · exact makes_pure trivial
  · exact makes_throw _
  · exact entered _

/-- Compiling the predicate of a non-terminal. -/
theorem keepsTame_predicate (language : Language) :
    ∀ fuel nonTerminal, KeepsTame (predicate language fuel nonTerminal)
  | 0, nonTerminal => by
    rw [predicate]
    exact keepsTame_sharedPredicate fun _ => makes_throw _
  | fuel + 1, nonTerminal => by
    rw [predicate]
    refine keepsTame_sharedPredicate fun rule => ?_
    refine (keepsTame_freshFunction _ _).bind fun name _ => ?_
    have reserving := keepsTame_modify (fun draft =>
      { draft with predicates := ((language.name, nonTerminal), name) :: draft.predicates })
      fun _ => rfl
    refine reserving.bind fun _ _ => ?_
    have each := @keepsTame_compileWith language _ (keepsTame_predicate language fuel)
    refine (makes_alternativeTests each env rule.alternatives).bind fun tests tame => ?_
    refine (keepsTame_addFunction name [whole] ?_).bind fun _ _ => makes_pure trivial
    exact .append (.append (fun _ => by simp) tame) fun _ => by simp

/-- Compiling a matcher of whole terms. -/
theorem keepsTame_compileTop (language : Language) (prepared : Prepared) :
    KeepsTame (compileTop language prepared) := by
  refine (keepsTame_compileWith (keepsTame_predicate language _) _).bind fun _ _ => ?_
  refine (keepsTame_freshFunction _ _).bind fun _ _ => ?_
  iterate 5 refine .withLocal fun _ => ?_
  dsimp only
  have drops := fun target => tame_performs .matchRemove
    (fun symbol => [.name target, .string symbol]) prepared.synthetic
  refine (keepsTame_addFunction _ _ fun _ => ?_).bind fun _ _ => makes_pure trivial
  simp [callOnWhole, areTame_append, drops _ _]

end Matcher

namespace Construction

open Draft Statement

/-- The primitives that build terms. -/
def builders : List Primitive :=
  [.newList, .listAppend, .listExtend, .sequenceChildren, .makeSequence, .sequenceGet,
    .sequenceLength, .checkEllipsisCounts, .plug]

/-- Code that builds terms has a property: it calls functions and primitives that build terms, and
it runs such code for a range of integers. -/
structure Fits (good : List Statement → Prop) : Prop where
  nil : good []
  append : ∀ {code rest : List Statement}, good code → good rest → good (code ++ rest)
  primitive : ∀ {function : Primitive}, function ∈ builders → ∀ target arguments,
    good [assignPrimitive target function arguments]
  perform : ∀ {function : Primitive}, function ∈ builders → ∀ arguments,
    good [perform function arguments]
  call : ∀ target function arguments, good [assignCall target function arguments]
  forRange : ∀ {body : List Statement}, good body → ∀ index count,
    good [.forRange index (.int 0) (.name count) body]

theorem fits_tame : Fits Tame where
  nil := tame_nil
  append := .append
  primitive _ _ _ := fun _ => by simp
  perform _ _ := fun _ => by simp
  call _ _ _ := fun _ => by simp
  forRange tame _ _ := fun _ => by simp [tame none]

section Code

variable {good : List Statement → Prop} (fits : Fits good)

include fits

theorem Fits.assigned {function : Primitive} (builds : function ∈ builders) (target : Symbol)
    (arguments : List Operand) {rest : List Statement} (later : good rest) :
    good (assignPrimitive target function arguments :: rest) :=
  fits.append (fits.primitive builds target arguments) later

theorem Fits.performs {α : Type} (function : Primitive) (builds : function ∈ builders)
    (arguments : α → List Operand) (items : List α) :
    good (items.map fun item => Statement.perform function (arguments item)) := by
  induction items with
  | nil => exact fits.nil
  | cons item items ih => exact fits.append (fits.perform builds _) ih

theorem makes_addPiece (list : Symbol) (piece : Piece) : Makes good (addPiece list piece) := by
  cases piece with
  | term result => exact makes_pure (fits.perform (by decide) _)
  | list result => exact makes_pure (fits.perform (by decide) _)
  | spliced result =>
    refine .withLocal fun _ => makes_pure ?_
    exact fits.append (fits.primitive (by decide) _ _) (fits.perform (by decide) _)

theorem makes_contribution {coded : Coded} (each : Makes (First good) coded) (list : Symbol) :
    Makes good (contribution coded list) :=
  each.bind fun _ here => (makes_addPiece fits list _).bind fun _ there =>
    makes_pure (fits.append here there)

theorem makes_listOf {contribute : Symbol → Drafting (List Statement)}
    (each : ∀ list, Makes good (contribute list)) : Makes (First good) (listOf contribute) :=
  .withLocal fun list => (each list).bind fun _ code =>
    makes_pure (fits.append (fits.primitive (by decide) _ _) code)

theorem makes_sequenceOf {contribute : Symbol → Drafting (List Statement)}
    (each : ∀ list, Makes good (contribute list)) : Makes (First good) (sequenceOf contribute) :=
  (makes_listOf fits each).bind fun _ code => .withLocal fun _ =>
    makes_pure (fits.append code (fits.primitive (by decide) _ _))

theorem makes_asTerm {coded : Coded} (each : Makes (First good) coded) (template : Annotated) :
    Makes (First good) (asTerm template coded) := by
  unfold asTerm
  split
  · exact makes_sequenceOf fits (makes_contribution fits each)
  · refine each.bind fun built here => ?_
    obtain ⟨code, piece⟩ := built
    cases piece <;> exact makes_pure here

omit fits in
theorem keepsTame_driverLocals (scope : Scope) (drivers : List Symbol) :
    KeepsTame (driverLocals scope drivers) := by
  intro before sources after yields
  obtain ⟨rfl, _⟩ := yields_driverLocals yields
  exact ⟨id, trivial⟩

theorem makes_fetchElements (index : Symbol) : ∀ sources scope,
    Makes (First good) (fetchElements index sources scope)
  | [], _ => makes_pure fits.nil
  | _ :: rest, _ => .withLocal fun _ => (makes_fetchElements index rest _).bind fun _ code =>
      makes_pure (fits.append (fits.primitive (by decide) _ _) code)

theorem makes_repeatCode (scope : Scope) (drivers : List Symbol) {inner : Scope → Coded}
    (each : ∀ innerScope, Makes (First good) (inner innerScope)) :
    Makes (First good) (repeatCode scope drivers inner) := by
  refine (keepsTame_driverLocals scope drivers).bind fun sources _ => ?_
  cases sources with
  | nil => exact makes_throw _
  | cons first others =>
    iterate 3 refine .withLocal fun _ => ?_
    refine (makes_fetchElements fits _ _ _).bind fun fetched fetch => ?_
    refine (makes_listOf fits (makes_contribution fits (each _))).bind fun built code => ?_
    have checks := fun count => fits.performs .checkEllipsisCounts (by decide)
      (fun driver : Symbol × Symbol => [.name driver.2, .name count]) others
    refine makes_pure (fits.append (fits.append
      (fits.assigned (by decide) _ _ (fits.primitive (by decide) _ _)) (checks _)) ?_)
    exact fits.forRange (fits.append (fits.append fetch code) (fits.perform (by decide) _)) _ _

variable {table : Table Symbol}

mutual

/-- Generating the code of an annotated template. -/
theorem makes_build : (template : Annotated) → (scope : Scope) →
    Makes (First good) (build table scope template)
  | .literal _, scope => by
    rw [build]
    exact (keepsTame_constant _).bind fun _ _ => makes_pure fits.nil
  | .bound _ _, scope => by
    rw [build]
    split
    · exact makes_pure fits.nil
    · exact makes_throw _
  | .sequence items, scope => by
    rw [build]
    exact (makes_sequenceOf fits (makes_contributeAll items scope)).bind
      fun _ code => makes_pure code
  | .repeated inner drivers, scope => by
    rw [build]
    exact makes_repeatCode fits scope drivers fun innerScope => makes_build inner innerScope
  | .inHole context contents, scope => by
    rw [build]
    refine (makes_asTerm fits (makes_build context scope) _).bind fun _ around => ?_
    refine (makes_asTerm fits (makes_build contents scope) _).bind fun _ within => ?_
    refine .withLocal fun _ => makes_pure ?_
    exact fits.append (fits.append around within) (fits.primitive (by decide) _ _)
  | .metafunction function arguments, scope => by
    rw [build]
    split
    · exact makes_throw _
    · refine (makes_sequenceOf fits (makes_contributeAll arguments scope)).bind fun _ code => ?_
      exact .withLocal fun _ => makes_pure (fits.append code (fits.call _ _ _))
  | .foreign function arguments mode, scope => by
    rw [build]
    refine (makes_buildArguments arguments scope).bind fun built code => .withLocal fun _ => ?_
    have called := fun result => fits.append code
      (fits.call result function (built.2.map Operand.name))
    cases mode <;> exact makes_pure (called _)

/-- Generating the code that adds what templates contribute to a list. -/
theorem makes_contributeAll : (items : List Annotated) → (scope : Scope) → (list : Symbol) →
    Makes good (contributeAll table scope items list)
  | [], _, _ => by
    rw [contributeAll]
    exact makes_pure fits.nil
  | item :: rest, scope, list => by
    rw [contributeAll]
    refine (makes_contribution fits (makes_build item scope) list).bind fun _ here => ?_
    exact (makes_contributeAll rest scope list).bind fun _ there =>
      makes_pure (fits.append here there)

/-- Generating the code of the arguments of a host function. -/
theorem makes_buildArguments : (items : List Annotated) → (scope : Scope) →
    Makes (First good) (buildArguments table scope items)
  | [], _ => by
    rw [buildArguments]
    exact makes_pure fits.nil
  | item :: rest, scope => by
    rw [buildArguments]
    refine (makes_asTerm fits (makes_build item scope) item).bind fun _ here => ?_
    exact (makes_buildArguments rest scope).bind fun _ there =>
      makes_pure (fits.append here there)

end

end Code

theorem makes_fetchVariables (bindings : Symbol) : ∀ symbols scope,
    Makes (First Tame) (fetchVariables bindings symbols scope)
  | [], _ => makes_pure tame_nil
  | _ :: rest, _ => .withLocal fun _ => (makes_fetchVariables bindings rest _).bind fun _ tame =>
      makes_pure (Tame.cons (fun _ => by simp) tame)

/-- Compiling the construction of an annotated template. -/
theorem keepsTame_compile {table : Table Symbol} (template : Annotated) :
    KeepsTame (compile table template) := by
  refine (keepsTame_freshFunction _ _).bind fun _ _ => ?_
  refine (makes_fetchVariables _ _ _).bind fun _ fetch => ?_
  refine (makes_asTerm fits_tame (makes_build fits_tame template _) template).bind fun _ code => ?_
  refine (keepsTame_addFunction _ _ ?_).bind fun _ _ => makes_pure trivial
  exact (Tame.append fetch code).append fun _ => by simp

end Construction

end Reduct
