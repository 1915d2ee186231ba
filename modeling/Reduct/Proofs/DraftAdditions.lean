import Reduct.Compile.Program
import Reduct.Proofs.ConstructionDrafts
import Reduct.Proofs.FinishedDrafts
import Reduct.Proofs.Loading
import Reduct.Proofs.WrittenForms

/-!
# What code generation adds to a draft

Matchers, predicates and constructions add constants of good atoms, definitions of functions, and
names with new numbers to a draft, and nothing else. The argument goes along the generator: what relates
the drafts before and after a step is kept by steps one after another, as it is a preorder.
-/

namespace Reduct

namespace Draft

/-- A step relates the draft before to the one after, wherever it succeeds. -/
def Moves {α : Type} (related : Draft → Draft → Prop) (action : Drafting α) : Prop :=
  ∀ before result after, Yields action before result after → related before after

/-- A relation of drafts that small steps of a compilation are in. -/
structure Lenient (good : Atom → Prop) (related : Draft → Draft → Prop) : Prop where
  refl : ∀ draft, related draft draft
  trans : ∀ first second third, related first second → related second third → related first third
  locals : ∀ draft, related draft { draft with localCount := draft.localCount + 1 }
  constants : ∀ draft term, term.Composed good →
    related draft { draft with constants := draft.constants ++ [term] }

section Steps

variable {α β : Type} {good : Atom → Prop} {related : Draft → Draft → Prop}

theorem Lenient.pure (lenient : Lenient good related) (value : α) :
    Moves related (Pure.pure value : Drafting α) := by
  intro before result after yields
  obtain ⟨_, rfl⟩ := yields_pure.mp yields
  exact lenient.refl before

/-- Steps one after the other, where the second is known for what the first may give. -/
theorem Lenient.bindOf (lenient : Lenient good related) {first : Drafting α} {next : α → Drafting β}
    (one : Moves related first)
    (two : ∀ before value after, Yields first before value after → Moves related (next value)) :
    Moves related (first >>= next) := by
  intro before result after yields
  obtain ⟨value, middle, begun, ended⟩ := yields_bind.mp yields
  exact lenient.trans _ _ _ (one _ _ _ begun) (two _ _ _ begun _ _ _ ended)

theorem Lenient.bind (lenient : Lenient good related) {first : Drafting α} {next : α → Drafting β}
    (one : Moves related first) (two : ∀ value, Moves related (next value)) :
    Moves related (first >>= next) :=
  lenient.bindOf one fun _ value _ _ => two value

theorem moves_throw (fault : Fault) : Moves related (throw fault : Drafting α) := nofun

theorem Lenient.freshLocal (lenient : Lenient good related) (hint : String) :
    Moves related (freshLocal hint) := by
  intro before name after yields
  obtain ⟨_, rfl⟩ := yields_freshLocal.mp yields
  exact lenient.locals before

/-- A local name is drawn and then used. -/
theorem Lenient.withLocal (lenient : Lenient good related) {hint : String}
    {next : Symbol → Drafting β} (rest : ∀ name, Moves related (next name)) :
    Moves related (Draft.freshLocal hint >>= next) :=
  lenient.bind (lenient.freshLocal hint) rest

theorem Lenient.constant (lenient : Lenient good related) {term : Term}
    (composed : term.Composed good) : Moves related (constant term) := by
  intro before name after yields
  unfold Draft.constant at yields
  obtain ⟨_, _, got, yields⟩ := yields_bind.mp yields
  obtain ⟨rfl, rfl⟩ := yields_get.mp got
  split at yields
  · obtain ⟨_, rfl⟩ := yields_pure.mp yields
    exact lenient.refl _
  · obtain ⟨_, _, kept, yields⟩ := yields_bind.mp yields
    obtain rfl := yields_set.mp kept
    obtain ⟨_, rfl⟩ := yields_pure.mp yields
    exact lenient.constants _ term composed

theorem Lenient.mapM (lenient : Lenient good related) {step : α → Drafting β} {items : List α}
    (each : ∀ item ∈ items, Moves related (step item)) : Moves related (items.mapM step) := by
  induction items with
  | nil => exact lenient.pure _
  | cons item rest ih =>
    obtain ⟨here, later⟩ := List.forall_mem_cons.mp each
    rw [List.mapM_cons]
    exact lenient.bind here fun _ => lenient.bind (ih later) fun _ => lenient.pure _

end Steps

/-- What is added to a draft: constants that are composed of good atoms, definitions, and names
with new numbers. -/
structure Adds (good : Atom → Prop) (before after : Draft) : Prop where
  nameCount : before.nameCount ≤ after.nameCount
  constants : ∀ term ∈ after.constants, term ∈ before.constants ∨ term.Composed good
  functions : ∀ statement ∈ after.functions,
    statement ∈ before.functions ∨ Machine.isDefinition statement = true
  reserved : ∀ name ∈ after.reserved,
    name ∈ before.reserved ∨ ∃ number, before.nameCount ≤ number ∧ Numbered name number

variable {good : Atom → Prop}

theorem Adds.refl (draft : Draft) : draft.Adds good draft where
  nameCount := Nat.le_refl _
  constants _ := .inl
  functions _ := .inl
  reserved _ := .inl

theorem Adds.trans {first second third : Draft} (one : first.Adds good second)
    (two : second.Adds good third) : first.Adds good third where
  nameCount := Nat.le_trans one.nameCount two.nameCount
  constants term listed := (two.constants term listed).elim (one.constants term) .inr
  functions statement listed := (two.functions statement listed).elim (one.functions statement) .inr
  reserved name listed := by
    rcases two.reserved name listed with earlier | ⟨number, above, numbered⟩
    · exact one.reserved name earlier
    · exact .inr ⟨number, Nat.le_trans one.nameCount above, numbered⟩

theorem lenient_adds : Lenient good (Adds good) where
  refl := .refl
  trans _ _ _ := .trans
  locals draft := ⟨Nat.le_refl _, fun _ => .inl, fun _ => .inl, fun _ => .inl⟩
  constants draft term composed := by
    refine ⟨Nat.le_refl _, fun other listed => ?_, fun _ => .inl, fun _ => .inl⟩
    rcases List.mem_append.mp listed with earlier | new
    · exact .inl earlier
    · exact .inr (List.mem_singleton.mp new ▸ composed)

theorem adds_addFunction (name : Symbol) (parameters : List Symbol) (body : List Statement) :
    Moves (Adds good) (addFunction name parameters body) := by
  intro before result after yields
  obtain rfl := yields_modify.mp yields
  refine ⟨Nat.le_refl _, fun _ => .inl, fun statement listed => ?_, fun _ => .inl⟩
  rcases List.mem_append.mp listed with earlier | new
  · exact .inl earlier
  · exact .inr (List.mem_singleton.mp new ▸ rfl)

/-- A name is drawn for a function. -/
theorem adds_freshFunction (kind hint : String) : Moves (Adds good) (freshFunction kind hint) := by
  intro before name after yields
  obtain ⟨_, rfl⟩ := yields_freshFunction yields
  exact ⟨Nat.le_succ _, fun _ => .inl, fun _ => .inl, fun _ => .inl⟩

/-- A name that is drawn can be reserved, for a matcher or for a predicate. -/
theorem adds_reserve {before after : Draft} {name : Symbol}
    (numbered : Numbered name before.nameCount) (nameCount : after.nameCount = before.nameCount + 1)
    (constants : after.constants = before.constants) (functions : after.functions = before.functions)
    (reserved : ∀ other ∈ after.reserved, other = name ∨ other ∈ before.reserved) :
    before.Adds good after where
  nameCount := nameCount ▸ Nat.le_succ _
  constants term listed := .inl (constants ▸ listed)
  functions statement listed := .inl (functions ▸ listed)
  reserved other listed := by
    rcases reserved other listed with rfl | earlier
    · exact .inr ⟨before.nameCount, Nat.le_refl _, numbered⟩
    · exact .inl earlier

theorem adds_sharedMatcher {language : Symbol} {pattern : Pattern} {kind hint : String}
    {parameters : List Symbol} {body : Drafting (List Statement)} (inner : Moves (Adds good) body) :
    Moves (Adds good) (sharedMatcher language pattern kind hint parameters body) := by
  intro before name after yields
  unfold sharedMatcher at yields
  obtain ⟨_, _, got, yields⟩ := yields_bind.mp yields
  obtain ⟨rfl, rfl⟩ := yields_get.mp got
  split at yields
  · obtain ⟨_, rfl⟩ := yields_pure.mp yields
    exact .refl _
  · obtain ⟨fresh, named, drawn, yields⟩ := yields_bind.mp yields
    obtain ⟨numbered, rfl⟩ := yields_freshFunction drawn
    obtain ⟨_, reserved, changed, yields⟩ := yields_bind.mp yields
    obtain rfl := yields_modify.mp changed
    have written := lenient_adds.bind inner (fun statements =>
      lenient_adds.bind (adds_addFunction _ _ _) fun _ => lenient_adds.pure fresh) _ _ _ yields
    have reserving : before.Adds good { before with
        nameCount := before.nameCount + 1
        matchers := ((language, pattern), fresh) :: before.matchers } :=
      adds_reserve numbered rfl rfl rfl fun _ listed => List.mem_cons.mp listed
    exact reserving.trans written

end Draft

/-- The constants that a language gives to its matchers are composed of good atoms. -/
structure Language.Composed (good : Atom → Prop) (language : Language) : Prop where
  mentioned : ∀ name ∈ language.mentioned.members, good (.symbol name)
  rules : ∀ rule ∈ language.rules, ∀ alternative ∈ rule.alternatives,
    ∀ value ∈ alternative.pattern.atoms, good value

theorem Term.composed_symbols {good : Atom → Prop} {names : List Symbol}
    (each : ∀ name ∈ names, good (.symbol name)) :
    (Term.sequence (names.map Term.symbol)).Composed good := by
  refine .sequence fun item listed => ?_
  obtain ⟨name, among, rfl⟩ := List.mem_map.mp listed
  exact .atom (each name among)

namespace Matcher

open Draft Statement

section Bodies

variable {good : Atom → Prop} {language : Language} {predicate : Symbol → Drafting Symbol}

theorem adds_mentionedConstant (composed : language.Composed good) :
    Moves (Adds good) (mentionedConstant language.name language.mentioned) := by
  intro before name after yields
  unfold mentionedConstant at yields
  obtain ⟨_, _, got, yields⟩ := yields_bind.mp yields
  obtain ⟨rfl, rfl⟩ := yields_get.mp got
  split at yields
  · obtain ⟨_, rfl⟩ := yields_pure.mp yields
    exact .refl _
  · obtain ⟨fresh, middle, made, yields⟩ := yields_bind.mp yields
    obtain ⟨_, _, changed, yields⟩ := yields_bind.mp yields
    obtain rfl := yields_modify.mp changed
    obtain ⟨_, rfl⟩ := yields_pure.mp yields
    have added := lenient_adds.constant (Term.composed_symbols composed.mentioned) _ _ _ made
    exact ⟨added.nameCount, added.constants, added.functions, added.reserved⟩

theorem adds_variableTest (term excluded : Symbol) (success : List Statement) :
    Moves (Adds good) (variableTest term excluded success) := by
  iterate 3 refine lenient_adds.withLocal fun _ => ?_
  exact lenient_adds.pure _

theorem adds_leafTest (composed : language.Composed good)
    (tests : ∀ stem, Moves (Adds good) (predicate stem)) {leaf : Pattern}
    (atoms : ∀ value ∈ leaf.atoms, good value) (term : Symbol)
    (success : List Statement) :
    Moves (Adds good) (leafTest language predicate leaf term success) := by
  unfold leafTest
  refine lenient_adds.withLocal fun ok => ?_
  split
  · exact lenient_adds.bind (lenient_adds.constant (.atom (atoms _ (List.mem_singleton.mpr rfl))))
      fun _ => lenient_adds.pure _
  · exact lenient_adds.bind (tests _) fun _ => lenient_adds.pure _
  · exact lenient_adds.bind (adds_mentionedConstant composed) fun _ => adds_variableTest _ _ _
  · refine lenient_adds.bind (lenient_adds.constant (Term.composed_symbols fun name listed => ?_))
      fun _ => adds_variableTest _ _ _
    exact atoms _ (List.mem_map_of_mem listed)
  · exact lenient_adds.pure _
  · exact moves_throw _

theorem adds_leafBody (composed : language.Composed good)
    (tests : ∀ stem, Moves (Adds good) (predicate stem)) {leaf : Pattern}
    (atoms : ∀ value ∈ leaf.atoms, good value) :
    Moves (Adds good) (leafBody language predicate leaf) := by
  unfold leafBody
  iterate 6 refine lenient_adds.withLocal fun _ => ?_
  exact lenient_adds.bind (adds_leafTest composed tests atoms _ _) fun _ => lenient_adds.pure _

theorem adds_checkStep (test : Check) (entry position next : Symbol) :
    Moves (Adds good) (checkStep test entry position next) := by
  iterate 2 refine lenient_adds.withLocal fun _ => ?_
  exact lenient_adds.pure _

theorem adds_itemStep (matcher : Symbol) (isFixed : Bool) (remaining : Nat)
    (term length entry position next : Symbol) :
    Moves (Adds good) (itemStep matcher isFixed remaining term length entry position next) := by
  unfold itemStep
  refine lenient_adds.withLocal fun _ => ?_
  split
  · iterate 2 refine lenient_adds.withLocal fun _ => ?_
    exact lenient_adds.pure _
  · exact lenient_adds.pure _

theorem adds_sequenceBody (items : List Pattern)
    {steps : SequenceLocals → Symbol → Drafting (List Statement × Symbol)}
    (each : ∀ locals first, Moves (Adds good) (steps locals first)) :
    Moves (Adds good) (sequenceBody items steps) := by
  unfold sequenceBody
  iterate 8 refine lenient_adds.withLocal fun _ => ?_
  refine lenient_adds.bind (each _ _) fun _ => ?_
  iterate 5 refine lenient_adds.withLocal fun _ => ?_
  exact lenient_adds.pure _

theorem adds_explore (matcher start : Symbol) (mode : RepeatMode) :
    Moves (Adds good) (explore matcher start mode) := by
  cases mode with
  | exhaustive =>
    iterate 10 refine lenient_adds.withLocal fun _ => ?_
    exact lenient_adds.pure _
  | greedy =>
    iterate 9 refine lenient_adds.withLocal fun _ => ?_
    exact lenient_adds.pure _

theorem adds_repeatBody (bound : List Symbol) (mode : RepeatMode) {inner : Drafting Symbol}
    (round : Moves (Adds good) inner) : Moves (Adds good) (repeatBody bound mode inner) := by
  refine lenient_adds.bind round fun _ => lenient_adds.withLocal fun _ => ?_
  refine lenient_adds.bind (adds_explore _ _ _) fun _ => ?_
  iterate 5 refine lenient_adds.withLocal fun _ => ?_
  exact lenient_adds.pure _

theorem adds_guardChecks (merged : Symbol) (accept : List Statement) (checks : List Check) :
    Moves (Adds good) (guardChecks merged accept checks) := by
  induction checks with
  | nil => exact lenient_adds.pure _
  | cons test rest ih =>
    exact lenient_adds.bind ih fun _ => lenient_adds.withLocal fun _ => lenient_adds.pure _

theorem adds_inHoleBody (checks : List Check) {context contents : Drafting Symbol}
    (around : Moves (Adds good) context) (within : Moves (Adds good) contents) :
    Moves (Adds good) (inHoleBody checks context contents) := by
  refine lenient_adds.bind around fun _ => lenient_adds.bind within fun _ => ?_
  refine lenient_adds.bind (lenient_adds.constant .hole) fun _ => ?_
  iterate 22 refine lenient_adds.withLocal fun _ => ?_
  exact lenient_adds.bind (adds_guardChecks _ _ _) fun _ => lenient_adds.pure _

mutual

/-- Compiling the matcher of a pattern with good atoms. -/
theorem adds_compileWith (composed : language.Composed good)
    (tests : ∀ stem, Moves (Adds good) (predicate stem)) :
    (pattern : Pattern) → (∀ value ∈ pattern.atoms, good value) →
    Moves (Adds good) (compileWith language predicate pattern)
  | .literal _, atoms | .builtIn _ _, atoms | .nonTerminal _ _, atoms => by
    rw [compileWith]
    exact adds_sharedMatcher (adds_leafBody composed tests atoms)
  | .sequence items, atoms => by
    rw [compileWith]
    exact adds_sharedMatcher (adds_sequenceBody items fun locals frontier =>
      adds_compileItems composed tests items atoms locals _ frontier)
  | .repeated inner mode, atoms => by
    rw [compileWith]
    exact adds_sharedMatcher (adds_repeatBody _ mode (adds_compileWith composed tests inner atoms))
  | .inHole context contents checks, atoms => by
    obtain ⟨around, within⟩ := List.forall_mem_append.mp atoms
    rw [compileWith]
    exact adds_sharedMatcher (adds_inHoleBody checks (adds_compileWith composed tests context around)
      (adds_compileWith composed tests contents within))
  | .check _, _ | .unresolved _, _ => by
    rw [compileWith]
    exact moves_throw _

/-- Compiling the items of a sequence. -/
theorem adds_compileItems (composed : language.Composed good)
    (tests : ∀ stem, Moves (Adds good) (predicate stem)) : (items : List Pattern) →
    (∀ value ∈ Pattern.atomsAll items, good value) → ∀ (locals : SequenceLocals)
    (remaining : Nat) (frontier : Symbol),
    Moves (Adds good) (compileItems language predicate locals remaining frontier items)
  | [], _, _, _, _ => by
    rw [compileItems]
    exact lenient_adds.pure _
  | item :: rest, atoms, locals, remaining, frontier => by
    obtain ⟨here, later⟩ := List.forall_mem_append.mp atoms
    have one := adds_compileWith composed tests item here
    rw [compileItems_cons]
    iterate 3 refine lenient_adds.withLocal fun _ => ?_
    refine lenient_adds.bind ?_ fun _ => lenient_adds.bind
      (adds_compileItems composed tests rest later _ _ _) fun _ => lenient_adds.pure _
    cases item with
    | check test => exact adds_checkStep test _ _ _
    | _ => exact lenient_adds.bind one fun _ => adds_itemStep _ _ _ _ _ _ _ _

end

theorem adds_alternativeTests {compile : Pattern → Drafting Symbol} {alternatives : List Prepared}
    (each : ∀ alternative ∈ alternatives, Moves (Adds good) (compile alternative.pattern))
    (bindings : Symbol) : Moves (Adds good) (alternativeTests compile bindings alternatives) := by
  induction alternatives with
  | nil => exact lenient_adds.pure _
  | cons first rest ih =>
    obtain ⟨here, later⟩ := List.forall_mem_cons.mp each
    refine lenient_adds.bind here fun _ => ?_
    iterate 3 refine lenient_adds.withLocal fun _ => ?_
    exact lenient_adds.bind (ih later) fun _ => lenient_adds.pure _

end Bodies

variable {good : Atom → Prop} {language : Language}

/-- Compiling the predicate of a non-terminal. -/
theorem adds_predicate (composed : language.Composed good) (fuel : Nat) :
    ∀ stem, Moves (Adds good) (predicate language fuel stem) := by
  induction fuel with
  | zero =>
    intro stem before name after yields
    rw [predicate] at yields
    obtain ⟨_, rfl⟩ | ⟨rule, _, _, entered⟩ := yields_sharedPredicate yields
    · exact .refl _
    · cases entered
  | succ fuel ih =>
    intro stem before name after yields
    rw [predicate] at yields
    obtain ⟨_, rfl⟩ | ⟨rule, found, _, entered⟩ := yields_sharedPredicate yields
    · exact .refl _
    · have listed := (Language.mem_rules found).1
      obtain ⟨fresh, named, drawn, entered⟩ := yields_bind.mp entered
      obtain ⟨numbered, rfl⟩ := yields_freshFunction drawn
      obtain ⟨_, _, changed, entered⟩ := yields_bind.mp entered
      obtain rfl := yields_modify.mp changed
      have tests : Moves (Adds good)
          (alternativeTests (compileWith language (predicate language fuel)) env
            rule.alternatives) :=
        adds_alternativeTests (fun alternative among =>
          adds_compileWith composed ih alternative.pattern
            (composed.rules rule listed alternative among)) env
      have written := lenient_adds.bind tests (fun statements =>
        lenient_adds.bind (adds_addFunction _ _ _) fun _ => lenient_adds.pure fresh) _ _ _ entered
      have reserving : before.Adds good { before with
          nameCount := before.nameCount + 1
          predicates := ((language.name, stem), fresh) :: before.predicates } :=
        adds_reserve numbered rfl rfl rfl fun _ listed =>
          List.mem_cons.mp (List.perm_middle.mem_iff.mp listed)
      exact reserving.trans written

/-- Compiling a top-level matcher. -/
theorem adds_compileTop (composed : language.Composed good) {prepared : Prepared}
    (atoms : ∀ value ∈ prepared.pattern.atoms, good value) :
    Moves (Adds good) (compileTop language prepared) := by
  refine lenient_adds.bind (adds_compileWith composed (adds_predicate composed _) _ atoms) fun _ => ?_
  refine lenient_adds.bind (adds_freshFunction _ _) fun _ => ?_
  iterate 5 refine lenient_adds.withLocal fun _ => ?_
  exact lenient_adds.bind (adds_addFunction _ _ _) fun _ => lenient_adds.pure _

end Matcher

namespace Construction

open Draft Statement

variable {good : Atom → Prop}

theorem adds_fetchEach {α : Type} (hint : String) (key : α → Symbol)
    (fetch : Symbol → α → Statement) (items : List α) :
    ∀ scope, Moves (Adds good) (fetchEach hint key fetch items scope) := by
  induction items with
  | nil => exact fun _ => lenient_adds.pure _
  | cons item rest ih =>
    exact fun _ => lenient_adds.withLocal fun _ => lenient_adds.bind (ih _) fun _ =>
      lenient_adds.pure _

theorem adds_addPiece (list : Symbol) (piece : Piece) : Moves (Adds good) (addPiece list piece) := by
  cases piece with
  | term result => exact lenient_adds.pure _
  | list result => exact lenient_adds.pure _
  | spliced result => exact lenient_adds.withLocal fun _ => lenient_adds.pure _

theorem adds_contribution {coded : Coded} (adds : Moves (Adds good) coded) (list : Symbol) :
    Moves (Adds good) (contribution coded list) :=
  lenient_adds.bind adds fun _ => lenient_adds.bind (adds_addPiece list _) fun _ =>
    lenient_adds.pure _

theorem adds_listOf {contribute : Symbol → Drafting (List Statement)}
    (each : ∀ list, Moves (Adds good) (contribute list)) : Moves (Adds good) (listOf contribute) :=
  lenient_adds.withLocal fun list => lenient_adds.bind (each list) fun _ => lenient_adds.pure _

theorem adds_sequenceOf {contribute : Symbol → Drafting (List Statement)}
    (each : ∀ list, Moves (Adds good) (contribute list)) :
    Moves (Adds good) (sequenceOf contribute) :=
  lenient_adds.bind (adds_listOf each) fun _ => lenient_adds.withLocal fun _ =>
    lenient_adds.pure _

theorem adds_asTerm {coded : Coded} (adds : Moves (Adds good) coded) (template : Annotated) :
    Moves (Adds good) (asTerm template coded) := by
  unfold asTerm
  split
  · exact adds_sequenceOf (adds_contribution adds)
  · refine lenient_adds.bind adds fun built => ?_
    obtain ⟨code, piece⟩ := built
    cases piece <;> exact lenient_adds.pure _

theorem adds_driverLocals (scope : Scope) (drivers : List Symbol) :
    Moves (Adds good) (driverLocals scope drivers) := by
  intro before sources after yields
  obtain ⟨rfl, _⟩ := yields_driverLocals yields
  exact .refl _

theorem adds_repeatCode (scope : Scope) (drivers : List Symbol) {inner : Scope → Coded}
    (each : ∀ innerScope, Moves (Adds good) (inner innerScope)) :
    Moves (Adds good) (repeatCode scope drivers inner) := by
  refine lenient_adds.bind (adds_driverLocals scope drivers) fun sources => ?_
  cases sources with
  | nil => exact moves_throw _
  | cons first others =>
    iterate 3 refine lenient_adds.withLocal fun _ => ?_
    refine lenient_adds.bind ?_ fun _ => ?_
    · rw [fetchElements_eq]
      exact adds_fetchEach _ _ _ _ _
    · exact lenient_adds.bind (adds_listOf (adds_contribution (each _))) fun _ =>
        lenient_adds.pure _

end Construction

/-- The constants of an annotated template are composed of good atoms. -/
inductive Annotated.Composed (good : Atom → Prop) : Annotated → Prop
  | literal {term : Term} (here : term.Composed good) : Composed good (.literal term)
  | bound {symbol : Symbol} {depth : Nat} : Composed good (.bound symbol depth)
  | sequence {items : List Annotated} (each : ∀ item ∈ items, item.Composed good) :
      Composed good (.sequence items)
  | repeated {inner : Annotated} {drivers : List Symbol} (inside : inner.Composed good) :
      Composed good (.repeated inner drivers)
  | inHole {context contents : Annotated} (around : context.Composed good)
      (within : contents.Composed good) :
      Composed good (.inHole context contents)
  | metafunction {function : Symbol} {arguments : List Annotated}
      (each : ∀ argument ∈ arguments, argument.Composed good) :
      Composed good (.metafunction function arguments)
  | foreign {function : Symbol} {arguments : List Annotated} {mode : InsertMode}
      (each : ∀ argument ∈ arguments, argument.Composed good) :
      Composed good (.foreign function arguments mode)

namespace Template

variable {good : Atom → Prop} {depths : Depths} {metafunctions : SymbolSet}

/-- Annotation keeps the constants of a template. -/
theorem composed_annotateAt {template : Template} : ∀ {depth : Nat} {annotated : Annotated},
    template.Constants depths (Term.Composed good) →
    template.annotateAt depths metafunctions depth = .ok annotated → annotated.Composed good := by
  have all : ∀ {items : List Template} {depth : Nat} {annotated : List Annotated},
      (∀ item ∈ items, ∀ {depth : Nat} {annotated : Annotated},
        item.Constants depths (Term.Composed good) →
        item.annotateAt depths metafunctions depth = .ok annotated → annotated.Composed good) →
      ConstantsAll depths (Term.Composed good) items →
      annotateAllAt depths metafunctions depth items = .ok annotated →
      ∀ other ∈ annotated, other.Composed good := by
    intro items depth annotated each constants accepted other listed
    obtain ⟨item, among, one⟩ := Construction.exists_of_mem_annotated accepted other listed
    exact each item among (constantsAll_iff.mp constants item among) one
  induction template using Template.induction with
  | literal term =>
    intro depth annotated constants accepted
    cases accepted
    exact .literal constants
  | symbol name =>
    intro depth annotated constants accepted
    rw [annotateAt_symbol_eq, annotateSymbol] at accepted
    split at accepted
    · rename_i free
      cases accepted
      exact .literal (constants free)
    · split at accepted
      · cases accepted
      · cases accepted
        exact .bound
  | sequence items each =>
    intro depth annotated constants accepted
    rcases annotateAt_sequence accepted with
      ⟨_, inner, one, rfl⟩ | ⟨function, arguments, inner, _, rfl, _, there, one, rfl⟩
    · exact .sequence (all each constants one)
    · exact .metafunction (all (fun item listed => each item (List.mem_cons_of_mem _ listed))
        constants.2 one)
  | repeated inner ih =>
    intro depth annotated constants accepted
    obtain ⟨body, one, driven, rfl⟩ := annotateAt_repeated accepted
    exact .repeated (ih constants one)
  | inHole context contents around within =>
    intro depth annotated constants accepted
    obtain ⟨outer, inner, one, two, rfl⟩ := annotateAt_inHole accepted
    exact .inHole (around constants.1 one) (within constants.2 two)
  | foreign function arguments mode each =>
    intro depth annotated constants accepted
    obtain ⟨inner, one, rfl⟩ := annotateAt_foreign accepted
    exact .foreign (all each constants one)

end Template

namespace Construction

open Draft Statement

variable {good : Atom → Prop} {table : Table Symbol}

theorem adds_contributeAll {scope : Scope} {items : List Annotated}
    (each : ∀ item ∈ items, Moves (Adds good) (build table scope item)) (list : Symbol) :
    Moves (Adds good) (contributeAll table scope items list) := by
  induction items with
  | nil => exact lenient_adds.pure _
  | cons item rest ih =>
    obtain ⟨here, later⟩ := List.forall_mem_cons.mp each
    rw [contributeAll]
    exact lenient_adds.bind (adds_contribution here list) fun _ =>
      lenient_adds.bind (ih later) fun _ => lenient_adds.pure _

theorem adds_buildArguments {scope : Scope} {items : List Annotated}
    (each : ∀ item ∈ items, Moves (Adds good) (build table scope item)) :
    Moves (Adds good) (buildArguments table scope items) := by
  induction items with
  | nil => exact lenient_adds.pure _
  | cons item rest ih =>
    obtain ⟨here, later⟩ := List.forall_mem_cons.mp each
    rw [buildArguments]
    exact lenient_adds.bind (adds_asTerm here item) fun _ =>
      lenient_adds.bind (ih later) fun _ => lenient_adds.pure _

/-- Generating the code of an annotated template with good constants. -/
theorem adds_build {template : Annotated} (composed : template.Composed good) :
    ∀ scope, Moves (Adds good) (build table scope template) := by
  induction composed with
  | literal here =>
    intro scope
    rw [build]
    exact lenient_adds.bind (lenient_adds.constant here) fun _ => lenient_adds.pure _
  | bound =>
    intro scope
    rw [build]
    split
    · exact lenient_adds.pure _
    · exact moves_throw _
  | sequence _ each =>
    intro scope
    rw [build]
    exact lenient_adds.bind
      (adds_sequenceOf (adds_contributeAll fun item listed => each item listed scope)) fun _ =>
        lenient_adds.pure _
  | repeated _ inside =>
    intro scope
    rw [build]
    exact adds_repeatCode scope _ inside
  | inHole _ _ around within =>
    intro scope
    rw [build]
    refine lenient_adds.bind (adds_asTerm (around scope) _) fun _ => ?_
    refine lenient_adds.bind (adds_asTerm (within scope) _) fun _ => ?_
    exact lenient_adds.withLocal fun _ => lenient_adds.pure _
  | metafunction _ each =>
    intro scope
    rw [build]
    split
    · exact moves_throw _
    · refine lenient_adds.bind
        (adds_sequenceOf (adds_contributeAll fun item listed => each item listed scope)) fun _ => ?_
      exact lenient_adds.withLocal fun _ => lenient_adds.pure _
  | @foreign function arguments mode _ each =>
    intro scope
    rw [build]
    refine lenient_adds.bind (adds_buildArguments fun item listed => each item listed scope)
      fun _ => lenient_adds.withLocal fun _ => ?_
    cases mode <;> exact lenient_adds.pure _

end Construction

end Reduct
