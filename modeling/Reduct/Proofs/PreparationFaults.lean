import Reduct.Proofs.Compilations
import Reduct.Proofs.FormPlaces

/-!
# Faults before code is generated

A fault of a language, of a name that is defined, or of a pattern that is prepared points into the
source. Resolution, depths and contexts find faults without a place; the rule, case or form around
the pattern gives them one.
-/

namespace Reduct

/-- A recorded computation gives a good result or a right fault, whatever was recorded before. -/
def Ends {σ α : Type} (right : Fault → Prop) (good : α → Prop)
    (action : ExceptT Fault (StateM σ) α) : Prop :=
  ∀ before, Meets right good (action.run before).1

namespace Ends

variable {σ α β : Type} {right : Fault → Prop} {good : α → Prop} {fine : β → Prop}

theorem pure {value : α} (holds : good value) :
    Ends right good (Pure.pure value : ExceptT Fault (StateM σ) α) := fun _ => holds

theorem throw {fault : Fault} (holds : right fault) :
    Ends right good (MonadExcept.throw fault : ExceptT Fault (StateM σ) α) := fun _ => holds

theorem bind {first : ExceptT Fault (StateM σ) α} {next : α → ExceptT Fault (StateM σ) β}
    (one : Ends right good first) (two : ∀ value, good value → Ends right fine (next value)) :
    Ends right fine (first >>= next) := by
  intro before
  have met := one before
  rw [run_bind_eq]
  match (first.run before).1, met with
  | .ok value, holds => exact two value holds _
  | .error fault, holds => exact holds

end Ends

/-- A fault of the last passes: symbols at two depths, or a context that may have another number of
holes than one. -/
inductive Fault.Late : Fault → Prop
  | depth (symbol : Symbol) (first second : Nat) :
      Late (.unlocated (.depthMismatch symbol first second))
  | context (context : Pattern) (found : Option HoleRange) :
      Late (.unlocated (.contextHoles context found))

theorem Fault.Late.placeless {fault : Fault} (late : fault.Late) : fault.Placeless := by
  cases late <;> exact placeless_unlocated (by simp [Cause.code])

namespace Pattern

theorem ends_ofSymbol (names : SymbolSet) (symbol : Symbol) :
    Ends Fault.Placeless (fun _ => True) (ofSymbol names symbol) := by
  unfold ofSymbol
  split
  · exact .pure trivial
  · exact .pure trivial
  · rename_i cause refused
    refine .throw (Fault.placeless_unlocated ?_)
    unfold Symbol.resolution at refused
    dsimp only at refused
    split at refused
    · cases refused
    · split at refused
      · cases refused
        simp [Cause.code]
      · split at refused
        · cases refused
          simp [Cause.code]
        · split at refused
          · cases refused
          · split at refused
            · cases refused
              simp [Cause.code]
            · cases refused
  · exact fun _ => trivial

mutual

theorem ends_resolve (names : SymbolSet) : (pattern : Pattern) →
    Ends Fault.Placeless (fun _ => True) (pattern.resolve names)
  | .unresolved symbol => by
    rw [resolve]
    exact ends_ofSymbol names symbol
  | .sequence items => by
    rw [resolve]
    exact (ends_resolveAll names items).bind fun _ _ => .pure trivial
  | .repeated inner _ => by
    rw [resolve]
    exact (ends_resolve names inner).bind fun _ _ => .pure trivial
  | .inHole context contents _ => by
    rw [resolve]
    refine (ends_resolve names context).bind fun _ _ => ?_
    exact (ends_resolve names contents).bind fun _ _ => .pure trivial
  | .literal (.symbol _) | .literal (.integer _) | .literal (.float _) | .literal (.string _)
  | .literal (.boolean _) | .nonTerminal _ _ | .builtIn _ _ | .check _ => fun _ => trivial

theorem ends_resolveAll (names : SymbolSet) : (items : List Pattern) →
    Ends Fault.Placeless (fun _ => True) (resolveAll names items)
  | [] => fun _ => trivial
  | item :: rest => by
    rw [resolveAll]
    refine (ends_resolve names item).bind fun _ _ => ?_
    exact (ends_resolveAll names rest).bind fun _ _ => .pure trivial

end

theorem meets_noteDepth (symbol : Symbol) (depth : Nat) (depths : Depths) :
    Meets Fault.Late (fun _ => True) (noteDepth symbol depth depths) := by
  unfold noteDepth
  split
  · trivial
  · split
    · trivial
    · exact .depth symbol _ _

mutual

theorem meets_depthsFrom : (pattern : Pattern) → (depth : Nat) → (depths : Depths) →
    Meets Fault.Late (fun _ => True) (pattern.depthsFrom depth depths)
  | .sequence items, depth, depths => by
    rw [depthsFrom]
    exact meets_depthsFromAll items depth depths
  | .repeated inner _, depth, depths => by
    rw [depthsFrom]
    exact meets_depthsFrom inner (depth + 1) depths
  | .inHole context contents _, depth, depths => by
    rw [depthsFrom]
    refine (meets_depthsFrom context depth depths).bind fun inner _ => ?_
    exact meets_depthsFrom contents depth inner
  | .nonTerminal _ symbol, depth, depths => meets_noteDepth symbol depth depths
  | .builtIn kind symbol, depth, depths => by
    rw [depthsFrom]
    split
    · exact meets_noteDepth symbol depth depths
    · trivial
  | .literal _, _, _ | .check _, _, _ | .unresolved _, _, _ => trivial

theorem meets_depthsFromAll : (items : List Pattern) → (depth : Nat) → (depths : Depths) →
    Meets Fault.Late (fun _ => True) (depthsFromAll depth items depths)
  | [], _, _ => trivial
  | item :: rest, depth, depths => by
    rw [depthsFromAll]
    refine (meets_depthsFrom item depth depths).bind fun inner _ => ?_
    exact meets_depthsFromAll rest depth inner

end

theorem meets_depths (pattern : Pattern) : Meets Fault.Late (fun _ => True) pattern.depths :=
  meets_depthsFrom pattern 0 .empty

end Pattern

namespace Language

mutual

theorem meets_checkContexts (holes : HoleTable) : (pattern : Pattern) →
    Meets Fault.Late (fun _ => True) (checkContexts holes pattern)
  | .sequence items => by
    rw [checkContexts]
    exact meets_checkContextsAll holes items
  | .repeated inner _ => by
    rw [checkContexts]
    exact meets_checkContexts holes inner
  | .inHole context contents _ => by
    rw [checkContexts]
    split
    · refine (meets_checkContexts holes context).bind fun _ _ => ?_
      exact meets_checkContexts holes contents
    · exact .context context _
  | .nonTerminal _ _ | .builtIn _ _ | .literal _ | .check _ | .unresolved _ => trivial

theorem meets_checkContextsAll (holes : HoleTable) : (items : List Pattern) →
    Meets Fault.Late (fun _ => True) (checkContextsAll holes items)
  | [] => trivial
  | item :: rest => by
    rw [checkContextsAll]
    refine (meets_checkContexts holes item).bind fun _ _ => ?_
    exact meets_checkContextsAll holes rest

end

theorem meets_finish (language : Language) (pattern : Pattern) (synthetic : List Symbol) :
    Meets Fault.Late (fun _ => True) (language.finish pattern synthetic) := by
  refine (Pattern.meets_depths pattern).bind fun _ _ => ?_
  exact (meets_checkContexts _ _).bind fun _ _ => trivial

theorem meets_finishAlternatives (language : Language) (alternatives : List Pattern) :
    ∀ fresh, Meets Fault.Late (fun _ => True)
      (language.finishAlternatives alternatives fresh) := by
  induction alternatives with
  | nil => exact fun _ => trivial
  | cons alternative rest ih =>
    intro fresh
    rw [finishAlternatives]
    dsimp only
    refine (language.meets_finish _ _).bind fun _ _ => ?_
    exact (ih _).bind fun _ _ => trivial

/-- A pattern that is refused is refused without a place. -/
theorem meets_prepare (language : Language) (pattern : Pattern) :
    Meets Fault.Placeless (fun _ => True) (language.prepare pattern).1 := by
  have resolution := Pattern.ends_resolve language.names pattern language.mentioned
  unfold prepare
  match found : (pattern.resolve language.names).run language.mentioned with
  | (.error fault, mentioned) =>
    rw [found] at resolution
    exact resolution
  | (.ok resolved, mentioned) =>
    have noting := Pattern.meets_depths resolved
    match depths : resolved.depths with
    | .error fault =>
      rw [depths] at noting
      simp only [depths]
      exact Fault.Late.placeless noting
    | .ok inner =>
      simp only [depths]
      exact (meets_finish _ _ _).imp (fun _ => Fault.Late.placeless) fun _ => id

section Defining

variable {total : Nat}

theorem meets_checkNames {rules : List RuleDefinition} : ∀ {seen : List RuleDefinition},
    (∀ rule ∈ seen, rule.span.Within total) → (∀ rule ∈ rules, rule.span.Within total) →
    Meets (Fault.Points total) (fun _ => True) (checkNames seen rules) := by
  induction rules with
  | nil => exact fun _ _ => trivial
  | cons rule rest ih =>
    intro seen before each
    obtain ⟨here, later⟩ := List.forall_mem_cons.mp each
    have one : Meets (Fault.Points total) (fun _ => True) (checkName seen rule) := by
      unfold checkName
      split
      · exact Fault.points_located (by simp [Cause.code]) here _
      · split
        · rename_i earlier found
          exact Fault.points_related (by simp [Cause.code]) here
            (before earlier (List.mem_of_find?_eq_some found)) _ _
        · trivial
    rw [checkNames]
    exact one.bind fun _ _ => ih (List.forall_mem_append.mpr
      ⟨before, List.forall_mem_singleton.mpr here⟩) later

theorem meets_resolveRules (names : SymbolSet) {rules : List RuleDefinition} :
    ∀ mentioned, (∀ rule ∈ rules, rule.span.Within total) →
      Meets (Fault.Points total) (fun _ => True) (resolveRules names rules mentioned) := by
  induction rules with
  | nil => exact fun _ _ => trivial
  | cons rule rest ih =>
    intro mentioned each
    obtain ⟨here, later⟩ := List.forall_mem_cons.mp each
    rw [resolveRules]
    dsimp only
    have resolution := Pattern.ends_resolveAll names rule.alternatives mentioned
    refine (Meets.locate (resolution.imp (fun _ => .inr) fun _ => id) here _).bind fun _ _ => ?_
    exact (ih _ later).bind fun _ _ => trivial

theorem meets_finishRules (language : Language) (grammar : Grammar) {rules : List RuleDefinition} :
    ∀ fresh, (∀ rule ∈ rules, rule.span.Within total) →
      Meets (Fault.Points total) (fun _ => True) (language.finishRules grammar rules fresh) := by
  induction rules with
  | nil => exact fun _ _ => trivial
  | cons rule rest ih =>
    intro fresh each
    obtain ⟨here, later⟩ := List.forall_mem_cons.mp each
    rw [finishRules]
    dsimp only
    have finished := language.meets_finishAlternatives (grammar.alternativesOf rule.name) fresh
    refine (Meets.locate (finished.imp (fun _ late => .inr late.placeless) fun _ => id) here
      _).bind fun _ _ => ?_
    exact (ih _ later).bind fun _ _ => trivial

theorem within_ruleSpan {definition : LanguageDefinition} {span : Span}
    (around : span.Within total) (each : ∀ rule ∈ definition.rules, rule.span.Within total)
    (name : Symbol) : (ruleSpan definition span name).Within total := by
  unfold ruleSpan
  cases found : definition.rules.find? fun rule => rule.name = name with
  | none => exact around
  | some rule => exact each rule (List.mem_of_find?_eq_some found)

/-- The fault of a language that is refused points to a rule, or to the form. -/
theorem meets_define {definition : LanguageDefinition} {span : Span} (around : span.Within total)
    (each : ∀ rule ∈ definition.rules, rule.span.Within total) :
    Meets (Fault.Points total) (fun _ => True) (define definition span) := by
  refine (meets_checkNames (List.forall_mem_nil _) each).bind fun _ _ => ?_
  refine (meets_resolveRules _ _ each).bind fun _ _ => ?_
  dsimp only
  split
  · exact Fault.points_located (by simp [Cause.code]) (within_ruleSpan around each _) _
  · exact (meets_finishRules _ _ _ each).bind fun _ _ => trivial

end Defining

end Language

/-- The language that a form needs even if it uses no pattern of it. -/
def FormBody.required? (body : FormBody) : Option Symbol :=
  match body with
  | .relation definition => some definition.language
  | .metafunction definition => some definition.language
  | .assertTerm name _ _ _ => some name
  | _ => none

namespace Program

variable {total : Nat}

/-! ## Names -/

/-- The definitions that are noted stand in the source. -/
def Names.Placed (total : Nat) (names : Names) : Prop :=
  ∀ name span, names.defined.find? name = some span → span.Within total

theorem ends_noteDefinition {kind : DefinitionKind} {name : Symbol} {span : Span} {names : Names}
    (around : span.Within total) (placed : names.Placed total) :
    Ends (Fault.Points total) (Names.Placed total) (noteDefinition kind name span names) := by
  unfold noteDefinition
  split
  · rename_i previous found
    exact .throw (Fault.points_related (by simp [Cause.code]) around (placed _ _ found) _ _)
  · refine .pure fun other place found => ?_
    change (names.defined.insert name span).find? other = some place at found
    rw [Table.find?_insert] at found
    split at found
    · cases found
      exact around
    · exact placed other place found

theorem ends_freshFunction (kind hint : String) :
    Ends (Fault.Points total) (fun _ => True) (Draft.freshFunction kind hint) := fun _ => trivial

/-- Entering the name of a form fails at the form. -/
theorem ends_defineName {form : Form} {names : Names} (within : form.Within total)
    (placed : names.Placed total) :
    Ends (Fault.Points total) (Names.Placed total) (defineName names form) := by
  obtain ⟨body, span⟩ := form
  cases body with
  | language definition =>
    have accepted : Ends (Fault.Points total) (fun _ => True)
        (MonadExcept.ofExcept (Language.define definition span) : Drafting Language) := by
      intro before
      have met := Language.meets_define within.span (List.forall_mem_map.mp within.places)
      match found : Language.define definition span with
      | .ok language => trivial
      | .error fault =>
        rw [found] at met
        exact met
    refine accepted.bind fun language _ => ?_
    exact (ends_noteDefinition within.span placed).bind fun _ noted => .pure noted
  | relation definition =>
    refine (ends_freshFunction _ _).bind fun function _ => ?_
    exact (ends_noteDefinition within.span placed).bind fun _ noted => .pure noted
  | metafunction definition =>
    refine (ends_freshFunction _ _).bind fun function _ => ?_
    exact (ends_noteDefinition within.span placed).bind fun _ noted => .pure noted
  | _ => exact .pure placed

theorem ends_defineNames {forms : List Form} (within : ∀ form ∈ forms, form.Within total) :
    Ends (Fault.Points total) (Names.Placed total) (defineNames forms) := by
  have all : ∀ (some : List Form) (names : Names), (∀ form ∈ some, form.Within total) →
      names.Placed total →
      Ends (Fault.Points total) (Names.Placed total) (some.foldlM defineName names) := by
    intro some
    induction some with
    | nil => exact fun names _ placed => .pure placed
    | cons form rest ih =>
      intro names within placed
      obtain ⟨here, later⟩ := List.forall_mem_cons.mp within
      rw [List.foldlM_cons]
      exact (ends_defineName here placed).bind fun middle still => ih middle later still
  exact all forms _ within fun _ _ found => nomatch found

/-! ## Preparation -/

/-- A step of the preparation takes languages of a kind to languages of the kind and gives a good
result, or fails with a right fault. -/
def Reports {α : Type} (right : Fault → Prop) (known : Table Language → Prop) (good : α → Prop)
    (action : Preparing α) : Prop :=
  ∀ before, known before →
    Meets right (fun found => good found.1 ∧ known found.2) (action.run before)

namespace Reports

variable {α β : Type} {right : Fault → Prop} {known : Table Language → Prop} {good : α → Prop}
  {fine : β → Prop}

theorem pure {value : α} (holds : good value) : Reports right known good (Pure.pure value) :=
  fun _ there => ⟨holds, there⟩

theorem throw {fault : Fault} (holds : right fault) :
    Reports right known good (MonadExcept.throw fault : Preparing α) := fun _ _ => holds

theorem bind {first : Preparing α} {next : α → Preparing β} (one : Reports right known good first)
    (two : ∀ value, good value → Reports right known fine (next value)) :
    Reports right known fine (first >>= next) := by
  intro before there
  rw [StateT.run_bind]
  exact (one before there).bind fun found ⟨holds, still⟩ => two found.1 holds found.2 still

theorem weaken {weaker : α → Prop} {action : Preparing α}
    (reports : Reports right known good action) (values : ∀ value, good value → weaker value) :
    Reports right known weaker action :=
  fun before there => (reports before there).weaken fun _ => And.imp_left (values _)

theorem lift {found : Except Fault α} (met : Meets right good found) :
    Reports right known good (liftM found : Preparing α) := by
  intro before there
  cases found with
  | ok value => exact ⟨met, there⟩
  | error fault => exact met

theorem mapM {step : α → Preparing β} {items : List α}
    (each : ∀ item ∈ items, Reports right known (fun _ => True) (step item)) :
    Reports right known (fun _ => True) (items.mapM step) := by
  induction items with
  | nil => exact .pure trivial
  | cons item rest ih =>
    obtain ⟨here, later⟩ := List.forall_mem_cons.mp each
    rw [List.mapM_cons]
    exact here.bind fun first _ => (ih later).bind fun others _ => .pure trivial

theorem optionMapM {step : α → Preparing β} {part : Option α}
    (each : ∀ item ∈ part, Reports right known (fun _ => True) (step item)) :
    Reports right known (fun _ => True) (part.mapM step) := by
  cases part with
  | none => exact .pure trivial
  | some item => exact (each item rfl).bind fun value _ => .pure trivial

end Reports

section Steps

variable {right : Fault → Prop} {known : Table Language → Prop}

/-- A pattern is prepared if its language is known and accepts it. -/
theorem reports_prepareIn {good : Prepared → Prop} {name : Symbol} {form place : Span}
    {message : String} {pattern : Pattern}
    (unknown : ∀ languages, known languages → languages.find? name = none →
      right (.located (.unknownLanguage name) form "used here"))
    (prepares : ∀ languages language, known languages → languages.find? name = some language →
      known (languages.insert name (language.prepare pattern).2) ∧
        Meets right good (Fault.locate place message (language.prepare pattern).1)) :
    Reports right known good (prepareIn name form place message pattern) := by
  intro before there
  unfold prepareIn
  rw [StateT.run_bind, StateT.run_get, pure_bind]
  cases found : before.find? name with
  | none => exact unknown before there found
  | some language =>
    obtain ⟨still, met⟩ := prepares before language there found
    change Meets _ _ (StateT.run (liftM (Fault.locate place message _) : Preparing Prepared)
      (before.insert name _))
    have lifted : Reports right known good (liftM (Fault.locate place message
        (language.prepare pattern).1)) := .lift met
    exact lifted _ still

theorem reports_requireLanguage {name : Symbol} {form : Span}
    (unknown : ∀ languages, known languages → languages.find? name = none →
      right (.located (.unknownLanguage name) form "used here")) :
    Reports right known (fun _ => True) (requireLanguage name form) := by
  intro before there
  unfold requireLanguage
  rw [StateT.run_bind, StateT.run_get]
  change Meets _ _ (StateT.run (if before.contains name then _ else _) before)
  split
  · exact ⟨trivial, there⟩
  · rename_i absent
    exact unknown before there (by simpa [Table.contains] using absent)

/-- Bindings are prepared one after another, and their depths are joined. -/
theorem reports_prepareBindings (good : Pattern → Prepared → Prop)
    (fits : List (Pattern × Term) → Depths → Prop) {language : Symbol} {span : Span}
    (joins : ∀ pattern term rest depths prepared, fits ((pattern, term) :: rest) depths →
      good pattern prepared → Meets right (fits rest) (joinDepths span prepared depths))
    {bindings : List (Pattern × Term)} (prepares : ∀ binding ∈ bindings,
      Reports right known (good binding.1)
        (prepareIn language span span "in this form" binding.1)) :
    ∀ depths, fits bindings depths → Reports right known (fun _ => True)
      (prepareBindings language span bindings depths) := by
  induction bindings with
  | nil => exact fun depths _ => .pure trivial
  | cons binding rest ih =>
    intro depths fitting
    obtain ⟨here, later⟩ := List.forall_mem_cons.mp prepares
    obtain ⟨pattern, term⟩ := binding
    rw [prepareBindings]
    refine here.bind fun prepared fine => ?_
    refine .bind (.lift (joins _ _ _ _ _ fitting fine)) fun joined still => ?_
    exact .bind (ih later joined still) fun _ _ => .pure trivial

/-- The steps by which a form is prepared succeed, or fail with right faults. -/
structure PreparationSteps (right : Fault → Prop) (known : Table Language → Prop) (names : Names)
    (form : Form) : Prop where
  prepares : ∀ use ∈ form.uses, ∀ place ∈ form.span :: form.places, ∀ message,
    Reports right known (fun _ => True) (prepareIn use.1 form.span place message use.2)
  requires : ∀ name ∈ form.body.required?, ∀ languages, known languages →
    languages.find? name = none → right (.located (.unknownLanguage name) form.span "used here")
  bindings : ∀ language bindings template expected,
    form.body = .assertTerm language bindings template expected → Reports right known
      (fun _ => True) (prepareBindings language form.span bindings .empty)
  relation : ∀ relation term expected, form.body = .assertReduction relation term expected →
    names.relations.find? relation = none →
      right (.located (.unknownRelation relation) form.span "used here")

/-- Preparing a form whose name is defined fails in one of its steps only. -/
theorem reports_prepareForm {names : Names} {form : Form}
    (steps : PreparationSteps right known names form)
    (has : names.Has form) : Reports right known (fun _ => True) (prepareForm names form) := by
  obtain ⟨body, span⟩ := form
  have around : span ∈ span :: Form.places ⟨body, span⟩ := List.mem_cons_self
  cases body with
  | language definition => exact .pure trivial
  | relation definition =>
    obtain ⟨function, found⟩ := has
    refine .bind (reports_requireLanguage (steps.requires _ rfl)) fun _ _ => ?_
    refine .bind (.optionMapM fun pattern among => ?_) fun domain _ => ?_
    · exact steps.prepares (_, _) (List.mem_map_of_mem (List.mem_append_left _
        (Option.mem_toList.mpr among))) _ around _
    refine .bind (.mapM fun case among => ?_) fun cases' _ => ?_
    · refine .bind (steps.prepares (_, _) (List.mem_map_of_mem (List.mem_append_right _
        (List.mem_map_of_mem among))) _ (List.mem_cons_of_mem _ (List.mem_map_of_mem among)) _)
        fun _ _ => .pure trivial
    · split
      · rename_i missing
        rw [found] at missing
        cases missing
      · exact .pure trivial
  | metafunction definition =>
    obtain ⟨function, found⟩ := has
    refine .bind (reports_requireLanguage (steps.requires _ rfl)) fun _ _ => ?_
    refine .bind (.optionMapM fun contract among => ?_) fun domain _ => ?_
    · have used : ∀ pattern ∈ contract.patterns, Reports right known (fun _ => True)
          (prepareIn definition.language span span "in this form" pattern) :=
        fun pattern listed => steps.prepares (_, _) (List.mem_map_of_mem (List.mem_append_left _
          (List.mem_flatMap.mpr ⟨contract, Option.mem_toList.mpr among, listed⟩))) _ around _
      refine .bind (used _ List.mem_cons_self) fun _ _ => ?_
      exact .bind (used _ (List.mem_cons_of_mem _ List.mem_cons_self)) fun _ _ => .pure trivial
    · refine .bind (.mapM fun case among => ?_) fun cases' _ => ?_
      · refine .bind (steps.prepares (_, _) (List.mem_map_of_mem (List.mem_append_right _
          (List.mem_map_of_mem among))) _ (List.mem_cons_of_mem _ (List.mem_map_of_mem among)) _)
          fun _ _ => .pure trivial
      · split
        · rename_i missing
          rw [found] at missing
          cases missing
        · exact .pure trivial
  | redexMatch language pattern term =>
    exact .bind (steps.prepares (_, _) List.mem_cons_self _ around _) fun _ _ => .pure trivial
  | assertMatch language pattern term expected =>
    exact .bind (steps.prepares (_, _) List.mem_cons_self _ around _) fun _ _ => .pure trivial
  | assertTerm language bindings template expected =>
    refine .bind (reports_requireLanguage (steps.requires _ rfl)) fun _ _ => ?_
    exact .bind (steps.bindings _ _ _ _ rfl) fun _ _ => .pure trivial
  | assertReduction relation term expected =>
    unfold prepareForm
    dsimp only
    split
    · rename_i unknown
      exact .throw (steps.relation _ _ _ rfl unknown)
    · exact .pure trivial
  | foreignSource path => exact .pure trivial

end Steps

theorem meets_joinDepths {span : Span} (around : span.Within total) (prepared : Prepared)
    (depths : Depths) :
    Meets (Fault.Points total) (fun _ => True) (joinDepths span prepared depths) := by
  unfold joinDepths
  generalize prepared.depths.entries = entries
  induction entries generalizing depths with
  | nil => trivial
  | cons entry rest ih =>
    rw [List.foldlM_cons]
    split
    · exact ih depths
    · split
      · exact Fault.points_located (by simp [Cause.code]) around _
      · exact ih _

/-- Faults of the preparation of a form point to the form or to one of its cases. -/
theorem steps_points {names : Names} {form : Form} (within : form.Within total) :
    PreparationSteps (Fault.Points total) (fun _ => True) names form := by
  have unknown : ∀ {cause : Cause}, cause.code ≠ .internal → ∀ message,
      (Fault.located cause form.span message).Points total :=
    fun coded message => Fault.points_located coded within.span message
  have prepares : ∀ (name : Symbol) {place : Span}, place.Within total → ∀ message pattern,
      Reports (Fault.Points total) (fun _ => True) (fun _ => True)
        (prepareIn name form.span place message pattern) := by
    intro name place inside message pattern
    refine reports_prepareIn (fun _ _ _ => unknown (by simp [Cause.code]) _) ?_
    intro _ language _ _
    exact ⟨trivial, Meets.locate ((language.meets_prepare pattern).imp (fun _ => .inr)
      fun _ => id) inside _⟩
  refine ⟨fun use _ place among message => ?_, fun _ _ _ _ _ => unknown (by simp [Cause.code]) _,
    fun language bindings _ _ _ => ?_, fun _ _ _ _ _ => unknown (by simp [Cause.code]) _⟩
  · rcases List.mem_cons.mp among with rfl | inside
    · exact prepares _ within.span _ _
    · exact prepares _ (within.places place inside) _ _
  · exact reports_prepareBindings (fun _ _ => True) (fun _ _ => True)
      (fun _ _ _ _ prepared _ _ => meets_joinDepths within.span prepared _)
      (fun _ _ => prepares _ within.span _ _) _ trivial

theorem reports_prepareForms {right : Fault → Prop} {known : Table Language → Prop} {names : Names}
    {forms : List Form} (steps : ∀ form ∈ forms, PreparationSteps right known names form)
    (has : ∀ form ∈ forms, names.Has form) :
    Reports right known (fun _ => True) (forms.mapM (prepareForm names)) :=
  .mapM fun form listed => reports_prepareForm (steps form listed) (has form listed)

end Program

end Reduct
