import Reduct.Proofs.FormDrafts

/-!
# The draft of a compiled specification

When all forms have been gone through, nothing is left unfinished: every function that was named
is defined, every constant reads back, and every language is as it is in the end. So the module
loads, and the machine carries the matchers and predicates of every language.
-/

namespace Reduct

theorem exists_of_mem_rel {α β : Type} {related : α → β → Prop} {one : Option α}
    {two : Option β} (rel : Option.Rel related one two) {result : β} (listed : result ∈ two) :
    ∃ item ∈ one, related item result := by
  cases rel with
  | none => cases listed
  | some holds =>
    cases listed
    exact ⟨_, rfl, holds⟩

namespace Program

open Draft Pattern

variable {good : Atom → Prop} {languages : Language → Prop}

theorem Draws.adds (good : Atom → Prop) {before after : Draft} {names : List Symbol}
    (draws : Draws before names after) : before.Adds good after := by
  induction draws with
  | nil => exact .refl _
  | @cons draft after name names numbered rest ih =>
    have drawing : draft.Adds good { draft with nameCount := draft.nameCount + 1 } :=
      ⟨Nat.le_succ _, fun _ => .inl, fun _ => .inl, fun _ => .inl⟩
    exact drawing.trans ih

/-- Names that are drawn are not finished, and wait for their functions. -/
theorem Draws.sound {before after : Draft} {names : List Symbol} (draws : Draws before names after) :
    ∀ {pending : List Symbol}, before.Sound languages pending →
      after.Sound languages (names ++ pending) ∧ ∀ name ∈ names, Waits name after := by
  induction draws with
  | nil => exact fun sound => ⟨sound, nofun⟩
  | @cons draft after name names numbered rest ih =>
    intro pending sound
    obtain ⟨last, waiting⟩ := ih (sound.draw numbered)
    refine ⟨last.perm List.perm_middle, List.forall_mem_cons.mpr ⟨?_, waiting⟩⟩
    have waits : Waits name { draft with nameCount := draft.nameCount + 1 } :=
      ⟨sound.unreserved numbered, draft.nameCount, Nat.lt_succ_self _, numbered⟩
    exact waits.adds (rest.adds Atom.Legible)

/-- The code of forms is generated, one form after another. -/
inductive Generates (scope : Scope) :
    List (Form × PreparedForm) → Draft → List Addition → Draft → Prop
  | nil {draft : Draft} : Generates scope [] draft [] draft
  | cons {form : Form} {prepared : PreparedForm} {rest : List (Form × PreparedForm)}
      {before middle after : Draft} {addition : Addition} {additions : List Addition}
      (first : Yields (generate scope form.span prepared) before addition middle)
      (others : Generates scope rest middle additions after) :
      Generates scope ((form, prepared) :: rest) before (addition :: additions) after

/-- A step whose faults are thrown on in another form. -/
theorem run_tryCatch_eq {α : Type} (action : Drafting α) (change : Fault → Fault)
    (before : Draft) : (tryCatch action fun fault => throw (change fault)).run before =
      ((action.run before).1.mapError change, (action.run before).2) := by
  simp only [tryCatch, tryCatchThe, MonadExceptOf.tryCatch, ExceptT.tryCatch, ExceptT.run,
    ExceptT.mk, bind, StateT.bind]
  match (action : StateM Draft (Except Fault α)) before with
  | (.ok value, last) => rfl
  | (.error fault, last) => rfl

/-- A step whose faults are thrown on succeeds as it does by itself. -/
theorem yields_tryCatch {α : Type} {action : Drafting α} {change : Fault → Fault}
    {before after : Draft} {result : α}
    (yields : Yields (tryCatch action fun fault => throw (change fault)) before result after) :
    Yields action before result after := by
  unfold Yields at yields ⊢
  rw [run_tryCatch_eq] at yields
  match ran : action.run before with
  | (.ok value, last) =>
    rw [ran] at yields
    exact yields
  | (.error fault, last) =>
    rw [ran] at yields
    cases yields

theorem generates_of_yields {scope : Scope} {items : List (Form × PreparedForm)} :
    ∀ {before after : Draft} {additions : List Addition},
      Yields (generateAll scope items) before additions after →
      Generates scope items before additions after := by
  unfold generateAll
  induction items with
  | nil =>
    intro before after additions yields
    obtain ⟨rfl, rfl⟩ := yields_pure.mp yields
    exact .nil
  | cons item rest ih =>
    intro before after additions yields
    obtain ⟨form, prepared⟩ := item
    rw [List.mapM_cons] at yields
    obtain ⟨addition, middle, first, yields⟩ := yields_bind.mp yields
    obtain ⟨others, last, later, yields⟩ := yields_bind.mp yields
    obtain ⟨rfl, rfl⟩ := yields_pure.mp yields
    exact .cons (yields_tryCatch first) (ih later)

/-- The code of a form was generated in a sound draft, and stays as it is. -/
def Generated (scope : Scope) (languages : Language → Prop) (draft : Draft)
    (item : Form × PreparedForm) (addition : Addition) : Prop :=
  ∃ before after pending, before.Sound languages pending ∧
    Yields (generate scope item.1.span item.2) before addition after ∧ after.Grows draft

/-- The code of one form is generated: its function is finished, and those of the forms after it
still wait. -/
theorem sound_generate {scope : Scope} (ready : scope.Ready good languages) {form : Form}
    {prepared : PreparedForm} (fits : prepared.Ready good scope)
    {rest : List (Form × PreparedForm)} {before middle : Draft} {addition : Addition}
    (first : Yields (generate scope form.span prepared) before addition middle)
    (sound : before.Sound languages (((form, prepared) :: rest).filterMap (·.2.function?)))
    (waits : ∀ name ∈ ((form, prepared) :: rest).filterMap (·.2.function?), Waits name before) :
    middle.Sound languages (rest.filterMap (·.2.function?)) ∧
      before.Grows middle ∧ before.Adds good middle ∧
      ∀ name ∈ rest.filterMap (·.2.function?), Waits name before := by
  cases named : prepared.function? with
  | none =>
    simp only [List.filterMap_cons, named] at sound waits
    have continues := continues_generate ready fits named form.span _ _ _ first
    exact ⟨continues.sound _ sound, continues.grows, continues.adds, waits⟩
  | some function =>
    simp only [List.filterMap_cons, named] at sound waits
    obtain ⟨own, others⟩ := List.forall_mem_cons.mp waits
    have closes := closes_generate ready fits named form.span
    obtain ⟨grows, adds⟩ := closes.grows first
    exact ⟨closes.sound first sound own, grows, adds, others⟩

/-- When the code of all forms is generated, nothing is left unfinished. -/
theorem Generates.sound {scope : Scope} {items : List (Form × PreparedForm)} {before after : Draft}
    {additions : List Addition} (generates : Generates scope items before additions after)
    (ready : scope.Ready good languages) : (∀ item ∈ items, item.2.Ready good scope) →
    before.Sound languages (items.filterMap (·.2.function?)) →
    (∀ name ∈ items.filterMap (·.2.function?), Waits name before) →
    after.Sound languages [] ∧ before.Grows after ∧ before.Adds good after ∧
      List.Forall₂ (Generated scope languages after) items additions := by
  induction generates with
  | nil => exact fun _ sound _ => ⟨sound, .refl _, .refl _, .nil⟩
  | @cons form prepared rest before middle after addition additions first _ ih =>
    intro fits sound waits
    obtain ⟨here, later⟩ := List.forall_mem_cons.mp fits
    obtain ⟨still, grows, adds, others⟩ := sound_generate ready here first sound waits
    obtain ⟨last, growing, adding, each⟩ :=
      ih later still fun name listed => (others name listed).adds adds
    exact ⟨last, grows.trans growing, adds.trans adding,
      .cons ⟨before, middle, _, sound, first, growing⟩ each⟩

/-- Each language has gained the literal variables of the patterns that were prepared for it, and
has kept its rules. -/
theorem Advances.gains {before after : Table Language} {uses : List (Symbol × Pattern)}
    (advances : Advances before uses after) {name : Symbol} {language : Language}
    (found : after.find? name = some language) :
    ∃ start, before.find? name = some start ∧ language.names = start.names ∧
      language.rules = start.rules ∧
      Gains start.mentioned
        ((uses.filter (·.1 = name)).flatMap (·.2.literals start.names)) language.mentioned := by
  induction advances with
  | refl => exact ⟨language, found, rfl, rfl, .nil _⟩
  | @prepare languages after other state pattern prepared uses there accepted _ ih =>
    obtain ⟨start, begun, names, rules, gains⟩ := ih found
    obtain ⟨grown, kept, same, _⟩ := Language.gains_prepare accepted
    rw [Table.find?_insert] at begun
    split at begun
    · rename_i here
      subst here
      cases begun
      refine ⟨state, there, names.trans kept, rules.trans same, ?_⟩
      rw [List.filter_cons_of_pos (by simp), List.flatMap_cons, ← kept]
      rw [← kept] at grown
      exact grown.append gains
    · rename_i differ
      refine ⟨start, begun, names, rules, ?_⟩
      rwa [List.filter_cons_of_neg (by simpa using differ)]

end Program

/-- The literal variables of a language of a specification: those of its productions, and those of
the patterns that the forms use with it. -/
def LanguageDefinition.literals (definition : LanguageDefinition) (forms : List Form) :
    List Symbol :=
  Pattern.literalsAll definition.names (definition.rules.flatMap (·.alternatives)) ++
    ((forms.flatMap Form.uses).filter (·.1 = definition.name)).flatMap
      (·.2.literals definition.names)

/-- A prepared pattern compares with atoms of the pattern that was written. -/
theorem Language.Prepares.atoms {definition : LanguageDefinition} {span : Span}
    {pattern resolved : Pattern} {prepared : Prepared} {language : Language}
    (prepares : Prepares definition span pattern resolved prepared language) :
    ∀ value ∈ prepared.pattern.atoms, value ∈ pattern.atoms := by
  induction prepares with
  | prepare _ _ accepted => exact (gains_prepare accepted).2.2.2
  | later _ _ ih => exact ih

/-- The definition of a form that is read is written, and no literal of it is the variable named
`hole`. -/
theorem Form.Read.definition {definition : LanguageDefinition} {span : Span}
    (read : Form.Read ⟨.language definition, span⟩) :
    definition.isWritten = true ∧ definition.spellsHole = false := by
  have each : ∀ rule ∈ definition.rules, ∀ alternative ∈ rule.alternatives, alternative.Read :=
    fun rule listed alternative among =>
      read.productions alternative (List.mem_flatMap.mpr ⟨rule, listed, among⟩)
  constructor
  · refine List.all_eq_true.mpr fun rule listed => List.all_eq_true.mpr fun alternative among => ?_
    exact (each rule listed alternative among).written
  · refine List.any_eq_false.mpr fun rule listed => ?_
    have plain : Pattern.spellsHoleAny rule.alternatives = false := by
      have inner := each rule listed
      revert inner
      generalize rule.alternatives = alternatives
      induction alternatives with
      | nil => exact fun _ => rfl
      | cons first rest ih =>
        intro each
        obtain ⟨here, later⟩ := List.forall_mem_cons.mp each
        rw [Pattern.spellsHoleAny, here.plain, ih later, Bool.or_self]
    rw [plain]
    decide

namespace Template

mutual

theorem Constants.imp {depths : Depths} {good fine : Term → Prop}
    (weaker : ∀ term, good term → fine term) : {template : Template} →
    template.Constants depths good → template.Constants depths fine
  | .literal _, constants => weaker _ constants
  | .symbol _, constants => fun free => weaker _ (constants free)
  | .sequence _, constants => ConstantsAll.imp weaker constants
  | .repeated inner, constants =>
    have inside : inner.Constants depths good := constants
    inside.imp weaker
  | .inHole context contents, constants =>
    have outside : context.Constants depths good := constants.1
    have inside : contents.Constants depths good := constants.2
    ⟨outside.imp weaker, inside.imp weaker⟩
  | .foreign _ _ _, constants => ConstantsAll.imp weaker constants

theorem ConstantsAll.imp {depths : Depths} {good fine : Term → Prop}
    (weaker : ∀ term, good term → fine term) : {items : List Template} →
    Template.ConstantsAll depths good items → Template.ConstantsAll depths fine items
  | [], _ => trivial
  | item :: _, constants =>
    have first : item.Constants depths good := constants.1
    ⟨first.imp weaker, ConstantsAll.imp weaker constants.2⟩

end

theorem Read.imp {template : Template} (read : template.Read) {fine : Term → Prop}
    (weaker : ∀ term, term.Plain → fine term) : template.Constants .empty fine :=
  Constants.imp weaker read

theorem Read.legible {template : Template} (read : template.Read) :
    template.Constants .empty Term.Legible :=
  read.imp fun _ plain => plain.legible

end Template

namespace Form

/-- The atoms of a form that is read are legible. -/
theorem Read.composed {form : Form} (read : form.Read) : form.Composed Atom.Legible where
  productions pattern listed := (read.productions pattern listed).legible
  uses use listed := (read.uses use listed).legible
  templates template listed := (read.templates template listed).legible
  terms term listed := (read.terms term listed).legible

theorem composed_of_read {forms : List Form} (read : ∀ form ∈ forms, form.Read) :
    ∀ form ∈ forms, form.Composed Atom.Legible :=
  fun form listed => (read form listed).composed

end Form

/-- Every language starts as its form defines it. -/
theorem Program.Names.Collects.defined {forms : List Form} {names : Names}
    (collects : (⟨.empty, .empty, .empty, .empty⟩ : Names).Collects names forms) {name : Symbol}
    {language : Language} (found : names.languages.find? name = some language) :
    ∃ definition span, ⟨.language definition, span⟩ ∈ forms ∧ definition.name = name ∧
      Language.define definition span = .ok language :=
  (collects.language name language found).resolve_left nofun

theorem Program.Names.Collects.staged {forms : List Form} {names : Names}
    (collects : (⟨.empty, .empty, .empty, .empty⟩ : Names).Collects names forms) :
    Staged forms names.languages := by
  intro name language found
  obtain ⟨definition, span, listed, called, accepted⟩ := collects.defined found
  exact ⟨(Language.gains_define accepted).1.trans called, definition, span, listed, called,
    .define accepted⟩

namespace Program.Preparation

open Draft Pattern

variable {forms : List Form} {prints : Bool} (preparation : Preparation forms)

/-- The languages of a specification, with all of its patterns prepared. -/
def HasLanguage (language : Language) : Prop :=
  ∃ name, preparation.languages.find? name = some language

theorem collects :
    (⟨.empty, .empty, .empty, .empty⟩ : Names).Collects preparation.names forms ∧
      Draws .empty (forms.filterMap preparation.names.function?) preparation.start :=
  collects_defineNames preparation.named
    ⟨fun _ bound => absurd rfl bound, fun _ bound => absurd rfl bound,
      fun _ bound => absurd rfl bound⟩

theorem staged_names : Staged forms preparation.names.languages := preparation.collects.1.staged

/-- The patterns of the forms are prepared one after another, and are right in the end. -/
theorem advances : Advances preparation.names.languages (forms.flatMap Form.uses)
      preparation.languages ∧
    List.Forall₂ (fun form => Follows preparation.names (Made forms preparation.languages) form.body)
      forms preparation.prepared := by
  obtain ⟨advances, right⟩ := prepares_prepareForms preparation.names forms _ _ _
    preparation.prepares preparation.staged_names
  exact ⟨advances, right _ _ .refl⟩

theorem staged : Staged forms preparation.languages :=
  preparation.advances.1.staged preparation.staged_names

theorem apart : Apart preparation.HasLanguage := by
  rintro first second ⟨one, found⟩ ⟨two, there⟩ same
  have left := (preparation.staged one first found).1
  have right := (preparation.staged two second there).1
  rw [← left, same, right, there] at found
  cases found
  rfl

/-- A language that a form defines is there in the end. -/
theorem exists_language {definition : LanguageDefinition} {span : Span}
    (listed : ⟨.language definition, span⟩ ∈ forms) :
    ∃ language, preparation.languages.find? definition.name = some language := by
  obtain ⟨start, _, begun⟩ := preparation.collects.1.has _ listed
  exact preparation.advances.1.exists_find? ⟨start, begun⟩

/-- The literal variables of a language in the end, wherever its form and the uses stand. -/
theorem mentioned_eq {definition : LanguageDefinition} {span : Span}
    (listed : ⟨.language definition, span⟩ ∈ forms) {language : Language}
    (found : preparation.languages.find? definition.name = some language) :
    language.mentioned = .ofList (definition.literals forms) := by
  obtain ⟨start, begun, _, _, gains⟩ := preparation.advances.1.gains found
  obtain ⟨other, accepted, there⟩ := preparation.collects.1.has _ listed
  obtain rfl : other = start := Option.some.inj (there.symm.trans begun)
  obtain ⟨_, introduced, collected, _⟩ := Language.gains_define accepted
  rw [introduced] at gains
  exact (collected.append gains).symm

theorem literals {definition : LanguageDefinition} {span : Span}
    (listed : ⟨.language definition, span⟩ ∈ forms) {language : Language}
    (found : preparation.languages.find? definition.name = some language) :
    (∀ word, language.mentioned.contains word = true ↔ word ∈ definition.literals forms) ∧
      ∀ rule ∈ language.rules, ∀ alternative ∈ rule.alternatives,
        ∀ value ∈ alternative.pattern.atoms,
          value ∈ atomsAll (definition.rules.flatMap (·.alternatives)) := by
  obtain ⟨start, begun, _, rules, _⟩ := preparation.advances.1.gains found
  obtain ⟨other, accepted, there⟩ := preparation.collects.1.has _ listed
  obtain rfl : other = start := Option.some.inj (there.symm.trans begun)
  obtain ⟨_, _, _, atoms⟩ := Language.gains_define accepted
  rw [preparation.mentioned_eq listed found, rules]
  exact ⟨SymbolSet.contains_ofList _, atoms⟩

section Reading

variable {good : Atom → Prop} (read : ∀ form ∈ forms, form.Read)
  (composed : ∀ form ∈ forms, form.Composed good)
include read composed

/-- The languages of a specification can be compiled for. -/
theorem ready_language {name : Symbol} {language : Language}
    (found : preparation.languages.find? name = some language) : language.Ready good := by
  obtain ⟨_, definition, span, listed, rfl, stage⟩ := preparation.staged name language found
  have legal := read _ listed
  obtain ⟨written, plain⟩ := legal.definition
  obtain ⟨grammar, defined⟩ := stage.defined written
  obtain ⟨literals, atoms⟩ := preparation.literals listed found
  have atomic := composed _ listed
  refine ⟨defined.closed, stage.plain plain, ?_, ?_⟩
  · intro word among
    have known : language.mentioned.contains word = true := decide_eq_true among
    rcases List.mem_append.mp ((literals word).mp known) with inside | used
    · obtain ⟨production, produced, within⟩ := mem_literalsAll.mp inside
      exact atomic.productions production produced _ (atoms_of_literals production within)
    · obtain ⟨use, chosen, within⟩ := List.mem_flatMap.mp used
      obtain ⟨form, written, uses⟩ := List.mem_flatMap.mp (List.mem_filter.mp chosen).1
      exact (composed form written).uses use uses _ (atoms_of_literals use.2 within)
  · intro rule ruled alternative among value inside
    obtain ⟨production, produced, within⟩ := mem_atomsAll.mp (atoms rule ruled alternative among
      value inside)
    exact atomic.productions production produced value within

theorem ready : (preparation.scope prints).Ready good preparation.HasLanguage where
  apart := preparation.apart
  listed name _ found := ⟨name, found⟩
  ready _ _ found := preparation.ready_language read composed found

omit composed in
/-- A pattern that was prepared for a language suits it. -/
theorem suits {name : Symbol} {pattern : Pattern} {prepared : Prepared}
    (made : Made forms preparation.languages name pattern prepared) (legal : pattern.Read)
    (atoms : ∀ value ∈ pattern.atoms, good value) :
    (preparation.scope prints).Suits good name prepared := by
  obtain ⟨language, definition, span, resolved, found, listed, _, prepares⟩ := made
  obtain ⟨grammar, defined⟩ := prepares.stage.defined (read _ listed).definition.1
  obtain ⟨_, _, placed, plain, ruled⟩ := prepares.compilable defined legal.written legal.plain
  exact ⟨language, found, placed, plain, ruled,
    fun value inside => atoms value (prepares.atoms value inside)⟩

omit composed in
/-- A case that was prepared suits its language. -/
theorem suitsCase {name : Symbol} {pattern : Pattern} {template : Template}
    {case : Prepared × Template} (made : Made forms preparation.languages name pattern case.1)
    (same : case.2 = template) (legal : pattern.Read) (atoms : ∀ value ∈ pattern.atoms, good value)
    (constants : template.Constants .empty (Term.Composed good)) :
    (preparation.scope prints).SuitsCase good name case := by
  refine ⟨preparation.suits read made legal atoms, ?_⟩
  rw [same]
  exact Template.constants_of_empty template constants

/-- The code of every form can be generated. -/
theorem ready_form {form : Form} (listed : form ∈ forms) {prepared : PreparedForm}
    (follows : Follows preparation.names (Made forms preparation.languages) form.body prepared) :
    prepared.Ready good (preparation.scope prints) := by
  have legal := read form listed
  have atomic := composed form listed
  obtain ⟨body, span⟩ := form
  cases follows with
  | language => exact .language
  | @relation definition function domain cases named guard each =>
    have use : ∀ pattern ∈ definition.domain.toList ++ definition.cases.map (·.pattern),
        (definition.language, pattern) ∈ Form.uses ⟨.relation definition, span⟩ :=
      fun pattern among => List.mem_map_of_mem among
    refine .relation (fun prepared there => ?_) fun case there => ?_
    · obtain ⟨pattern, written, made⟩ := exists_of_mem_rel guard there
      have used := use pattern (List.mem_append_left _ (Option.mem_toList.mpr written))
      exact preparation.suits read made (legal.uses _ used) (atomic.uses _ used)
    · obtain ⟨written, among, made, same⟩ := exists_of_mem_right each there
      have used := use _ (List.mem_append_right _ (List.mem_map_of_mem among))
      exact preparation.suitsCase read made same (legal.uses _ used)
        (atomic.uses _ used) (atomic.templates _ (List.mem_map_of_mem among))
  | @metafunction definition function contract cases named guard each =>
    have use : ∀ pattern ∈ definition.contract.toList.flatMap Contract.patterns ++
        definition.cases.map (Pattern.sequence ·.arguments),
        (definition.language, pattern) ∈ Form.uses ⟨.metafunction definition, span⟩ :=
      fun pattern among => List.mem_map_of_mem among
    refine .metafunction (fun prepared there => ?_) fun case there => ?_
    · obtain ⟨written, among, left, right⟩ := exists_of_mem_rel guard there
      have inside : ∀ pattern ∈ written.patterns,
          (definition.language, pattern) ∈ Form.uses ⟨.metafunction definition, span⟩ :=
        fun pattern listed => use pattern (List.mem_append_left _ (List.mem_flatMap.mpr
          ⟨written, Option.mem_toList.mpr among, listed⟩))
      have one := inside _ List.mem_cons_self
      have two := inside _ (List.mem_cons_of_mem _ List.mem_cons_self)
      exact ⟨preparation.suits read left (legal.uses _ one) (atomic.uses _ one),
        preparation.suits read right (legal.uses _ two) (atomic.uses _ two)⟩
    · obtain ⟨written, among, made, same⟩ := exists_of_mem_right each there
      have used := use _ (List.mem_append_right _ (List.mem_map_of_mem among))
      exact preparation.suitsCase read made same (legal.uses _ used)
        (atomic.uses _ used) (atomic.templates _ (List.mem_map_of_mem among))
  | redexMatch matched =>
    exact .redexMatch (preparation.suits read matched (legal.uses _ List.mem_cons_self)
      (atomic.uses _ List.mem_cons_self)) (atomic.terms _ List.mem_cons_self)
  | assertMatch matched =>
    refine .assertMatch (preparation.suits read matched (legal.uses _ List.mem_cons_self)
      (atomic.uses _ List.mem_cons_self)) (atomic.terms _ List.mem_cons_self)
      fun bindings among binding inside => ?_
    exact atomic.terms _ (List.mem_cons_of_mem _ (List.mem_flatMap.mpr
      ⟨bindings, among, List.mem_map_of_mem inside⟩))
  | assertTerm each joined =>
    refine .assertTerm (fun binding among => ?_) ?_
      (atomic.terms _ (List.mem_append_right _ (List.mem_singleton.mpr rfl)))
    · obtain ⟨written, there, made, same⟩ := exists_of_mem_right each among
      refine ⟨preparation.suits read made (legal.uses _ (List.mem_map_of_mem there))
        (atomic.uses _ (List.mem_map_of_mem there)), ?_⟩
      rw [same]
      exact atomic.terms _ (List.mem_append_left _ (List.mem_map_of_mem there))
    · exact Template.constants_of_empty _ (atomic.templates _ (List.mem_singleton.mpr rfl))
  | assertReduction named =>
    exact .assertReduction (atomic.terms _ List.mem_cons_self) fun term among =>
      atomic.terms _ (List.mem_cons_of_mem _ among)
  | foreignSource => exact .foreignSource

omit read composed in
/-- The functions that forms define are those that were named for them. -/
theorem functions_prepared {names : Names} {made : Symbol → Pattern → Prepared → Prop}
    {some : List Form} {prepared : List PreparedForm}
    (follows : List.Forall₂ (fun form => Follows names made form.body) some prepared) :
    (some.zip prepared).filterMap (·.2.function?) = some.filterMap names.function? := by
  induction follows with
  | nil => rfl
  | @cons form item rest items first _ ih =>
    have same : item.function? = names.function? form := by
      obtain ⟨body, span⟩ := form
      cases first with
      | relation named _ _ => exact named.symm
      | metafunction named _ _ => exact named.symm
      | _ => rfl
    rw [List.zip_cons_cons, List.filterMap_cons, List.filterMap_cons, ih, same]

omit composed in
theorem ready_legible : (preparation.scope prints).Ready Atom.Legible preparation.HasLanguage :=
  preparation.ready read (Form.composed_of_read read)

/-- The functions of the forms were drawn first, and the code of every form can be generated. -/
theorem begins :
    preparation.start.Sound preparation.HasLanguage
        ((forms.zip preparation.prepared).filterMap (·.2.function?)) ∧
      (∀ name ∈ (forms.zip preparation.prepared).filterMap (·.2.function?),
        Waits name preparation.start) ∧
      ∀ item ∈ forms.zip preparation.prepared, item.2.Ready good (preparation.scope prints) := by
  obtain ⟨_, draws⟩ := preparation.collects
  obtain ⟨_, follows⟩ := preparation.advances
  obtain ⟨sound, waits⟩ := draws.sound (sound_empty preparation.HasLanguage)
  rw [List.append_nil] at sound
  rw [functions_prepared follows]
  refine ⟨sound, waits, fun item listed => ?_⟩
  exact preparation.ready_form read composed (List.of_mem_zip listed).1
    (List.forall₂_iff_zip.mp follows |>.2 listed)

end Reading

end Program.Preparation

namespace Program.Compilation

open Draft Pattern

variable {forms : List Form} {prints : Bool} (compilation : Compilation forms prints)

/-- The languages of a compilation, as they are in the end. -/
def HasLanguage (language : Language) : Prop :=
  ∃ name, compilation.languages.find? name = some language

theorem collects :
    (⟨.empty, .empty, .empty, .empty⟩ : Names).Collects compilation.names forms ∧
      Draws .empty (forms.filterMap compilation.names.function?) compilation.start :=
  compilation.preparation.collects

/-- The patterns of the forms are prepared one after another, and are right in the end. -/
theorem advances : Advances compilation.names.languages (forms.flatMap Form.uses)
      compilation.languages ∧
    List.Forall₂ (fun form => Follows compilation.names (Made forms compilation.languages) form.body)
      forms compilation.prepared :=
  compilation.preparation.advances

theorem staged : Staged forms compilation.languages := compilation.preparation.staged

/-- A language that a form defines is there in the end. -/
theorem exists_language {definition : LanguageDefinition} {span : Span}
    (listed : ⟨.language definition, span⟩ ∈ forms) :
    ∃ language, compilation.languages.find? definition.name = some language :=
  compilation.preparation.exists_language listed

/-- The literal variables of a language in the end, wherever its form and the uses stand. -/
theorem literals {definition : LanguageDefinition} {span : Span}
    (listed : ⟨.language definition, span⟩ ∈ forms) {language : Language}
    (found : compilation.languages.find? definition.name = some language) :
    (∀ word, language.mentioned.contains word = true ↔ word ∈ definition.literals forms) ∧
      ∀ rule ∈ language.rules, ∀ alternative ∈ rule.alternatives,
        ∀ value ∈ alternative.pattern.atoms,
          value ∈ atomsAll (definition.rules.flatMap (·.alternatives)) :=
  compilation.preparation.literals listed found

section Reading

variable {good : Atom → Prop} (read : ∀ form ∈ forms, form.Read)
  (composed : ∀ form ∈ forms, form.Composed good)
include read

/-- A pattern that was prepared for a language suits it. -/
theorem suits {name : Symbol} {pattern : Pattern} {prepared : Prepared}
    (made : Made forms compilation.languages name pattern prepared) (legal : pattern.Read)
    (atoms : ∀ value ∈ pattern.atoms, good value) :
    compilation.scope.Suits good name prepared :=
  compilation.preparation.suits read made legal atoms

/-- A case that was prepared suits its language. -/
theorem suitsCase {name : Symbol} {pattern : Pattern} {template : Template}
    {case : Prepared × Template} (made : Made forms compilation.languages name pattern case.1)
    (same : case.2 = template) (legal : pattern.Read) (atoms : ∀ value ∈ pattern.atoms, good value)
    (constants : template.Constants .empty (Term.Composed good)) :
    compilation.scope.SuitsCase good name case :=
  compilation.preparation.suitsCase read made same legal atoms constants

theorem ready_legible : compilation.scope.Ready Atom.Legible compilation.HasLanguage :=
  compilation.preparation.ready_legible read

include composed in
/-- In the end every function is defined once, every constant is composed of good atoms, and nothing
is left unfinished. -/
theorem final : compilation.draft.Sound compilation.HasLanguage [] ∧ compilation.draft.Defines ∧
    (∀ term ∈ compilation.draft.constants, term.Composed good) ∧
    List.Forall₂ (Generated compilation.scope compilation.HasLanguage compilation.draft)
      (forms.zip compilation.prepared) compilation.additions := by
  obtain ⟨sound, waits, fits⟩ := compilation.preparation.begins read composed
  obtain ⟨_, draws⟩ := compilation.collects
  have generates := generates_of_yields compilation.generates
  obtain ⟨last, _, adds, each⟩ :=
    generates.sound (compilation.preparation.ready read composed) fits sound waits
  have all := (draws.adds good).trans adds
  refine ⟨last, ⟨fun statement listed => ?_, last.named⟩, fun term listed => ?_, each⟩
  · exact (all.functions statement listed).resolve_left nofun
  · exact (all.constants term listed).resolve_left nofun

/-- What is compiled for a language is as it should be, on every machine that carries the draft. -/
theorem compiled {name : Symbol} {language : Language}
    (found : compilation.languages.find? name = some language) {machine : Machine}
    (carries : machine.Carries compilation.draft) :
    Compiled machine language compilation.draft :=
  have ready := (compilation.ready_legible read).ready name language found
  (compilation.final read (Form.composed_of_read read)).1.compiled ⟨name, found⟩ ready.closed
    ready.plain carries

end Reading

end Program.Compilation

end Reduct
