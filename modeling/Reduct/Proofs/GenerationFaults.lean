import Reduct.Proofs.FinalDrafts
import Reduct.Proofs.PreparationFaults

/-!
# Faults while code is generated

Generating the code of prepared forms fails only where a template does not suit its variables: one
is used under too few ellipses, or an ellipsis has none to walk. The states that are not expected
cannot come up: every non-terminal of a prepared pattern has rules, every variable of an annotated
template is in scope, and every metafunction has a function.
-/

namespace Reduct

open Draft

namespace Template

mutual

/-- A template that is refused is refused without a place. -/
theorem meets_annotateAt (depths : Depths) (metafunctions : SymbolSet) : (template : Template) →
    (depth : Nat) →
    Meets Fault.Placeless (fun _ => True) (template.annotateAt depths metafunctions depth)
  | .literal _, _ => trivial
  | .symbol name, depth => by
    rw [annotateAt_symbol_eq, annotateSymbol]
    split
    · trivial
    · split
      · exact Fault.placeless_unlocated (by simp [Cause.code])
      · trivial
  | .sequence items, depth => by
    rcases items with _ | ⟨first, rest⟩
    · trivial
    · unfold annotateAt
      split
      · rename_i function other arguments applied same
        cases same
        exact (meets_annotateAllAt depths metafunctions rest depth).bind fun _ _ => trivial
      · exact (meets_annotateAllAt depths metafunctions (first :: rest) depth).bind
          fun _ _ => trivial
  | .repeated inner, depth => by
    rw [annotateAt_repeated_eq]
    refine (meets_annotateAt depths metafunctions inner (depth + 1)).bind fun annotated _ => ?_
    split
    · exact Fault.placeless_unlocated (by simp [Cause.code])
    · trivial
  | .inHole context contents, depth => by
    rw [annotateAt_inHole_eq]
    refine (meets_annotateAt depths metafunctions context depth).bind fun _ _ => ?_
    exact (meets_annotateAt depths metafunctions contents depth).bind fun _ _ => trivial
  | .foreign function arguments mode, depth => by
    rw [annotateAt_foreign_eq]
    exact (meets_annotateAllAt depths metafunctions arguments depth).bind fun _ _ => trivial

theorem meets_annotateAllAt (depths : Depths) (metafunctions : SymbolSet) :
    (items : List Template) → (depth : Nat) →
    Meets Fault.Placeless (fun _ => True) (annotateAllAt depths metafunctions depth items)
  | [], _ => trivial
  | item :: rest, depth => by
    rw [annotateAllAt_cons_eq]
    refine (meets_annotateAt depths metafunctions item depth).bind fun _ _ => ?_
    exact (meets_annotateAllAt depths metafunctions rest depth).bind fun _ _ => trivial

end

end Template

namespace Draft

/-- On a sound draft, a step fails only with faults of a kind. -/
def Explains {α : Type} (right : Fault → Prop) (languages : Language → Prop)
    (action : Drafting α) : Prop :=
  ∀ before pending, before.Sound languages pending →
    Meets right (fun _ => True) (action.run before).1

/-- A step goes on with a compilation, or fails with a fault of a kind. -/
structure Proceeds {α : Type} (right : Fault → Prop) (good : Atom → Prop)
    (languages : Language → Prop) (action : Drafting α) : Prop where
  explains : Explains right languages action
  continues : Moves (Continues good languages) action

section Steps

variable {α β : Type} {right : Fault → Prop} {languages : Language → Prop} {good : Atom → Prop}

theorem Explains.pure (value : α) : Explains right languages (Pure.pure value) :=
  fun _ _ _ => trivial

/-- A step that proceeds comes before others. -/
theorem Proceeds.andThen {first : Drafting α} {next : α → Drafting β}
    (one : Proceeds right good languages first)
    (two : ∀ value, Explains right languages (next value)) :
    Explains right languages (first >>= next) := by
  intro before pending sound
  have met := one.explains before pending sound
  rw [run_bind_eq]
  match ran : first.run before, met with
  | (.ok value, middle), _ =>
    have still := (one.continues before value middle ran).sound pending sound
    exact two value middle pending still
  | (.error fault, middle), fails => exact fails

theorem Proceeds.pure (value : α) : Proceeds right good languages (Pure.pure value) :=
  ⟨.pure value, (lenient_continues good languages).pure value⟩

theorem Proceeds.bind {first : Drafting α} {next : α → Drafting β}
    (one : Proceeds right good languages first)
    (two : ∀ value, Proceeds right good languages (next value)) :
    Proceeds right good languages (first >>= next) :=
  ⟨one.andThen fun value => (two value).explains,
    (lenient_continues good languages).bind one.continues fun value => (two value).continues⟩

theorem proceeds_freshLocal (hint : String) : Proceeds right good languages (freshLocal hint) :=
  ⟨fun _ _ _ => trivial, (lenient_continues good languages).freshLocal hint⟩

theorem proceeds_constant {term : Term} (composed : term.Composed good) :
    Proceeds right good languages (constant term) := by
  refine ⟨fun before _ _ => ?_, (lenient_continues good languages).constant composed⟩
  have steady : Steady (fun _ => True) (constant term) :=
    Stable.constant ⟨fun _ _ => trivial, fun _ _ _ => trivial⟩ term
  obtain ⟨name, after, yields, _⟩ := steady.succeeds before trivial
  rw [Yields] at yields
  rw [yields]
  trivial

theorem Proceeds.mapM {step : α → Drafting β} {items : List α}
    (each : ∀ item ∈ items, Proceeds right good languages (step item)) :
    Proceeds right good languages (items.mapM step) := by
  induction items with
  | nil => exact .pure []
  | cons item rest ih =>
    obtain ⟨here, later⟩ := List.forall_mem_cons.mp each
    rw [List.mapM_cons]
    exact here.bind fun first => (ih later).bind fun others => .pure _

theorem Explains.withLocal {hint : String} {next : Symbol → Drafting β}
    (rest : ∀ name, Explains right languages (next name)) :
    Explains right languages (freshLocal hint >>= next) :=
  have fresh : Proceeds right Atom.Legible languages (freshLocal hint) := proceeds_freshLocal hint
  fresh.andThen rest

/-- A name is drawn for a function, which is not finished in what follows. -/
theorem Explains.drawn {kind hint : String} {next : Symbol → Drafting β}
    (rest : ∀ name, Explains right languages (next name)) :
    Explains right languages (freshFunction kind hint >>= next) := by
  intro before pending sound
  obtain ⟨name, middle, drawing⟩ : ∃ name middle,
      Yields (freshFunction kind hint) before name middle := ⟨_, _, rfl⟩
  obtain ⟨numbered, rfl⟩ := yields_freshFunction drawing
  rw [Yields] at drawing
  rw [run_bind_eq, drawing]
  exact rest name _ _ (sound.draw numbered)

end Steps

end Draft

namespace Program

variable {right : Fault → Prop} {good : Atom → Prop} {languages : Language → Prop} {scope : Scope}

/-- A template is refused with a fault of a kind, if it is. -/
def Scope.Blames (scope : Scope) (right : Fault → Prop) (depths : Depths) (template : Template) :
    Prop :=
  ∀ fault, template.annotate depths (SymbolSet.ofList scope.metafunctions.keys) = .error fault →
    right fault

theorem Scope.blames_placeless (scope : Scope) (depths : Depths) (template : Template) :
    scope.Blames Fault.Placeless depths template := by
  intro fault refused
  have met :=
    Template.meets_annotateAt depths (SymbolSet.ofList scope.metafunctions.keys) template 0
  rw [← Template.annotate, refused] at met
  exact met

/-- The templates of a form, each with the depths of its variables. -/
def PreparedForm.templates : PreparedForm → List (Depths × Template)
  | .relation _ _ _ _ cases => cases.map fun case => (case.1.depths, case.2)
  | .metafunction _ _ _ _ cases => cases.map fun case => (case.1.depths, case.2)
  | .assertTerm _ _ depths template _ _ => [(depths, template)]
  | _ => []

/-! ## Parts of forms -/

/-- Every non-terminal of a pattern that suits its language has rules, so its matcher is
compiled. -/
theorem proceeds_topMatcher (ready : scope.Ready good languages) {language : Symbol}
    {prepared : Prepared} (suits : scope.Suits good language prepared) :
    Proceeds right good languages (topMatcher scope language prepared) := by
  refine ⟨fun before pending sound => ?_, continues_topMatcher ready suits⟩
  obtain ⟨found, there, fits⟩ := suits
  obtain ⟨name, after, yields, _⟩ := exists_compileTop ready.apart
    (ready.listed _ _ there) (ready.ready _ _ there).closed fits.placed fits.ruled sound
  unfold topMatcher
  rw [there]
  rw [Yields] at yields
  simp only [yields]
  trivial

/-- Every variable of an annotated template is in scope, so its construction is compiled. -/
theorem proceeds_construction {depths : Depths} {template : Template}
    (composed : template.Constants depths (Term.Composed good))
    (blames : scope.Blames right depths template) :
    Proceeds right good languages (construction scope depths template) := by
  refine ⟨fun before _ _ => ?_, continues_construction composed⟩
  unfold construction
  match accepted : template.annotate depths (SymbolSet.ofList scope.metafunctions.keys) with
  | .error fault => exact blames fault accepted
  | .ok annotated =>
    obtain ⟨name, after, yields⟩ :=
      Construction.exists_compile scope.exists_function accepted before
    rw [Yields] at yields
    simp only [yields]
    trivial

theorem proceeds_matchesAny (matcher term check : Symbol) :
    Proceeds right good languages (matchesAny matcher term check) :=
  ⟨fun _ _ _ => trivial, continues_matchesAny matcher term check⟩

theorem proceeds_raiseTerm (lead : String) (term : Symbol) :
    Proceeds right good languages (raiseTerm lead term) :=
  ⟨fun _ _ _ => trivial, continues_raiseTerm lead term⟩

theorem explains_raiseMismatch {α : Type} (write : Primitive) (expected actual : Symbol)
    {next : List Statement → Drafting α} (rest : ∀ code, Explains right languages (next code)) :
    Explains right languages (raiseMismatch write expected actual >>= next) :=
  have raises : Proceeds right Atom.Legible languages (raiseMismatch write expected actual) :=
    ⟨fun _ _ _ => trivial, continues_raiseMismatch write expected actual⟩
  raises.andThen rest

theorem proceeds_requireMatch (ready : scope.Ready good languages) {language : Symbol}
    {prepared : Prepared} (suits : scope.Suits good language prepared) (term : Symbol)
    (lead : String) :
    Proceeds right good languages (requireMatch scope language prepared term lead) := by
  refine (proceeds_freshLocal _).bind fun _ => (proceeds_topMatcher ready suits).bind fun _ => ?_
  exact (proceeds_matchesAny _ _ _).bind fun _ => (proceeds_raiseTerm _ _).bind fun _ => .pure _

theorem proceeds_relationCase (ready : scope.Ready good languages) {language : Symbol}
    {case : Prepared × Template} (suits : scope.SuitsCase good language case)
    (blames : scope.Blames right case.1.depths case.2) (term out : Symbol) :
    Proceeds right good languages (relationCase scope language term out case) := by
  refine (proceeds_topMatcher ready suits.1).bind fun _ => ?_
  refine (proceeds_construction suits.2 blames).bind fun _ => ?_
  iterate 3 refine (proceeds_freshLocal _).bind fun _ => ?_
  exact .pure _

theorem proceeds_metafunctionCase (ready : scope.Ready good languages) {language : Symbol}
    {case : Prepared × Template} (suits : scope.SuitsCase good language case)
    (blames : scope.Blames right case.1.depths case.2) (name arguments : Symbol)
    (codomain : Option Symbol) :
    Proceeds right good languages
      (metafunctionCase scope name language arguments codomain case) := by
  refine (proceeds_topMatcher ready suits.1).bind fun _ => ?_
  refine (proceeds_construction suits.2 blames).bind fun _ => ?_
  iterate 5 refine (proceeds_freshLocal _).bind fun _ => ?_
  refine (Proceeds.mapM fun codomain _ => ?_).bind fun _ => .pure _
  refine (proceeds_freshLocal _).bind fun _ => (proceeds_matchesAny _ _ _).bind fun _ => ?_
  exact (proceeds_raiseTerm _ _).bind fun _ => .pure _

theorem proceeds_expectedBindings (wanted : Symbol) {bindings : List (Symbol × Term)}
    (composed : ∀ binding ∈ bindings, binding.2.Composed good) :
    Proceeds right good languages (expectedBindings wanted bindings) := by
  refine (proceeds_freshLocal _).bind fun _ => (Proceeds.mapM fun binding listed => ?_).bind
    fun _ => .pure _
  exact (proceeds_constant (composed binding listed)).bind fun _ => .pure _

theorem proceeds_mergeBinding (ready : scope.Ready good languages) {language : Symbol}
    {binding : Prepared × Term} (suits : scope.Suits good language binding.1)
    (composed : binding.2.Composed good) (env : Symbol) :
    Proceeds right good languages (mergeBinding scope language env binding) := by
  refine (proceeds_topMatcher ready suits).bind fun _ => ?_
  refine (proceeds_constant composed).bind fun _ => ?_
  iterate 4 refine (proceeds_freshLocal _).bind fun _ => ?_
  exact (proceeds_raiseTerm _ _).bind fun _ => .pure _

/-! ## Forms -/

theorem explains_relation (ready : scope.Ready good languages) {language : Symbol}
    {domain : Option Prepared} {cases : List (Prepared × Template)}
    (guard : ∀ pattern ∈ domain, scope.Suits good language pattern)
    (each : ∀ case ∈ cases, scope.SuitsCase good language case)
    (blames : ∀ case ∈ cases, scope.Blames right case.1.depths case.2) (name function : Symbol) :
    Explains right languages (relation scope name function language domain cases) := by
  have checks : ∀ term : Symbol, Proceeds right good languages (domain.toList.mapM fun pattern =>
      requireMatch scope language pattern term (name ++ ": term not in domain: ")) := fun term =>
    .mapM fun pattern listed =>
      proceeds_requireMatch ready (guard pattern (Option.mem_toList.mp listed)) _ _
  have results : ∀ term out : Symbol, Proceeds right good languages
      (cases.mapM (relationCase scope language term out)) := fun term out =>
    .mapM fun case listed =>
      proceeds_relationCase ready (each case listed) (blames case listed) term out
  refine .withLocal fun out => (checks _).andThen fun _ => (results _ out).andThen fun _ => ?_
  exact fun _ _ _ => trivial

theorem explains_metafunction (ready : scope.Ready good languages) {language : Symbol}
    {contract : Option (Prepared × Prepared)} {cases : List (Prepared × Template)}
    (guard : ∀ patterns ∈ contract,
      scope.Suits good language patterns.1 ∧ scope.Suits good language patterns.2)
    (each : ∀ case ∈ cases, scope.SuitsCase good language case)
    (blames : ∀ case ∈ cases, scope.Blames right case.1.depths case.2) (name function : Symbol) :
    Explains right languages (metafunction scope name function language contract cases) := by
  have checks : ∀ arguments : Symbol, Proceeds right good languages
      (contract.toList.mapM fun contract => requireMatch scope language contract.1 arguments
        (name ++ ": arguments not in domain: ")) :=
    fun arguments => .mapM fun patterns listed =>
      proceeds_requireMatch ready (guard patterns (Option.mem_toList.mp listed)).1 _ _
  have codomains : Proceeds right good languages
      (contract.mapM fun contract => topMatcher scope language contract.2) := by
    cases contract with
    | none => exact .pure none
    | some patterns =>
      exact (proceeds_topMatcher ready (guard patterns rfl).2).bind fun _ => .pure _
  have attempts : ∀ (arguments : Symbol) codomain, Proceeds right good languages
      (cases.mapM (metafunctionCase scope name language arguments codomain)) :=
    fun arguments codomain => .mapM fun case listed =>
      proceeds_metafunctionCase ready (each case listed) (blames case listed) name arguments
        codomain
  have fails : ∀ arguments : Symbol, Proceeds right good languages
      (raiseTerm (name ++ ": no clauses matched for ") arguments) :=
    fun arguments => proceeds_raiseTerm _ arguments
  refine (checks _).andThen fun _ => codomains.andThen fun codomain => ?_
  refine (attempts _ codomain).andThen fun _ => (fails _).andThen fun _ => ?_
  exact fun _ _ _ => trivial

theorem explains_entry (name : Symbol) (body : List Statement) (description : String)
    (kind : EntryKind) (span : Span) :
    Explains right languages (entry name body description kind span) := fun _ _ _ => trivial

/-- A step whose result is dropped fails as it does by itself. -/
theorem explains_dropped {α β : Type} {action : Drafting α}
    (explains : Explains right languages action)
    (value : β) : Explains right languages (action >>= fun _ => pure value) := by
  intro before pending sound
  have met := explains before pending sound
  rw [run_bind_eq]
  match (action.run before).1, met with
  | .ok _, _ => exact trivial
  | .error _, fails => exact fails

/-- The code of a form fails only for its templates. -/
theorem explains_generate (ready : scope.Ready good languages) {form : PreparedForm}
    (fits : form.Ready good scope)
    (blames : ∀ used ∈ form.templates, scope.Blames right used.1 used.2) (span : Span) :
    Explains right languages (generate scope span form) := by
  cases fits with
  | language => exact .pure _
  | relation guard each =>
    exact explains_dropped
      (explains_relation ready guard each (List.forall_mem_map.mp blames) _ _) _
  | metafunction guard each =>
    exact explains_dropped
      (explains_metafunction ready guard each (List.forall_mem_map.mp blames) _ _) _
  | redexMatch suits composed =>
    refine (proceeds_topMatcher ready suits).andThen fun _ => .drawn fun _ => ?_
    refine (proceeds_constant composed).andThen fun _ => .withLocal fun _ => ?_
    dsimp only
    split
    · exact .withLocal fun _ => explains_entry _ _ _ _ _
    · exact explains_entry _ _ _ _ _
  | assertMatch suits composed wanted =>
    refine (proceeds_topMatcher ready suits).andThen fun _ => .drawn fun _ => ?_
    refine (proceeds_constant composed).andThen fun _ => ?_
    refine .withLocal fun _ => .withLocal fun list => ?_
    have expectations : Proceeds right good languages (_ : Drafting (List (List Statement))) :=
      Proceeds.mapM fun bindings listed => proceeds_expectedBindings list (wanted bindings listed)
    refine expectations.andThen fun _ => .withLocal fun _ => ?_
    exact explains_raiseMismatch _ _ _ fun _ => explains_entry _ _ _ _ _
  | assertTerm each constants wanted =>
    refine .drawn fun _ => .withLocal fun env => ?_
    have merges : Proceeds right good languages (_ : Drafting (List (List Statement))) :=
      .mapM fun binding listed =>
        proceeds_mergeBinding ready (each binding listed).1 (each binding listed).2 env
    have building : Proceeds right good languages (construction scope _ _) :=
      proceeds_construction constants (blames (_, _) (List.mem_singleton_self _))
    refine merges.andThen fun _ => building.andThen fun _ => ?_
    refine .withLocal fun _ => (proceeds_constant wanted).andThen fun _ => .withLocal fun _ => ?_
    have raises : ∀ lead built, Proceeds right good languages (raiseTerm lead built) :=
      proceeds_raiseTerm
    exact (raises _ _).andThen fun _ => explains_entry _ _ _ _ _
  | assertReduction composed wanted =>
    refine .drawn fun _ => (proceeds_constant composed).andThen fun _ => ?_
    refine .withLocal fun _ => .withLocal fun list => ?_
    have expectations : Proceeds right good languages (_ : Drafting (List Statement)) :=
      Proceeds.mapM fun term listed => (proceeds_constant (wanted term listed)).bind fun value =>
        .pure (Statement.perform .listAppend [.name list, .name value])
    refine expectations.andThen fun _ => .withLocal fun _ => ?_
    exact explains_raiseMismatch _ _ _ fun _ => explains_entry _ _ _ _ _
  | foreignSource => exact .pure _

theorem generateAll_cons (scope : Scope) (form : Form) (prepared : PreparedForm)
    (rest : List (Form × PreparedForm)) :
    generateAll scope ((form, prepared) :: rest) =
      (tryCatch (generate scope form.span prepared) fun fault =>
        throw (fault.orLabel form.span "in this form")) >>= fun first =>
          generateAll scope rest >>= fun others => pure (first :: others) := by
  unfold generateAll
  rw [List.mapM_cons]

/-- Generating the code of forms fails at one of the forms. -/
theorem meets_generateAll (ready : scope.Ready good languages) {last : Fault → Prop}
    {items : List (Form × PreparedForm)} : ∀ {before : Draft},
      (∀ item ∈ items, item.2.Ready good scope ∧
        (∀ used ∈ item.2.templates, scope.Blames right used.1 used.2) ∧
        ∀ fault, right fault → last (fault.orLabel item.1.span "in this form")) →
      before.Sound languages (items.filterMap (·.2.function?)) →
      (∀ name ∈ items.filterMap (·.2.function?), Waits name before) →
      Meets last (fun _ => True) ((generateAll scope items).run before).1 := by
  induction items with
  | nil => exact fun _ _ _ => trivial
  | cons item rest ih =>
    intro before fits sound waits
    obtain ⟨form, prepared⟩ := item
    obtain ⟨⟨here, blames, labelled⟩, later⟩ := List.forall_mem_cons.mp fits
    have met := explains_generate ready here blames form.span before _ sound
    rw [generateAll_cons, run_bind_eq, run_tryCatch_eq]
    match ran : (generate scope form.span prepared).run before, met with
    | (.error fault, middle), blamed => exact labelled fault blamed
    | (.ok addition, middle), _ =>
      obtain ⟨still, _, adds, others⟩ := sound_generate ready here ran sound waits
      have tail := ih later still fun name listed => (others name listed).adds adds
      change Meets _ _ ((generateAll scope rest >>= fun others =>
        pure (addition :: others)).run middle).1
      rw [run_bind_eq]
      match ((generateAll scope rest).run middle).1, tail with
      | .ok _, _ => exact trivial
      | .error _, points => exact points

/-- A specification that is refused is refused with a fault that points into it. -/
theorem meets_compile {total : Nat} {forms : List Form} (read : ∀ form ∈ forms, form.Read)
    (within : ∀ form ∈ forms, form.Within total) (prints : Bool) :
    Meets (Fault.Points total) (fun _ => True) (compile forms prints) := by
  have naming := ends_defineNames within .empty
  unfold compile
  match named : (defineNames forms).run .empty with
  | (.error fault, start) =>
    rw [named] at naming
    exact naming
  | (.ok names, start) =>
    have noted : (⟨.empty, .empty, .empty, .empty⟩ : Names).Noted :=
      ⟨fun _ bound => absurd rfl bound, fun _ bound => absurd rfl bound,
        fun _ bound => absurd rfl bound⟩
    have has := (collects_defineNames named noted).1.has
    have preparing := (reports_prepareForms (fun form listed => steps_points (within form listed))
      has names.languages trivial).known
    have given : Meets (Fault.Points total) (names = ·) (.ok names) := rfl
    refine given.bind ?_
    rintro _ rfl
    refine preparing.bind fun ⟨prepared, languages⟩ ⟨_, prepares⟩ => ?_
    let preparation : Preparation forms := ⟨names, start, named, prepared, languages, prepares⟩
    have composed := Form.composed_of_read read
    obtain ⟨sound, waits, fits⟩ := preparation.begins read composed
    have items : ∀ item ∈ forms.zip preparation.prepared,
        item.2.Ready Atom.Legible (preparation.scope prints) ∧
        (∀ used ∈ item.2.templates,
          (preparation.scope prints).Blames Fault.Placeless used.1 used.2) ∧
        ∀ fault : Fault, fault.Placeless →
          (fault.orLabel item.1.span "in this form").Points total :=
      fun item listed => ⟨fits item listed, fun used _ => Scope.blames_placeless _ _ _,
        fun fault placeless => placeless.orLabel (within item.1 (List.of_mem_zip listed).1).span _⟩
    have generating := meets_generateAll (preparation.ready read composed) items sound waits
    exact Meets.bind generating fun _ _ => trivial

/-- The text of a specification is refused only with a fault that points into it. -/
theorem meets_ofSource {source : String} (sized : source.utf8ByteSize ≤ mostCount)
    (prints : Bool) :
    Meets (Fault.Points source.utf8ByteSize) (fun _ => True) (ofSource source prints) := by
  unfold ofSource
  match found : Form.readAll source, Form.meets_readAll source with
  | .error fault, points => exact points
  | .ok forms, within => exact meets_compile (Form.read_readAll sized found) within prints

end Program

end Reduct
