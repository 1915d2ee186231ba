import Reduct.Proofs.HoleExactness
import Reduct.Proofs.Occurrences

/-!
# Which contexts are accepted

The hole ranges of an accepted language are exact if and only if each of its contexts describes
some term. Where they are, a pattern is refused for its contexts exactly when one of these
describes no term, or a term with another number of holes than one.
-/

namespace Reduct

mutual

/-- Whether every term of the pattern has a part that one of the names derives. -/
def Pattern.requires (names : List Symbol) : Pattern → Bool
  | .nonTerminal stem _ => decide (stem ∈ names)
  | .sequence items => Pattern.requiresAny names items
  | .inHole context contents _ => context.requires names || contents.requires names
  | _ => false

/-- Whether one of the items requires a part that one of the names derives. -/
def Pattern.requiresAny (names : List Symbol) : List Pattern → Bool
  | [] => false
  | item :: rest => item.requires names || Pattern.requiresAny names rest

end

/-- Every alternative of the names requires one of them. -/
def Reading.Vain (reading : Reading) (names : List Symbol) : Prop :=
  ∀ name ∈ names, ∀ alternative ∈ reading.alternatives name, alternative.requires names = true

mutual

/-- Names whose alternatives all require one of them derive nothing. -/
theorem Derives.not_vain {reading : Reading} {names : List Symbol} (vain : reading.Vain names)
    {name : Symbol} {term : Term} : Derives reading name term → name ∉ names
  | .rule listed fits => fun inside => Fits.not_requires vain fits (vain _ inside _ listed)

theorem Fits.not_requires {reading : Reading} {names : List Symbol} (vain : reading.Vain names)
    {pattern : Pattern} {term : Term} :
    Fits reading pattern term → ¬ pattern.requires names = true
  | .literal => nofun
  | .builtIn _ => nofun
  | .nonTerminal derived => by
    rw [Pattern.requires, decide_eq_true_eq]
    exact Derives.not_vain vain derived
  | .sequence all => by
    rw [Pattern.requires]
    exact FitsAll.not_requires vain all
  | .inHole around within _ => by
    rw [Pattern.requires, Bool.or_eq_true, not_or]
    exact ⟨Fits.not_requires vain around, Fits.not_requires vain within⟩

theorem FitsAll.not_requires {reading : Reading} {names : List Symbol} (vain : reading.Vain names)
    {items : List Pattern} {terms : List Term} :
    FitsAll reading items terms → ¬ Pattern.requiresAny names items = true
  | .nil => nofun
  | .check others => by
    rw [Pattern.requiresAny, Bool.or_eq_true, not_or]
    exact ⟨nofun, FitsAll.not_requires vain others⟩
  | .item _ fits others => by
    rw [Pattern.requiresAny, Bool.or_eq_true, not_or]
    exact ⟨Fits.not_requires vain fits, FitsAll.not_requires vain others⟩
  | .repeated _ others => by
    rw [Pattern.requiresAny, Bool.or_eq_true, not_or]
    exact ⟨nofun, FitsAll.not_requires vain others⟩

end

namespace Language

/-- Preparing a pattern that resolves and has depths comes down to the last passes over the
pattern with checks. -/
theorem prepare_fst {language : Language} {pattern resolved : Pattern} {mentioned : SymbolSet}
    {depths : Depths}
    (found : (pattern.resolve language.names).run language.mentioned = (.ok resolved, mentioned))
    (passed : resolved.depths = .ok depths) :
    (language.prepare pattern).1 =
      (language.prepare pattern).2.finish (resolved.insertChecks language.fresh).1.pattern
        ((resolved.insertChecks language.fresh).1.synthetic.map (·.1)) := by
  unfold prepare
  rw [found]
  simp only [passed]

variable {language : Language} {grammar : Grammar}

/-- The range of a pattern with accepted contexts is exact, if all contexts of the rules describe
some term. -/
theorem Defined.exact_holes (defined : language.Defined grammar)
    (inhabited : language.ContextsInhabited) {pattern : Pattern} (placed : pattern.isPlaced = true)
    (single : Single language.holes pattern.contexts) :
    HoleRange.Exact (pattern.holes language.holes) (Fits language.reading pattern) := by
  have exact := (Grammar.exact_iff_inhabited defined.checked defined.placed).mpr
    (defined.contextsInhabited_iff.mp inhabited)
  have tight : HoleTable.Tight (grammar.reading language.mentioned) grammar.holeTable := by
    intro name range found
    by_cases known : name ∈ grammar.order
    · have bounds := exact name known
      rw [found] at bounds
      exact bounds.2
    · rw [Grammar.range_holeTable_of_not_mem known] at found
      cases found
  rw [defined.table] at single ⊢
  have reads : Fits language.reading pattern =
      Fits (grammar.reading language.mentioned) pattern := by
    funext term
    exact propext defined.fits_iff
  rw [reads]
  cases found : pattern.holes grammar.holeTable with
  | none =>
    intro term fits
    obtain ⟨range, other, _⟩ := fits.spans defined.checked single
    rw [found] at other
    cases other
  | some range =>
    refine ⟨?_, Fits.attained tight placed (Grammar.fillable_of_tight tight placed single) range
      found⟩
    intro term fits
    obtain ⟨other, same, spans⟩ := fits.spans defined.checked single
    rw [found] at same
    cases same
    exact spans

/-- An exact range is that of one hole if and only if there are terms, all of them with one
hole. -/
theorem exact_one_iff {value : Option HoleRange} {terms : Term → Prop}
    (exact : HoleRange.Exact value terms) :
    value = some .one ↔ (∃ term, terms term) ∧ ∀ term, terms term → term.holes = 1 := by
  constructor
  · rintro rfl
    obtain ⟨spans, ⟨term, there, _⟩, _⟩ := exact
    exact ⟨⟨term, there⟩, fun term there => HoleRange.spans_one_iff.mp (spans term there)⟩
  · rintro ⟨⟨term, there⟩, single⟩
    cases value with
    | none => exact absurd there (exact term)
    | some range =>
      obtain ⟨_, ⟨low, lowThere, least⟩, high, highThere, greatest⟩ := exact
      obtain ⟨lower, upper⟩ := range
      rw [single low lowThere] at least
      rw [single high highThere] at greatest
      cases least
      cases greatest
      rfl

/-- Contexts are accepted if and only if each describes some term and only terms with one hole,
where all contexts of the rules describe some term. -/
theorem Defined.checkContexts_eq_ok_iff (defined : language.Defined grammar)
    (inhabited : language.ContextsInhabited) {pattern : Pattern}
    (placed : pattern.isPlaced = true) :
    checkContexts language.holes pattern = .ok () ↔
      ∀ context ∈ pattern.contexts, (∃ term, Fits language.reading context term) ∧
        ∀ term, Fits language.reading context term → term.holes = 1 := by
  rw [checkContexts_eq_ok]
  refine Pattern.placedInduction (motive := fun pattern => pattern.isPlaced = true →
    (Single language.holes pattern.contexts ↔ ∀ context ∈ pattern.contexts,
      (∃ term, Fits language.reading context term) ∧
        ∀ term, Fits language.reading context term → term.holes = 1))
    ?_ ?_ ?_ ?_ ?_ pattern placed placed
  · exact fun _ _ => iff_of_true (List.forall_mem_nil _) (List.forall_mem_nil _)
  · exact fun _ _ _ => iff_of_true (List.forall_mem_nil _) (List.forall_mem_nil _)
  · exact fun _ _ _ => iff_of_true (List.forall_mem_nil _) (List.forall_mem_nil _)
  · intro items each rounds placed
    obtain ⟨fixed, inner⟩ := Pattern.arePlaced_iff.mp placed
    have item : ∀ part ∈ items, (Single language.holes part.contexts ↔
        ∀ context ∈ part.contexts, (∃ term, Fits language.reading context term) ∧
          ∀ term, Fits language.reading context term → term.holes = 1) := by
      intro part listed
      cases part with
      | repeated body mode => exact rounds body mode listed (inner body mode listed)
      | check test => exact iff_of_true (List.forall_mem_nil _) (List.forall_mem_nil _)
      | literal _ | nonTerminal _ _ | builtIn _ _ | sequence _ | inHole _ _ _ | unresolved _ =>
        exact each _ listed rfl (fixed _ listed rfl)
    constructor
    · intro single context inside
      obtain ⟨part, listed, there⟩ := Pattern.exists_of_mem_contextsAll inside
      exact (item part listed).mp
        (single.mono fun other here => Pattern.mem_contextsAll listed here) context there
    · intro described context inside
      obtain ⟨part, listed, there⟩ := Pattern.exists_of_mem_contextsAll inside
      exact (item part listed).mpr
        (fun other here => described other (Pattern.mem_contextsAll listed here)) context there
  · intro context contents checks around within placed
    simp only [Pattern.isPlaced, Bool.and_eq_true] at placed
    have outer := around placed.1
    have inner := within placed.2
    constructor
    · intro single other listed
      have outerSingle : Single language.holes context.contexts := single.mono fun part there =>
        List.mem_cons_of_mem _ (List.mem_append_left _ there)
      rcases List.mem_cons.mp listed with rfl | there
      · exact (exact_one_iff (defined.exact_holes inhabited placed.1 outerSingle)).mp
          (single _ List.mem_cons_self)
      · rcases List.mem_append.mp there with left | right
        · exact outer.mp outerSingle other left
        · exact inner.mp (single.mono fun part there =>
            List.mem_cons_of_mem _ (List.mem_append_right _ there)) other right
    · intro described other listed
      have outerSingle : Single language.holes context.contexts := outer.mpr fun part there =>
        described part (List.mem_cons_of_mem _ (List.mem_append_left _ there))
      rcases List.mem_cons.mp listed with rfl | there
      · exact (exact_one_iff (defined.exact_holes inhabited placed.1 outerSingle)).mpr
          (described _ List.mem_cons_self)
      · rcases List.mem_append.mp there with left | right
        · exact outerSingle other left
        · exact inner.mpr (fun part there => described part
            (List.mem_cons_of_mem _ (List.mem_append_right _ there))) other right

/-- A pattern is refused for its contexts. -/
def RefusesContext (language : Language) (pattern : Pattern) : Prop :=
  ∃ fault, (language.prepare pattern).1 = .error fault ∧ fault.cause.code = .contextHoles

/-- A context that describes no term, or one with another number of holes than one. -/
def MisusedContext (language : Language) (context : Pattern) : Prop :=
  (∀ term, ¬ Fits language.reading context term) ∨
    ∃ term, Fits language.reading context term ∧ term.holes ≠ 1

/-- Where all contexts of the rules describe some term, a pattern that resolves, has depths and
carries no generated name is refused for its contexts exactly when it misuses one. -/
theorem Defined.refusesContext_iff (defined : language.Defined grammar) {pattern resolved : Pattern}
    {mentioned : SymbolSet} {depths : Depths} (written : pattern.isWritten = true)
    (found : (pattern.resolve language.names).run language.mentioned = (.ok resolved, mentioned))
    (passed : resolved.depths = .ok depths)
    (plain : ∀ symbol ∈ resolved.boundSymbols, Symbol.isSynthetic symbol = false)
    (inhabited : (language.prepare pattern).2.ContextsInhabited) :
    language.RefusesContext pattern ↔
      ∃ context ∈ resolved.contexts, (language.prepare pattern).2.MisusedContext context := by
  obtain ⟨later, fresh, grows, after⟩ := prepare_snd language pattern
  have still : (language.prepare pattern).2.Defined grammar := by
    rw [after]
    exact defined.grow grows fresh
  have placed : resolved.isPlaced = true :=
    Pattern.isPlaced_of_isResolved _ (Pattern.isResolved_resolve pattern written found)
  have distinct := Pattern.nodup_insertChecks language.fresh fun symbol listed =>
    plain symbol (Pattern.mem_boundSymbols.mpr listed)
  obtain ⟨checkedDepths, deep⟩ := Pattern.exists_depths distinct
  unfold RefusesContext
  rw [prepare_fst found passed]
  generalize (language.prepare pattern).2 = prepared at inhabited still ⊢
  generalize (resolved.insertChecks language.fresh).1.synthetic.map (·.1) = synthetic
  have skeleton : ((resolved.insertChecks language.fresh).1.pattern.classify prepared.closures
      prepared.mentioned).skeleton = resolved.skeleton := by
    rw [Pattern.skeleton_classify, Pattern.skeleton_insertChecks]
  generalize classified : (resolved.insertChecks language.fresh).1.pattern.classify
    prepared.closures prepared.mentioned = final at skeleton
  have finalPlaced : final.isPlaced = true := by
    rw [← Pattern.isPlaced_skeleton, skeleton, Pattern.isPlaced_skeleton, placed]
  have outcome : prepared.finish (resolved.insertChecks language.fresh).1.pattern synthetic =
      (checkContexts prepared.holes final).bind fun _ => .ok ⟨final, checkedDepths, synthetic⟩ := by
    unfold finish
    rw [deep, ← classified]
    rfl
  rw [outcome]
  -- The contexts with their checks describe the same terms as those of the resolved pattern.
  have agree := still.checkContexts_eq_ok_iff inhabited finalPlaced
  constructor
  · rintro ⟨fault, failed, _⟩
    apply Classical.byContradiction
    intro none
    have accepted : checkContexts prepared.holes final = .ok () := by
      refine agree.mpr fun context inside => ?_
      obtain ⟨other, listed, same⟩ := exists_context_of_skeleton skeleton inside
      have fine : ¬ prepared.MisusedContext other := fun misused => none ⟨other, listed, misused⟩
      unfold MisusedContext at fine
      rw [not_or] at fine
      constructor
      · apply Classical.byContradiction
        intro empty
        exact fine.1 fun term fits => empty ⟨term, fits.of_skeleton same⟩
      · intro term fits
        apply Classical.byContradiction
        intro other
        exact fine.2 ⟨term, fits.of_skeleton same.symm, other⟩
    rw [accepted] at failed
    cases failed
  · rintro ⟨context, listed, misused⟩
    cases result : checkContexts prepared.holes final with
    | error fault => exact ⟨fault, rfl, code_checkContexts final result⟩
    | ok _ =>
      obtain ⟨other, inside, same⟩ := exists_context_of_skeleton skeleton.symm listed
      obtain ⟨⟨term, fits⟩, single⟩ := agree.mp result other inside
      rcases misused with empty | ⟨bad, fits, count⟩
      · exact absurd (fits.of_skeleton same) (empty term)
      · exact absurd (single bad (fits.of_skeleton same.symm)) count

/-- The hole ranges of an accepted language are sound: no term has a count outside them, and a
rule without a range derives nothing. They are exact if and only if every context of the rules
describes some term; where this holds, a pattern is refused for its contexts exactly when it
misuses one. -/
theorem holes_exact_iff_contexts_inhabited {definition : LanguageDefinition} {span : Span}
    {language : Language} (written : definition.isWritten = true)
    (stage : Stage definition span language) :
    (∀ rule ∈ language.rules, ∀ term, Derives language.reading rule.name term →
      ∃ range, rule.holes = some range ∧ range.Spans term.holes) ∧
    (language.HolesExact ↔ language.ContextsInhabited) ∧
    ∀ pattern resolved mentioned depths, pattern.isWritten = true →
      (pattern.resolve language.names).run language.mentioned = (.ok resolved, mentioned) →
      resolved.depths = .ok depths →
      (∀ symbol ∈ resolved.boundSymbols, Symbol.isSynthetic symbol = false) →
      (language.prepare pattern).2.ContextsInhabited →
      (language.RefusesContext pattern ↔
        ∃ context ∈ resolved.contexts, (language.prepare pattern).2.MisusedContext context) := by
  obtain ⟨grammar, defined⟩ := stage.defined written
  refine ⟨?_, defined.holesExact_iff, ?_⟩
  · intro rule listed term derived
    rw [defined.holes rule listed, defined.table]
    rw [defined.derives_eq] at derived
    exact derived.spans defined.checked
  · intro pattern resolved mentioned depths source found passed plain inhabited
    exact defined.refusesContext_iff source found passed plain inhabited

/-- A grammar of expressions with their evaluation contexts, and the redexes in them. -/
def evaluationContexts : LanguageDefinition where
  name := "evaluation"
  rules :=
    [⟨"E", [.unresolved "hole", .sequence [.unresolved "E", .unresolved "e"]], default⟩,
      ⟨"e", [.unresolved "number",
        .sequence [.unresolved "e", .repeated (.unresolved "e") .exhaustive]], default⟩,
      ⟨"R", [.inHole (.unresolved "E") (.unresolved "e") []], default⟩]

/-- Whether every context of the rules is the given non-terminal, which has the hole as an
alternative. -/
def contextsAre (name : Symbol) (language : Language) : Bool :=
  (language.rules.all fun rule => rule.alternatives.all fun prepared =>
    prepared.pattern.contexts.all fun context => context.skeleton = .nonTerminal name "") &&
  (language.alternativesOf name).any fun alternative => alternative = .builtIn .hole "hole"

theorem holes_exact_evaluationContexts :
    ∃ language, Stage evaluationContexts default language ∧ language.HolesExact := by
  have accepted :
      (define evaluationContexts default).toOption.any (contextsAre "E") = true := by
    decide +kernel
  cases made : define evaluationContexts default with
  | error fault =>
    rw [made] at accepted
    cases accepted
  | ok language =>
    rw [made] at accepted
    have stage : Stage evaluationContexts default language := .define made
    refine ⟨language, stage, (holes_exact_iff_contexts_inhabited rfl stage).2.1.mpr ?_⟩
    obtain ⟨contexts, alternative⟩ := Bool.and_eq_true_iff.mp accepted
    obtain ⟨hole, listed, same⟩ := List.any_eq_true.mp alternative
    rw [decide_eq_true_eq] at same
    rw [same] at listed
    intro rule there prepared known context inside
    have skeleton : context.skeleton = .nonTerminal "E" "" := of_decide_eq_true <|
      List.all_eq_true.mp (List.all_eq_true.mp (List.all_eq_true.mp contexts rule there)
        prepared known) context inside
    refine ⟨.hole, (fits_skeleton context _).mp ?_⟩
    rw [skeleton]
    exact .nonTerminal (.rule listed (.builtIn rfl))

/-- A grammar whose rules need each other, one of them as a context. -/
def vainContexts : LanguageDefinition where
  name := "vain"
  rules :=
    [⟨"A", [.inHole (.unresolved "C") (.unresolved "number") []], default⟩,
      ⟨"C", [.sequence [.unresolved "A", .unresolved "hole"]], default⟩]

/-- Whether there are rules, all of them with a range and none with an alternative that needs no
other rule. -/
def isVain (language : Language) : Bool :=
  !language.rules.isEmpty && language.rules.all fun rule => rule.holes.isSome &&
    rule.alternatives.all (·.pattern.requires (language.rules.map (·.name)))

/-- Rules that need each other have no exact ranges. -/
theorem not_holesExact_of_isVain {language : Language} (vain : language.isVain = true) :
    ¬ language.HolesExact := by
  intro exact
  obtain ⟨some, all⟩ := Bool.and_eq_true_iff.mp vain
  have each : ∀ rule ∈ language.rules, rule.holes.isSome = true ∧ ∀ prepared ∈ rule.alternatives,
      prepared.pattern.requires (language.rules.map (·.name)) = true := by
    intro rule listed
    obtain ⟨known, needs⟩ := Bool.and_eq_true_iff.mp (List.all_eq_true.mp all rule listed)
    exact ⟨known, List.all_eq_true.mp needs⟩
  have nothing : language.reading.Vain (language.rules.map (·.name)) := by
    intro name _ alternative listed
    change alternative ∈ language.alternativesOf name at listed
    unfold alternativesOf at listed
    split at listed
    · rename_i rule found
      obtain ⟨prepared, known, rfl⟩ := List.mem_map.mp listed
      exact (each rule (List.mem_of_find?_eq_some found)).2 prepared known
    · cases listed
  cases rules : language.rules with
  | nil =>
    rw [rules] at some
    cases some
  | cons rule rest =>
    have listed : rule ∈ language.rules := by
      rw [rules]
      exact List.mem_cons_self
    obtain ⟨range, known⟩ := Option.isSome_iff_exists.mp (each rule listed).1
    have attained := exact rule listed
    rw [known] at attained
    obtain ⟨_, ⟨term, derived, _⟩, _⟩ := attained
    exact derived.not_vain nothing (List.mem_map_of_mem listed)

theorem not_holesExact_vainContexts :
    ∃ language, Stage vainContexts default language ∧ ¬ language.HolesExact := by
  have accepted : (define vainContexts default).toOption.any isVain = true := by
    decide +kernel
  cases made : define vainContexts default with
  | error fault =>
    rw [made] at accepted
    cases accepted
  | ok language =>
    rw [made] at accepted
    exact ⟨language, .define made, not_holesExact_of_isVain accepted⟩

end Language

end Reduct
