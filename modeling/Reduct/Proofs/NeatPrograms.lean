import Reduct.Proofs.FinalDrafts
import Reduct.Proofs.NeatMatchers

/-!
# Neat programs

The code of forms keeps drafts neat as well. A form asks for the matchers of its patterns, and all
that is shared for a specification is reached from what its forms ask for.
-/

namespace Reduct.Program

open Draft Statement

/-- The matcher of a prepared pattern of a language. -/
def matcherOf (language : Symbol) (prepared : Prepared) : Use := .matcher language prepared.pattern

/-- The matchers that the code of a form calls. -/
def PreparedForm.asks : PreparedForm → List Use
  | .relation _ _ base domain cases =>
    domain.toList.map (matcherOf base) ++ cases.map fun case => matcherOf base case.1
  | .metafunction _ _ base contract cases =>
    (contract.toList.map fun contract => matcherOf base contract.1) ++
      ((contract.toList.map fun contract => matcherOf base contract.2) ++
        cases.map fun case => matcherOf base case.1)
  | .redexMatch base prepared _ _ => [matcherOf base prepared]
  | .assertMatch base prepared _ _ _ => [matcherOf base prepared]
  | .assertTerm base bindings _ _ _ _ => bindings.map fun binding => matcherOf base binding.1
  | _ => []

/-- A demand for the languages of a scope, each under its own name. -/
structure Scope.Meets (scope : Scope) (demand : Demand) : Prop where
  languages : demand.languages = scope.languages
  named : ∀ name language, scope.languages.find? name = some language → language.name = name

section Forms

variable {demand : Demand} {scope : Scope}

theorem serves_topMatcher (meets : scope.Meets demand) {language : Symbol} {prepared : Prepared}
    (allowed : demand.allowed (matcherOf language prepared)) :
    Serves demand [matcherOf language prepared] (topMatcher scope language prepared) := by
  unfold topMatcher
  split
  · exact works_throw _
  · rename_i found known
    obtain rfl := meets.named _ _ known
    rw [← meets.languages] at known
    exact Matcher.serves_compileTop known allowed

theorem serves_construction (depths : Depths) (template : Template) :
    Serves demand [] (construction scope depths template) := by
  unfold construction
  split
  · exact works_throw _
  · exact Construction.serves_compile _

theorem codes_matchesAny (matcher term check : Symbol) :
    Codes demand [] (fun name => tally name check) (matchesAny matcher term check) := by
  iterate 2 refine .withLocal rfl fun _ => ?_
  refine works_pure fun name => ?_
  simp only [introductions, placesAll_cons, places_assignCall, Bool.false_eq_true, ↓reduceIte,
    places_assignPrimitive, places_assignBinary, placesAll_nil]
  omega

theorem codes_raiseTerm (lead : String) (term : Symbol) :
    Codes demand [] (fun _ => 0) (raiseTerm lead term) := by
  iterate 2 refine .withLocal rfl fun _ => ?_
  exact works_pure fun name => by
    simp only [introductions, placesAll_cons, places_assignPrimitive, Bool.false_eq_true,
      ↓reduceIte, places_assignBinary, places_raise, placesAll_nil]
    omega

theorem codes_raiseMismatch (write : Primitive) (expected actual : Symbol) :
    Codes demand [] (fun _ => 0) (raiseMismatch write expected actual) := by
  iterate 5 refine .withLocal rfl fun _ => ?_
  refine works_pure fun name => ?_
  simp only [introductions, placesAll_cons, places_assignPrimitive, Bool.false_eq_true, ↓reduceIte,
    places_assignBinary, places_raise, placesAll_nil]
  omega

/-- A guard sets the variable that it checks. -/
theorem codes_guard (matcher term check shown : Symbol) (lead : String) :
    Codes demand [] (fun name => tally name check) (do
      let test ← matchesAny matcher term check
      let failure ← raiseTerm lead shown
      pure (test ++ [whenFalse check failure])) := by
  refine .spend (fun _ => 0) (codes_matchesAny _ _ _) (fun _ => Nat.le_refl _) fun test => ?_
  refine (codes_raiseTerm _ _).bind fun failure => works_pure fun name => ?_
  simp only [introductions, placesAll_append, placesAll_cons, places_whenFalse, placesAll_nil,
    add_zero]
  omega

theorem codes_requireMatch (meets : scope.Meets demand) {language : Symbol} {prepared : Prepared}
    (allowed : demand.allowed (matcherOf language prepared)) (term : Symbol)
    (lead : String) : Codes demand [matcherOf language prepared] (fun _ => 0)
      (requireMatch scope language prepared term lead) := by
  refine .withLocal rfl fun check => (serves_topMatcher meets allowed).serve fun matcher => ?_
  exact (codes_guard matcher term check term lead).mono (List.Subset.refl _) fun _ => by omega

theorem codes_relationCase (meets : scope.Meets demand) {language : Symbol} (term out : Symbol)
    {case : Prepared × Template} (allowed : demand.allowed (matcherOf language case.1)) :
    Codes demand [matcherOf language case.1] (fun _ => 0)
      (relationCase scope language term out case) := by
  refine (serves_topMatcher meets allowed).serve fun _ => (serves_construction _ _).bind fun _ => ?_
  iterate 3 refine .withLocal rfl fun _ => ?_
  refine works_pure fun name => ?_
  simp only [introductions, placesAll_cons, places_assignCall, Bool.false_eq_true, ↓reduceIte,
    places_forEach, count_cons_tally, List.count_nil, places_perform, placesAll_nil]
  omega

/-- The body of a function for each of two lists of blocks. -/
theorem introductions_blocks_le (name : Symbol) (first : List Statement)
    (blocks others : List (List Statement)) (last : List Statement) :
    introductions (first ++ blocks.flatten ++ others.flatten ++ last) name ≤
      introductions first name + (blocks.map (introductions · name)).sum +
        (others.map (introductions · name)).sum + introductions last name := by
  have one := introductions_flatten_le name blocks
  have two := introductions_flatten_le name others
  have append := introductions_append_le name (first ++ blocks.flatten ++ others.flatten) last
  have inner := introductions_append_le name (first ++ blocks.flatten) others.flatten
  have front := introductions_append_le name first blocks.flatten
  omega

/-- A function is added at the end, with all of the names in hand. -/
theorem works_define {given : Symbol → Nat} {name : Symbol} {parameters : List Symbol}
    {body : List Statement} (enough : ∀ word, introductions body word ≤ given word)
    (plain : ∀ parameter ∈ parameters, EndsPlain parameter.toList) (once : parameters.Nodup)
    (matcher : parameters ≠ Matcher.parameters)
    (predicate : parameters = [Matcher.whole] →
      body.getLast? ≠ some (.returns (.bool false))) :
    Works demand [] given (fun _ _ => 0) (addFunction name parameters body) := by
  have spends : Spends given parameters [] body :=
    { enough := enough
      plain := plain
      once := by rwa [List.append_nil]
      fixed := List.nil_sublist _ }
  exact works_addFunction spends matcher predicate

theorem serves_relation (meets : scope.Meets demand) {name function language : Symbol}
    {domain : Option Prepared} {cases : List (Prepared × Template)}
    (allowed : ∀ use ∈ (PreparedForm.relation name function language domain cases).asks,
      demand.allowed use) :
    Serves demand (PreparedForm.relation name function language domain cases).asks
      (relation scope name function language domain cases) := by
  obtain ⟨first, second⟩ := List.forall_mem_append.mp allowed
  refine .withLocal rfl fun out => ?_
  refine Works.ask (.mapMOne fun prepared listed => codes_requireMatch meets
    (first _ (List.mem_map_of_mem listed)) _ _) fun checks => ?_
  refine Works.serve (.mapMOne fun case listed => codes_relationCase meets _ _
    (second _ (List.mem_map_of_mem listed))) fun results => ?_
  refine works_define (fun word => ?_) (by decide) (by decide) (by decide) fun _ last => ?_
  · have begins : introductions [assignPrimitive out .newList []] word ≤ tally word out := by
      simp only [introductions, placesAll_cons, places_assignPrimitive, Bool.false_eq_true,
        ↓reduceIte, placesAll_nil]
      omega
    have ends : introductions [.returns (.name out)] word = 0 := rfl
    have blocks := introductions_blocks_le word [assignPrimitive out .newList []] checks results
      [.returns (.name out)]
    exact Nat.le_trans blocks (by omega)
  · rw [List.getLast?_concat] at last
    cases last

theorem codes_codomain (codomain : Option Symbol) (lead : String) (result : Symbol) :
    Works demand [] (fun _ => 0)
      (fun checks name => (checks.map (introductions · name)).sum)
      (codomain.toList.mapM fun codomain => do
        let check ← freshLocal "ok"
        let test ← matchesAny codomain result check
        let failure ← raiseTerm lead result
        pure (test ++ [whenFalse check failure])) := by
  refine .mapMNone (fun matcher => .withLocal rfl fun check => ?_) _
  exact (codes_guard matcher result check result lead).mono (List.Subset.refl _) fun _ => by omega

theorem codes_metafunctionCase (meets : scope.Meets demand) (name : Symbol) {language : Symbol}
    (arguments : Symbol) (codomain : Option Symbol) {case : Prepared × Template}
    (allowed : demand.allowed (matcherOf language case.1)) :
    Codes demand [matcherOf language case.1] (fun _ => 0)
      (metafunctionCase scope name language arguments codomain case) := by
  refine (serves_topMatcher meets allowed).serve fun _ => (serves_construction _ _).bind fun _ => ?_
  refine .withLocal rfl fun found => .withLocal rfl fun count => .withLocal rfl fun any =>
    .withLocal rfl fun first => .withLocal rfl fun result => ?_
  refine Works.bind (codes_codomain _ _ _) fun checks => works_pure fun word => ?_
  refine introductions_le fun looped => ?_
  have flat := placesAll_flatten_le word looped checks
  cases looped <;> simp <;> omega

theorem serves_metafunction (meets : scope.Meets demand) {name function language : Symbol}
    {contract : Option (Prepared × Prepared)} {cases : List (Prepared × Template)}
    (allowed : ∀ use ∈ (PreparedForm.metafunction name function language contract cases).asks,
      demand.allowed use) :
    Serves demand (PreparedForm.metafunction name function language contract cases).asks
      (metafunction scope name function language contract cases) := by
  obtain ⟨domains, others⟩ := List.forall_mem_append.mp allowed
  obtain ⟨codomains, clauses⟩ := List.forall_mem_append.mp others
  refine Works.ask (.mapMOne fun contract listed => codes_requireMatch meets
    (domains _ (List.mem_map_of_mem listed)) _ _) fun checks => ?_
  have codomain : Serves demand (contract.toList.map fun contract => matcherOf language contract.2)
      (contract.mapM fun contract => topMatcher scope language contract.2) := by
    cases contract with
    | none => exact works_pure fun _ => Nat.le_refl _
    | some contract =>
      exact (serves_topMatcher meets (codomains _ List.mem_cons_self)).serve fun _ =>
        works_pure fun _ => Nat.le_refl _
  refine codomain.ask fun matcher => ?_
  refine Works.serve (.mapMOne fun case listed => codes_metafunctionCase meets _ _ _
    (clauses _ (List.mem_map_of_mem listed))) fun attempts => ?_
  refine (codes_raiseTerm _ _).bind fun failure => ?_
  refine works_define (fun word => ?_) (by decide) (by decide) (by decide) fun same =>
    absurd same (by decide)
  have nothing : introductions [] word = 0 := rfl
  refine Nat.le_trans (introductions_blocks_le word [] checks attempts failure) ?_
  omega

theorem codes_expectedBindings (wanted : Symbol) (bindings : List (Symbol × Term)) :
    Codes demand [] (fun _ => 0) (expectedBindings wanted bindings) := by
  refine .withLocal rfl fun env => ?_
  have add : ∀ binding : Symbol × Term, Works demand [] (fun _ => 0)
      (fun statement name => introductions [statement] name) (do
        let value ← constant binding.2
        pure (perform .matchAdd [.name env, .string binding.1, .name value])) :=
    fun _ => (works_constant _).bind fun _ => works_pure fun _ => Nat.zero_le _
  refine (Works.mapMNone add bindings).bind fun adds => works_pure fun name => ?_
  refine introductions_le fun looped => ?_
  have each := placesAll_le_sum name looped adds
  cases looped <;> simp <;> omega

theorem codes_mergeBinding (meets : scope.Meets demand) {language : Symbol} (env : Symbol)
    {binding : Prepared × Term} (allowed : demand.allowed (matcherOf language binding.1)) :
    Codes demand [matcherOf language binding.1] (fun _ => 0)
      (mergeBinding scope language env binding) := by
  refine (serves_topMatcher meets allowed).serve fun _ => (works_constant _).bind fun _ => ?_
  iterate 4 refine .withLocal rfl fun _ => ?_
  refine (codes_raiseTerm _ _).bind fun failure => works_pure fun name => ?_
  simp only [introductions, placesAll_cons, places_assignCall, Bool.false_eq_true, ↓reduceIte,
    places_assignPrimitive, places_assignBinary, places_whenFalse, places_perform, placesAll_nil,
    add_zero]
  omega

/-- The function of an entry is added. -/
theorem works_entry {given : Symbol → Nat} (name : Symbol) {body : List Statement}
    (enough : ∀ word, introductions body word ≤ given word) (description : String)
    (kind : EntryKind) (span : Span) :
    Works demand [] given (fun _ _ => 0) (entry name body description kind span) := by
  have defined : Works demand [] given (fun _ _ => 0) (addFunction name [] body) :=
    works_define enough nofun .nil (by decide) fun same => absurd same (by decide)
  refine .spend (fun _ => 0) defined (fun _ => Nat.le_refl _) fun _ => ?_
  exact works_pure fun _ => Nat.le_refl _

/-- Generating the code of a form. -/
theorem serves_generate (meets : scope.Meets demand) (span : Span) (form : PreparedForm)
    (allowed : ∀ use ∈ form.asks, demand.allowed use) :
    Serves demand form.asks (generate scope span form) := by
  cases form with
  | language => exact works_pure fun _ => Nat.le_refl _
  | foreignSource path => exact works_pure fun _ => Nat.le_refl _
  | relation name function language domain cases =>
    exact (serves_relation meets allowed).serve fun _ => works_pure fun _ => Nat.le_refl _
  | metafunction name function language contract cases =>
    exact (serves_metafunction meets allowed).serve fun _ => works_pure fun _ => Nat.le_refl _
  | redexMatch language prepared term description =>
    have top := serves_topMatcher meets (allowed _ List.mem_cons_self)
    refine top.serve fun matcher => (works_freshFunction _ _).bind fun name => ?_
    refine (works_constant _).bind fun input => .withLocal rfl fun found => ?_
    have returned : ∀ prints word, introductions
        (assignCall found matcher [.name input] :: prints ++ [.returns (.name found)]) word ≤
          tally word found + introductions prints word := by
      refine fun prints word => introductions_le fun looped => ?_
      have inner := placesAll_le word looped prints
      cases looped <;> simp <;> omega
    dsimp only
    split
    · refine .withLocal rfl fun text => .spend (fun word => tally word found) (?_ :
        Codes demand [] (fun word => tally word text) _) (fun word => by omega) fun prints => ?_
      · exact works_pure fun word => by
          simp only [introductions, placesAll_cons, places_assignPrimitive, Bool.false_eq_true,
            ↓reduceIte, places_print, placesAll_nil]
          omega
      · exact works_entry name (returned prints) _ _ _
    · refine Works.bind (?_ : Codes demand [] (fun _ => 0) _) fun prints => ?_
      · exact works_pure fun _ => Nat.zero_le _
      · exact works_entry name (fun word => Nat.le_trans (returned prints word) (by omega)) _ _ _
  | assertMatch language prepared term expected description =>
    have top := serves_topMatcher meets (allowed _ List.mem_cons_self)
    refine top.serve fun matcher => (works_freshFunction _ _).bind fun name => ?_
    refine (works_constant _).bind fun input => ?_
    refine .withLocal rfl fun actual => .withLocal rfl fun wanted => ?_
    refine Works.bind (.mapMNone (codes_expectedBindings _) expected) fun expectations => ?_
    refine .withLocal rfl fun equal => (codes_raiseMismatch _ _ _).bind fun failure => ?_
    refine works_entry name (fun word => introductions_le fun looped => ?_) _ _ _
    have flat := placesAll_flatten_le word looped expectations
    have fails := placesAll_le word looped failure
    cases looped <;> simp <;> omega
  | assertTerm language bindings depths template expected description =>
    refine (works_freshFunction _ _).bind fun name => .withLocal rfl fun env => ?_
    refine Works.serve (.mapMOne fun binding listed => codes_mergeBinding meets _
      (allowed _ (List.mem_map_of_mem listed))) fun merges => ?_
    refine (serves_construction _ _).bind fun builder => .withLocal rfl fun built => ?_
    refine (works_constant _).bind fun wanted => .withLocal rfl fun equal => ?_
    refine (codes_raiseTerm _ _).bind fun failure => ?_
    refine works_entry name (fun word => introductions_le fun looped => ?_) _ _ _
    have flat := placesAll_flatten_le word looped merges
    have fails := placesAll_le word looped failure
    cases looped <;> simp <;> omega
  | assertReduction relation function term expected description =>
    refine (works_freshFunction _ _).bind fun name => (works_constant _).bind fun input => ?_
    refine .withLocal rfl fun actual => .withLocal rfl fun wanted => ?_
    have append : ∀ term, Works demand [] (fun _ => 0)
        (fun statement name => introductions [statement] name) (do
          let value ← constant term
          pure (perform .listAppend [.name wanted, .name value])) :=
      fun _ => (works_constant _).bind fun _ => works_pure fun _ => Nat.zero_le _
    refine (Works.mapMNone append expected).bind fun expectations => ?_
    refine .withLocal rfl fun equal => (codes_raiseMismatch _ _ _).bind fun failure => ?_
    refine works_entry name (fun word => introductions_le fun looped => ?_) _ _ _
    have each := placesAll_le_sum word looped expectations
    have fails := placesAll_le word looped failure
    cases looped <;> simp <;> omega

/-- A run whose faults are thrown on. -/
theorem works_tryCatch {α : Type} {wanted : List Use} {given : Symbol → Nat}
    {cost : α → Symbol → Nat} {action : Drafting α} {change : Fault → Fault}
    (works : Works demand wanted given cost action) :
    Works demand wanted given cost (tryCatch action fun fault => throw (change fault)) := by
  intro numbered pending before result after yields neat
  obtain ⟨names, course⟩ :=
    works numbered pending before result after (yields_tryCatch yields) neat
  exact ⟨names, course.relog (.tryCatch course.logged)⟩

/-- Generating the code of all forms. -/
theorem works_generateAll (meets : scope.Meets demand) {items : List (Form × PreparedForm)}
    (allowed : ∀ item ∈ items, ∀ use ∈ item.2.asks, demand.allowed use) :
    Works demand (items.flatMap (·.2.asks)) (fun _ => 0)
      (fun results _ => (results.map fun _ => 0).sum) (generateAll scope items) :=
  .mapM fun item listed => works_tryCatch (serves_generate meets _ item.2 (allowed item listed))

end Forms

end Reduct.Program
