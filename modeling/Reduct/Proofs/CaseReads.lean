import Reduct.Proofs.ClauseCalls
import Reduct.Proofs.TameCode

/-!
# What constructions read

Each case of a relation or a metafunction has two functions: a top-level matcher, which gives the
matches of the pattern, and a construction, which reads them. The construction reads the bindings
that it is given and nothing else, and only symbols that the pattern binds. So every symbol that it
reads has a finished value in every match that the matcher gives.
-/

namespace Reduct

/-- The operands of an expression, if it calls the primitive. -/
def Expression.operandsOf (function : Primitive) : Expression → List (List Operand)
  | .primitive called arguments => if called = function then [arguments] else []
  | _ => []

namespace Statement

mutual

/-- The operands of the calls of a primitive in a statement, in order. -/
def operandsOf (function : Primitive) : Statement → List (List Operand)
  | .define _ _ body => operandsOfAll function body
  | .assign _ value => value.operandsOf function
  | .branch _ onTrue onFalse => operandsOfAll function onTrue ++ operandsOfAll function onFalse
  | .forEach _ _ body => operandsOfAll function body
  | .forRange _ _ _ body => operandsOfAll function body
  | .loop _ body => operandsOfAll function body
  | .effect value => value.operandsOf function
  | _ => []

/-- The operands of the calls of a primitive in a block. -/
def operandsOfAll (function : Primitive) : List Statement → List (List Operand)
  | [] => []
  | statement :: rest => statement.operandsOf function ++ operandsOfAll function rest

end

theorem operandsOfAll_append (function : Primitive) (code rest : List Statement) :
    operandsOfAll function (code ++ rest) =
      operandsOfAll function code ++ operandsOfAll function rest := by
  induction code with
  | nil => rfl
  | cons statement code ih => rw [List.cons_append, operandsOfAll, operandsOfAll, ih, List.append_assoc]

/-- A block calls a matcher with an argument, and a construction with every match that it finds, or
with the first one. -/
inductive BuildsFrom (argument matcher builder : Symbol) : List Statement → Prop
  | each (found entry built out : Symbol) : BuildsFrom argument matcher builder
      [assignCall found matcher [.name argument],
        .forEach [entry] found
          [assignCall built builder [.name entry], perform .listAppend [.name out, .name built]]]
  | first (found count any first result : Symbol) (rest : List Statement) :
      BuildsFrom argument matcher builder
        [assignCall found matcher [.name argument],
          assignPrimitive count .listLength [.name found],
          assignBinary any .greater (.name count) (.int 0),
          whenTrue any
            ([assignPrimitive first .listGet [.name found, .int 0],
              assignCall result builder [.name first]] ++ rest)]

end Statement

namespace Construction

open Draft Statement

/-- Code that builds terms reads no symbols. -/
theorem fits_unread : Fits fun code => operandsOfAll .matchGet code = [] where
  nil := rfl
  append first second := by rw [operandsOfAll_append, first, second, List.append_nil]
  primitive builds _ _ := by
    have other := ne_of_mem_of_not_mem builds (by decide : Primitive.matchGet ∉ builders)
    simp [operandsOfAll, assignPrimitive, operandsOf, Expression.operandsOf, other]
  perform builds _ := by
    have other := ne_of_mem_of_not_mem builds (by decide : Primitive.matchGet ∉ builders)
    simp [operandsOfAll, Statement.perform, operandsOf, Expression.operandsOf, other]
  call _ _ _ := rfl
  forRange unread _ _ := by simp [operandsOfAll, operandsOf, unread]

/-- The variables of a template are fetched from the bindings one by one. -/
theorem operandsOfAll_fetchVariables {bindings : Symbol} {symbols : List Symbol} :
    ∀ {scope inner : Scope} {before after : Draft} {code : List Statement},
      Yields (fetchVariables bindings symbols scope) before (code, inner) after →
      operandsOfAll .matchGet code =
        symbols.map fun symbol => [.name bindings, .string symbol] := by
  induction symbols with
  | nil =>
    intro scope inner before after code yields
    obtain ⟨same, _⟩ := yields_pure.mp yields
    cases same
    rfl
  | cons symbol rest ih =>
    intro scope inner before after code yields
    obtain ⟨target, _, _, yields⟩ := yields_bind.mp yields
    obtain ⟨⟨others, last⟩, _, fetched, yields⟩ := yields_bind.mp yields
    obtain ⟨same, _⟩ := yields_pure.mp yields
    cases same
    rw [operandsOfAll, ih fetched]
    rfl

/-- A construction reads the variables of its template from the bindings that it is given. -/
theorem operandsOfAll_compile {table : Table Symbol} {template : Annotated} {before after : Draft}
    {name : Symbol} (yields : Yields (compile table template) before name after) :
    ∃ body, .define name ["m"] body ∈ after.functions ∧ operandsOfAll .matchGet body =
      template.readSymbols.map fun symbol => [.name "m", .string symbol] := by
  obtain ⟨_, _, _, yields⟩ := yields_bind.mp yields
  obtain ⟨⟨fetch, scope⟩, _, fetched, yields⟩ := yields_bind.mp yields
  obtain ⟨⟨code, result⟩, _, built, yields⟩ := yields_bind.mp yields
  obtain ⟨_, _, added, yields⟩ := yields_bind.mp yields
  obtain rfl := yields_modify.mp added
  obtain ⟨rfl, rfl⟩ := yields_pure.mp yields
  refine ⟨_, List.mem_append_right _ List.mem_cons_self, ?_⟩
  have unread : operandsOfAll .matchGet code = [] :=
    (makes_asTerm fits_unread (makes_build fits_unread template scope) template _ _ _ built).2
  rw [operandsOfAll_append, operandsOfAll_append, operandsOfAll_fetchVariables fetched, unread,
    List.append_nil]
  exact List.append_nil _

end Construction

namespace Program

namespace Compilation

open Draft Statement Template

variable {forms : List Form} {prints : Bool} {compilation : Compilation forms prints}

/-- What a block builds from is what its matcher gives: the construction reads symbols of the
bindings that it is given, and each has a finished value in every match that the matcher gives. -/
def ReadsBound (compilation : Compilation forms prints) (machine : Machine) (host : Host)
    (argument language : Symbol) (pattern : Pattern) (block : List Statement) : Prop :=
  ∃ (matcher builder : Symbol) (body : List Statement) (symbols : List Symbol),
    BuildsFrom argument matcher builder block ∧
    .define builder ["m"] body ∈ compilation.program.code.body ∧
    operandsOfAll .matchGet body = symbols.map (fun symbol => [.name "m", .string symbol]) ∧
    ∀ (term : Term), term.Proper → ∀ fuel value after,
      machine.call fuel matcher [.term term] = (.ok value, after) → ∃ place found,
        value = .list place ∧ Display.found.Lists after.store place found ∧
        (compilation.world host).found language pattern term = some (.ok found) ∧
        ∀ bindings ∈ found, ∀ symbol ∈ symbols, ∃ value, bindings.get symbol = .ok value

/-- The function of some clauses is made of a block for each of their patterns, and every block
reads what its matcher binds. -/
def ClausesReadBound (compilation : Compilation forms prints) (machine : Machine) (host : Host)
    (function argument language : Symbol) (patterns : List Pattern) : Prop :=
  ∃ (front : List Statement) (blocks : List (List Statement)) (back : List Statement),
    .define function [argument] (front ++ blocks.flatten ++ back) ∈
      compilation.program.code.body ∧
    List.Forall₂ (compilation.ReadsBound machine host argument language) patterns blocks

/-- Steps that only add to a draft give their results one after the other. -/
theorem exists_yields_of_mapM {α β : Type} {step : α → Drafting β} {final : Draft}
    {items : List α}
    (adds : ∀ item ∈ items, Moves (Continues Atom.Legible compilation.HasLanguage) (step item)) :
    ∀ {before after : Draft} {results : List β},
      Yields (items.mapM step) before results after → after.Grows final →
      List.Forall₂ (fun item result => ∃ first last, Yields (step item) first result last ∧
        last.Grows final) items results := by
  induction items with
  | nil =>
    intro before after results yields _
    rw [List.mapM_nil] at yields
    obtain ⟨rfl, _⟩ := yields_pure.mp yields
    exact .nil
  | cons item rest ih =>
    intro before after results yields grows
    obtain ⟨here, later⟩ := List.forall_mem_cons.mp adds
    rw [List.mapM_cons] at yields
    obtain ⟨result, middle, first, yields⟩ := yields_bind.mp yields
    obtain ⟨others, last, next, yields⟩ := yields_bind.mp yields
    obtain ⟨rfl, rfl⟩ := yields_pure.mp yields
    have going : Continues Atom.Legible compilation.HasLanguage middle _ :=
      (lenient_continues _ _).mapM later _ _ _ next
    exact .cons ⟨before, middle, first, going.grows.trans grows⟩ (ih later next grows)

section Cases

variable (read : ∀ form ∈ forms, form.Read) {machine : Machine} {host : Host}
  (carries : machine.Carries compilation.draft)

include read carries

/-- A matcher returns the matches of its pattern, whatever was called before. -/
theorem Uses.found_of_call {name : Symbol} {pattern : Pattern} {prepared : Prepared}
    (uses : compilation.Uses name pattern prepared) {before after : Draft} {function : Symbol}
    (yields : Yields (topMatcher compilation.scope name prepared) before function after)
    (grows : after.Grows compilation.draft) {term : Term} (proper : term.Proper) {fuel : Nat}
    {value : Value} {last : Machine}
    (returned : machine.call fuel function [.term term] = (.ok value, last)) :
    ∃ place found, value = .list place ∧ Display.found.Lists last.store place found ∧
      (compilation.world host).found name pattern term = some (.ok found) := by
  obtain ⟨_, _, found, _, _, searched, _⟩ := uses.exists_found read host term
  have accepts : ∀ name language, compilation.languages.find? name = some language →
      ∀ stem term, term.Proper → Matcher.PredicateMeets (.upTo .lax False fuel) machine language
        compilation.draft language.ground stem term := by
    intro name language known
    obtain ⟨grammar, defined, searched⟩ := exists_defined read known
    exact (compilation.compiled read known carries).predicateMeets_of_descends defined.solves
      (descends_upTo .lax False) (fun _ rule among alternative inside part =>
        .inr (searched rule among alternative inside part)) fuel
  have answer := Machine.answers_upTo trivial
    (uses.topMatcher_performs read carries accepts yields grows proper searched machine.store)
  rw [returned] at answer
  obtain ⟨store, journal, rfl, place, _, rfl, _, same, _, lists⟩ := answer.of_value
  cases same
  exact ⟨place, found, rfl, lists, searched⟩

/-- A block that was generated for a pattern and a template reads what its matcher binds. -/
theorem Uses.readsBound {name : Symbol} {pattern : Pattern} {prepared : Prepared}
    (uses : compilation.Uses name pattern prepared) {template : Template}
    (writes : Writes forms template) {argument matcher builder : Symbol}
    {before top start after : Draft} {block : List Statement}
    (builds : BuildsFrom argument matcher builder block)
    (matching : Yields (topMatcher compilation.scope name prepared) before matcher top)
    (within : top.Grows compilation.draft)
    (constructing : Yields (construction compilation.scope prepared.depths template) start builder
      after)
    (grows : after.Grows compilation.draft) :
    compilation.ReadsBound machine host argument name pattern block := by
  unfold construction at constructing
  split at constructing
  · exact absurd constructing yields_throw
  · rename_i annotated accepted
    obtain ⟨body, written, reads⟩ := Construction.operandsOfAll_compile constructing
    refine ⟨matcher, builder, body, annotated.readSymbols, builds,
      List.mem_append_right _ (grows.functions _ written), reads, ?_⟩
    intro term proper fuel value last returned
    obtain ⟨place, found, given, lists, searched⟩ :=
      uses.found_of_call read carries matching within proper returned
    refine ⟨place, found, given, lists, searched, fun bindings among symbol needed => ?_⟩
    obtain ⟨written, depth, bound⟩ := (mem_readSymbols accepted).mp needed
    obtain ⟨result, known, _⟩ := uses.supplied read proper searched among
      (writes.unmarked symbol written) bound
    exact ⟨result, by rw [Bindings.get, known]⟩

/-- The block of a case of a relation reads what its matcher binds. -/
theorem readsBound_relationCase {language : Symbol} {case : ReductionCase}
    {prepared : Prepared × Template} (uses : compilation.Uses language case.pattern prepared.1)
    (same : prepared.2 = case.template) (writes : Writes forms case.template)
    {term out : Symbol} {before after : Draft} {block : List Statement}
    (yields : Yields (relationCase compilation.scope language term out prepared) before block after)
    (grows : after.Grows compilation.draft) :
    compilation.ReadsBound machine host term language case.pattern block := by
  obtain ⟨matcher, top, matching, yields⟩ := yields_bind.mp yields
  obtain ⟨builder, start, constructing, yields⟩ := yields_bind.mp yields
  rw [same] at constructing
  rw [← Draft.skip_zero start] at yields
  obtain ⟨found, _, yields⟩ := yields_local (by decide) (by decide) yields
  obtain ⟨entry, _, yields⟩ := yields_local (by decide) (by decide) yields
  obtain ⟨built, _, yields⟩ := yields_local (by decide) (by decide) yields
  obtain ⟨rfl, rfl⟩ := yields_pure.mp yields
  have second : Continues Atom.Legible compilation.HasLanguage top start :=
    continues_construction (constants_of_empty _ writes.read.legible) _ _ _ constructing
  have within : start.Grows compilation.draft := (start.grows_skip 3).trans grows
  exact uses.readsBound read carries writes (.each found entry built out) matching
    (second.grows.trans within) constructing within

/-- The block of a case of a metafunction reads what its matcher binds. -/
theorem readsBound_metafunctionCase {name language : Symbol} {case : MetafunctionCase}
    {prepared : Prepared × Template}
    (uses : compilation.Uses language (.sequence case.arguments) prepared.1)
    (same : prepared.2 = case.template) (writes : Writes forms case.template)
    {arguments : Symbol} {codomain : Option Symbol} {before after : Draft} {block : List Statement}
    (yields : Yields (metafunctionCase compilation.scope name language arguments codomain prepared)
      before block after)
    (grows : after.Grows compilation.draft) :
    compilation.ReadsBound machine host arguments language (.sequence case.arguments) block := by
  obtain ⟨matcher, top, matching, yields⟩ := yields_bind.mp yields
  obtain ⟨builder, start, constructing, yields⟩ := yields_bind.mp yields
  rw [same] at constructing
  rw [← Draft.skip_zero start] at yields
  obtain ⟨found, _, yields⟩ := yields_local (by decide) (by decide) yields
  obtain ⟨count, _, yields⟩ := yields_local (by decide) (by decide) yields
  obtain ⟨any, _, yields⟩ := yields_local (by decide) (by decide) yields
  obtain ⟨first, _, yields⟩ := yields_local (by decide) (by decide) yields
  obtain ⟨result, _, yields⟩ := yields_local (by decide) (by decide) yields
  obtain ⟨checks, last, checking, yields⟩ := yields_bind.mp yields
  obtain ⟨rfl, rfl⟩ := yields_pure.mp yields
  have second : Continues Atom.Legible compilation.HasLanguage top start :=
    continues_construction (constants_of_empty _ writes.read.legible) _ _ _ constructing
  have third : Continues Atom.Legible compilation.HasLanguage (start.skip 5) last :=
    continues_codomain codomain _ _ _ _ _ checking
  have within : start.Grows compilation.draft :=
    (start.grows_skip 5).trans (third.grows.trans grows)
  rw [List.append_assoc]
  exact uses.readsBound read carries writes (.first found count any first result _) matching
    (second.grows.trans within) constructing within

variable (unmarked : ∀ form ∈ forms, form.Unmarked)

include unmarked

/-- The function of a relation reads what the matchers of its cases bind. -/
theorem relation_readsBound {definition : RelationDefinition} {span : Span}
    (listed : ⟨.relation definition, span⟩ ∈ forms) {function : Symbol}
    (named : compilation.names.relations.find? definition.name = some function) :
    compilation.ClausesReadBound machine host function "t" definition.language
      (definition.cases.map (·.pattern)) := by
  obtain ⟨addition, _, prepared, before, after, follows, yields, grows⟩ :=
    exists_of_mem_left (compilation.contributions read unmarked) listed
  cases follows with
  | @relation _ own domain cases_ named_ guard each =>
    rw [named] at named_
    cases named_
    obtain ⟨_, last, defining, rest⟩ := yields_bind.mp yields
    obtain ⟨_, rfl⟩ := yields_pure.mp rest
    obtain ⟨out, _, _, defining⟩ := yields_bind.mp defining
    obtain ⟨checks, _, _, defining⟩ := yields_bind.mp defining
    obtain ⟨blocks, top, generating, defining⟩ := yields_bind.mp defining
    obtain rfl := yields_modify.mp defining
    have written : ∀ case ∈ definition.cases, Writes forms case.template :=
      fun case among => writes read unmarked listed (List.mem_map_of_mem among)
    have within : top.Grows compilation.draft := (grows_addFunction _ _).trans grows
    refine ⟨assignPrimitive out .newList [] :: checks.flatten, blocks, [.returns (.name out)],
      List.mem_append_right _ (grows.functions _ (List.mem_append_right _ List.mem_cons_self)), ?_⟩
    have generated := exists_yields_of_mapM (fun item among => continues_relationCase
      (compilation.ready_legible read) (suitsCases read each written item among) "t" out) generating
      within
    rw [List.forall₂_map_left_iff]
    refine forall₂_imp_mem (forall₂_through each generated) ?_
    rintro case among block _ ⟨prepared, ⟨uses, same⟩, first, last, yields, grows⟩
    exact readsBound_relationCase read carries uses same (written case among) yields grows

/-- The function of a metafunction reads what the matchers of its cases bind. -/
theorem metafunction_readsBound {definition : MetafunctionDefinition} {span : Span}
    (listed : ⟨.metafunction definition, span⟩ ∈ forms) {function : Symbol}
    (named : compilation.names.metafunctions.find? definition.name = some function) :
    compilation.ClausesReadBound machine host function "args" definition.language
      (definition.cases.map (.sequence ·.arguments)) := by
  obtain ⟨addition, _, prepared, before, after, follows, yields, grows⟩ :=
    exists_of_mem_left (compilation.contributions read unmarked) listed
  cases follows with
  | @metafunction _ own contract cases_ named_ guard each =>
    rw [named] at named_
    cases named_
    obtain ⟨_, last, defining, rest⟩ := yields_bind.mp yields
    obtain ⟨_, rfl⟩ := yields_pure.mp rest
    obtain ⟨checks, _, _, defining⟩ := yields_bind.mp defining
    obtain ⟨codomain, _, _, defining⟩ := yields_bind.mp defining
    obtain ⟨blocks, top, generating, defining⟩ := yields_bind.mp defining
    obtain ⟨failure, final, raising, defining⟩ := yields_bind.mp defining
    obtain rfl := yields_modify.mp defining
    have written : ∀ case ∈ definition.cases, Writes forms case.template :=
      fun case among => writes read unmarked listed (List.mem_map_of_mem among)
    have raised : Continues Atom.Legible compilation.HasLanguage top final :=
      continues_raiseTerm _ _ _ _ _ raising
    have within : top.Grows compilation.draft :=
      raised.grows.trans ((grows_addFunction _ _).trans grows)
    refine ⟨checks.flatten, blocks, failure,
      List.mem_append_right _ (grows.functions _ (List.mem_append_right _ List.mem_cons_self)), ?_⟩
    have generated := exists_yields_of_mapM (fun item among => continues_metafunctionCase
      (compilation.ready_legible read) (suitsCases read each written item among) definition.name
      "args" codomain) generating within
    rw [List.forall₂_map_left_iff]
    refine forall₂_imp_mem (forall₂_through each generated) ?_
    rintro case among block _ ⟨prepared, ⟨uses, same⟩, first, last, yields, grows⟩
    exact readsBound_metafunctionCase read carries uses same (written case among) yields grows

end Cases

end Compilation

/-- Templates read only what the matchers bind, wherever no symbol has the mark of generated names.
Every case of every relation and of every metafunction is compiled to a block that calls a matcher,
and a construction with what the matcher finds. The construction reads nothing but symbols of these
bindings, and every symbol that it reads has a finished value in every match that the matcher
returns. So a call uses no bindings out of turn, wherever no host function has the name of a
function of the program. -/
theorem Accepted.templates_read_bound {source : String} {prints : Bool}
    (accepted : Accepted source prints) (unmarked : ∀ form ∈ accepted.forms, form.Unmarked)
    {host : Host} {limit : Option Nat} {silent : Bool} {loaded : Machine}
    (loads : accepted.program.Loads host limit silent loaded) (store : Store) (calls : CallStack)
    (journal : Journal) :
    (∀ definition span, ⟨.relation definition, span⟩ ∈ accepted.forms → ∃ function,
      accepted.program.relations.find? definition.name = some function ∧
      accepted.compilation.ClausesReadBound (loaded.moved store calls journal) host function "t"
        definition.language (definition.cases.map (·.pattern))) ∧
    (∀ definition span, ⟨.metafunction definition, span⟩ ∈ accepted.forms → ∃ function,
      accepted.program.metafunctions.find? definition.name = some function ∧
      accepted.compilation.ClausesReadBound (loaded.moved store calls journal) host function "args"
        definition.language (definition.cases.map (.sequence ·.arguments))) ∧
    (host.Proper →
      (∀ used ∈ (accepted.compilation.world host).foreigns, ∀ parameters body,
        .define used.1 parameters body ∉ accepted.compilation.draft.functions) →
      ∀ name function, accepted.program.relations.find? name = some function ∨
        accepted.program.metafunctions.find? name = some function →
      ∀ term : Term, term.Proper → ∀ fuel cause after,
        (loaded.moved store calls journal).call fuel function [.term term] ≠
          (.error (.misuse cause), after)) := by
  have ready := accepted.loaded loads
  have carries := ready.carries.moved store calls journal
  have has := accepted.compilation.collects.1.has
  refine ⟨fun definition span listed => ?_, fun definition span listed => ?_, ?_⟩
  · obtain ⟨function, named⟩ := has _ listed
    exact ⟨function, named,
      Compilation.relation_readsBound accepted.read carries unmarked listed named⟩
  · obtain ⟨function, named⟩ := has _ listed
    exact ⟨function, named,
      Compilation.metafunction_readsBound accepted.read carries unmarked listed named⟩
  · intro proper free name function named term counted fuel cause after
    have hosts : accepted.compilation.Hosts (loaded.moved store calls journal) host :=
      (accepted.hosts proper free loads).moved store calls journal
    have collects := accepted.compilation.collects.1
    rcases named with named | named
    · rcases collects.relation name function named with none | ⟨definition, span, listed, rfl⟩
      · cases none
      · exact (hosts.relation_follows accepted.read unmarked listed named counted).defined fuel
          cause after
    · rcases collects.metafunction name function named with none | ⟨definition, span, listed, rfl⟩
      · cases none
      · exact (hosts.metafunction_follows accepted.read unmarked listed named counted).defined fuel
          cause after

theorem templates_read_bound_swapping :
    ∃ (accepted : Accepted swapping false) (loaded : Machine) (relation : RelationDefinition)
      (reduce : Symbol), accepted.program.Loads .empty none true loaded ∧
      accepted.program.relations.find? relation.name = some reduce ∧
      accepted.compilation.ClausesReadBound (loaded.moved .empty (.empty none) loaded.journal) .empty
        reduce "t" relation.language (relation.cases.map (·.pattern)) ∧
      ∀ fuel cause after,
        (loaded.moved .empty (.empty none) loaded.journal).call fuel reduce [.term (.integer 5)] ≠
          (.error (.misuse cause), after) := by
  obtain ⟨accepted, unmarked, hostless, language, metafunction, span, relation, other, same⟩ :=
    exists_swapping
  obtain ⟨loaded, loads, _⟩ := accepted.exists_loads .empty none true
  obtain ⟨relations, _, defined⟩ := accepted.templates_read_bound unmarked loads .empty
    (.empty none) loaded.journal
  obtain ⟨reduce, reduces, reads⟩ := relations relation other (by simp [same])
  exact ⟨accepted, loaded, relation, reduce, loads, reduces, reads,
    defined .empty (by rw [hostless]; nofun) relation.name reduce (.inl reduces) (.integer 5)
      (.atom nofun)⟩

end Program

end Reduct
