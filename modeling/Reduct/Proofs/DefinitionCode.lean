import Reduct.Proofs.ClauseCode

/-!
# The code of relations and metafunctions

The function of a relation gives a list of what its cases give, and the function of a metafunction
what its first case with a match builds. A contract is tested before and after.
-/

namespace Reduct

/-- What a step gives for the item of an option. -/
theorem Draft.yields_mapM_toList {α β : Type} {step : α → Drafting β} {item : Option α}
    {before after : Draft} {results : List β}
    (yields : Draft.Yields (item.toList.mapM step) before results after) :
    (item = none ∧ results = [] ∧ after = before) ∨
      ∃ one result, item = some one ∧ results = [result] ∧
        Draft.Yields (step one) before result after := by
  cases item with
  | none =>
    rw [Option.toList_none, List.mapM_nil] at yields
    obtain ⟨rfl, rfl⟩ := Draft.yields_pure.mp yields
    exact .inl ⟨rfl, rfl, rfl⟩
  | some one =>
    rw [Option.toList_some, List.mapM_cons] at yields
    obtain ⟨result, middle, first, yields⟩ := Draft.yields_bind.mp yields
    obtain ⟨others, last, later, yields⟩ := Draft.yields_bind.mp yields
    rw [List.mapM_nil] at later
    obtain ⟨rfl, rfl⟩ := Draft.yields_pure.mp later
    obtain ⟨rfl, rfl⟩ := Draft.yields_pure.mp yields
    exact .inr ⟨one, result, rfl, rfl, first⟩

namespace Construction

/-- A call gives a new list of terms of a set and only adds to the store. -/
def GivesTerms (store : Store) (admits : List Term → Prop) (value : Value) (after : Store) : Prop :=
  ∃ place terms, value = .list place ∧ admits terms ∧ store.Keeps after ∧
    Display.term.Lists after place terms

end Construction

namespace Program.Compilation

open Draft Statement Construction Attempt Template

variable {forms : List Form} {prints : Bool} {compilation : Compilation forms prints}
  {judgement : Judgement} {machine : Machine} {host : Host} {ends : Prop}
  {apply : Symbol → Term → Attempt Term}

/-- The rounds of a loop over matches add what is built from each of them to a list. -/
theorem buildEach_loops (build : Bindings → Attempt Term) {builder entry built out : Symbol}
    {first second : Nat} (slot : Slot entry first) (next : Slot built second) (above : first < second)
    (older : Older first out) {place : Nat} {found : List Bindings}
    (calls : ∀ bindings ∈ found, ∀ source (store : Store),
      store.cell? source = some (.bindings bindings) → Fine ends judgement.excuses (build bindings) →
      Calls judgement machine builder [.bindings source] store
        (GivesTerm store fun term => build bindings = some (.ok term) ∧ term.Proper))
    (fine : Fine ends judgement.excuses (found.mapM build)) :
    ∀ {values : List Value} {locals : Table Value} {store : Store},
      List.Forall₂ (Display.found.shows store) values found →
      locals.find? out = some (.list place) → Counted store place →
      Loops judgement machine (.each [entry] values
          [assignCall built builder [.name entry], perform .listAppend [.name out, .name built]])
        locals store
        (fun last changed => Fixes first locals last ∧ ∃ terms, found.mapM build = some (.ok terms) ∧
          (∀ term ∈ terms, term.Proper) ∧ Display.term.Appends place store changed terms ∧
          Counted changed place)
        fun _ _ => False := by
  induction found with
  | nil =>
    intro values locals store shown known counted
    cases shown
    obtain ⟨items, held, _⟩ := id counted
    exact .eachNil ⟨.refl _ _, [], rfl, nofun, .nil held (.refl store), counted⟩
  | cons bindings rest ih =>
    intro values locals store shown known counted
    obtain ⟨here, later⟩ := List.forall_mem_cons.mp calls
    obtain ⟨items, held, _⟩ := counted
    cases shown with
    | @cons value _ values _ one others =>
    obtain ⟨source, rfl, bound⟩ := one
    rw [List.mapM_cons] at fine ⊢
    have entered := (Fixes.refl first locals).insert slot (Nat.le_refl _) (.bindings source)
    have round : Runs judgement machine
        [assignCall built builder [.name entry], perform .listAppend [.name out, .name built]]
        (locals.insert entry (.bindings source)) store
        (fun inner changed => Fixes first locals inner ∧ ∃ term, build bindings = some (.ok term) ∧
          term.Proper ∧ Display.term.Appends place store changed [term] ∧ Counted changed place)
        fun _ _ => False := by
      refine Runs.assignCall (Machine.readAll_one
        (Machine.read_name (Table.find?_insert_self _ _ _)))
        (here source store bound fine.of_bind) ?_
      rintro _ changed ⟨term, rfl, ⟨meant, proper⟩, keeps⟩
      have fixed := entered.insert next (Nat.le_of_lt above) (.term term)
      refine Runs.listAppend (Machine.read_name ((fixed out older).trans known)) (keeps _ _ held)
        (Machine.read_name (Table.find?_insert_self _ _ _)) fun room => .nil ?_
      have appended : Display.term.Appends place changed
          (changed.extendList place [.term term]) [term] :=
        Display.appends_extendList (keeps _ _ held) (.cons rfl .nil)
      exact ⟨fixed, term, meant, proper, appended.keeps_left keeps held,
        counted_extendList (keeps _ _ held) room⟩
    refine Loops.eachCons rfl round ?_
    rintro inner changed ⟨fixes, term, meant, proper, appends, counted⟩
    have remaining : Fine ends judgement.excuses (rest.mapM build) :=
      (fine.bind_some meant).of_bind
    refine Loops.weaken (ih later remaining (Display.forall₂_stable appends.bindings others)
      ((fixes out older).trans known) counted) ?_ fun _ _ given => given
    rintro last final ⟨still, terms, all, each, appended, bounded⟩
    refine ⟨fixes.trans still, term :: terms, ?_, List.forall_mem_cons.mpr ⟨proper, each⟩,
      appends.trans appended, bounded⟩
    rw [bind_of_ok meant, bind_of_ok all]
    rfl

/-- Cases that were prepared suit their language. -/
theorem suitsCases (read : ∀ form ∈ forms, form.Read) {α : Type} {language : Symbol}
    {pattern : α → Pattern} {template : α → Template} {cases_ : List α}
    {prepared : List (Prepared × Template)}
    (each : List.Forall₂ (fun case result => compilation.Uses language (pattern case) result.1 ∧
      result.2 = template case) cases_ prepared)
    (writes : ∀ case ∈ cases_, Writes forms (template case)) :
    ∀ item ∈ prepared, compilation.scope.SuitsCase Atom.Legible language item := by
  intro item among
  obtain ⟨case, listed, uses, same⟩ := exists_of_mem_right each among
  exact compilation.suitsCase read uses.made same uses.read uses.read.legible
    (writes case listed).read.legible

section Contracts

variable (read : ∀ form ∈ forms, form.Read) {α : Type} (part : α → Prepared) {language : Symbol}
  {pattern : Option Pattern} {item : Option α}
  (guard : Option.Rel (fun pattern item => compilation.Uses language pattern (part item)) pattern
    item)

include read guard

/-- Compiling the tests of a contract adds to the draft. -/
theorem continues_checks (term : Symbol) (lead : String) :
    Moves (Continues Atom.Legible compilation.HasLanguage) (item.toList.mapM fun item =>
      requireMatch compilation.scope language (part item) term lead) := by
  refine (lenient_continues _ _).mapM fun one among => ?_
  obtain ⟨_, _, uses⟩ := exists_of_mem_rel guard (Option.mem_toList.mp among)
  exact continues_requireMatch (compilation.ready_legible read)
    (compilation.suits read uses.made uses.read uses.read.legible)
    _ _

/-- A term is tested against the pattern of a contract, if there is one. -/
theorem Supports.checks_runs (supports : compilation.Supports judgement machine host ends apply)
    {term lead : Symbol} {before after : Draft} {checks : List (List Statement)}
    (yields : Yields (item.toList.mapM fun item =>
      requireMatch compilation.scope language (part item) term lead) before checks after)
    (grows : after.Grows compilation.draft) (older : Older before.localCount term)
    {content : Term} (proper : content.Proper) {locals : Table Value} {store : Store}
    (known : locals.find? term = some (.term content))
    (fine : Fine ends judgement.excuses
      ((compilation.world host).require language lead content pattern))
    {gives : Value → Store → Prop} :
    Runs judgement machine checks.flatten locals store
      (fun last changed => Fixes before.localCount locals last ∧ store.Keeps changed ∧
        (compilation.world host).require language lead content pattern = some (.ok ()))
      gives := by
  rcases yields_mapM_toList yields with ⟨rfl, rfl, rfl⟩ | ⟨one, code, rfl, rfl, tested⟩
  · cases guard
    exact .nil ⟨.refl _ _, .refl store, rfl⟩
  · cases guard with
    | some uses =>
      rw [List.flatten_cons, List.flatten_nil, List.append_nil]
      exact supports.requireMatch_runs read uses tested grows older proper known fine

end Contracts

section Relations

variable (read : ∀ form ∈ forms, form.Read)
  (supports : compilation.Supports judgement machine host ends apply)

include read supports

/-- The code of a case of a relation adds the results of the case to a list. -/
theorem Supports.relationCase_runs {language : Symbol} {case : ReductionCase}
    {prepared : Prepared × Template} (uses : compilation.Uses language case.pattern prepared.1)
    (same : prepared.2 = case.template) (writes : Writes forms case.template)
    {term out : Symbol} {before after : Draft} {code : List Statement}
    (yields : Yields (relationCase compilation.scope language term out prepared) before code after)
    (grows : after.Grows compilation.draft) (older : Older before.localCount out)
    {locals : Table Value} {store : Store} {place : Nat} {content : Term} (proper : content.Proper)
    (known : locals.find? term = some (.term content))
    (listed : locals.find? out = some (.list place)) (counted : Counted store place)
    (fine : Fine ends judgement.excuses
      ((compilation.world host).caseResults apply language content case)) :
    Contributes judgement machine Term.Proper code before.localCount locals store place fun terms =>
      (compilation.world host).caseResults apply language content case = some (.ok terms) := by
  obtain ⟨_, _, found, _, _, searched, _⟩ := uses.exists_found read host content
  obtain ⟨matcher, top, matching, yields⟩ := yields_bind.mp yields
  obtain ⟨builder, start, constructing, yields⟩ := yields_bind.mp yields
  rw [same] at constructing
  rw [← Draft.skip_zero start] at yields
  obtain ⟨list, slot, yields⟩ := yields_local (by decide) (by decide) yields
  obtain ⟨entry, slot1, yields⟩ := yields_local (by decide) (by decide) yields
  obtain ⟨built, slot2, yields⟩ := yields_local (by decide) (by decide) yields
  obtain ⟨rfl, rfl⟩ := yields_pure.mp yields
  have first : Continues Atom.Legible compilation.HasLanguage before top :=
    uses.continues_topMatcher read _ _ _ matching
  have second : Continues Atom.Legible compilation.HasLanguage top start :=
    continues_construction (Template.constants_of_empty _
      writes.read.legible) _ _ _ constructing
  have within : start.Grows compilation.draft := (start.grows_skip 3).trans grows
  have le := first.grows.localCount
  have more := second.grows.localCount
  rw [World.caseResults, bind_of_ok searched] at fine
  refine Runs.assignCall (Machine.readAll_one (Machine.read_name known))
    (supports.topMatcher_calls read uses matching (second.grows.trans within) proper searched
      store) ?_
  rintro _ changed ⟨source, _, rfl, free, found_, keeps, values, held, shown⟩
  cases found_
  have fixed := (Fixes.refl before.localCount locals).insert slot (by omega) (.list source)
  obtain ⟨items, there, small⟩ := counted
  have loops := buildEach_loops ((compilation.world host).built apply language case.pattern
    case.template) slot1 slot2 (by omega) (older.mono (by omega))
    (fun bindings among source store held fine =>
      supports.built_calls read uses writes constructing within proper searched among held fine) fine
    shown ((fixed out older).trans listed) ⟨items, keeps _ _ there, small⟩
  refine Runs.forEach (Table.find?_insert_self _ _ _) held loops ?_
  rintro last final ⟨fixes, terms, all, each, appends, bounded⟩
  refine .nil ⟨fixed.trans (fixes.mono (by omega)), terms, ?_, each,
    appends.keeps_left keeps there, bounded⟩
  rw [World.caseResults, bind_of_ok searched, all]

/-- The code of the cases of a relation adds the results of the cases to a list, in order. -/
theorem Supports.relationCases_runs {language : Symbol} {cases_ : List ReductionCase}
    {prepared : List (Prepared × Template)}
    (each : List.Forall₂ (fun case result => compilation.Uses language case.pattern result.1 ∧
      result.2 = case.template) cases_ prepared)
    (writes : ∀ case ∈ cases_, Writes forms case.template) {term out : Symbol} {content : Term}
    (proper : content.Proper)
    (fine : Fine ends judgement.excuses
      (cases_.mapM ((compilation.world host).caseResults apply language content))) :
    ∀ {before after : Draft} {codes : List (List Statement)},
      Yields (prepared.mapM (relationCase compilation.scope language term out)) before codes after →
      after.Grows compilation.draft → Older before.localCount out → Older before.localCount term →
      ∀ {locals : Table Value} {store : Store} {place : Nat},
        locals.find? term = some (.term content) → locals.find? out = some (.list place) →
        Counted store place →
        Contributes judgement machine Term.Proper codes.flatten before.localCount locals store place
          fun terms => ∃ results, cases_.mapM
            ((compilation.world host).caseResults apply language content) = some (.ok results) ∧
              terms = results.flatten := by
  induction each with
  | nil =>
    intro before after codes yields _ _ _ locals store place _ _ counted
    rw [List.mapM_nil] at yields
    obtain ⟨rfl, rfl⟩ := yields_pure.mp yields
    obtain ⟨items, held, _⟩ := id counted
    exact .nil ⟨.refl _ _, [], ⟨[], rfl, rfl⟩, nofun, .nil held (.refl store), counted⟩
  | @cons case result rest others first further_ ih =>
    intro before after codes yields grows older fresh locals store place known listed counted
    obtain ⟨here, later⟩ := List.forall_mem_cons.mp writes
    rw [List.mapM_cons] at yields fine
    obtain ⟨code, middle, now, yields⟩ := yields_bind.mp yields
    obtain ⟨codes, last, then_, yields⟩ := yields_bind.mp yields
    obtain ⟨rfl, rfl⟩ := yields_pure.mp yields
    have going : Continues Atom.Legible compilation.HasLanguage before middle :=
      continues_relationCase (compilation.ready_legible read)
        (compilation.suitsCase read first.1.made first.2 first.1.read first.1.read.legible
          here.read.legible) _ _ _ _ _ now
    have further : Continues Atom.Legible compilation.HasLanguage middle last :=
      (lenient_continues _ _).mapM (fun item among => continues_relationCase
        (compilation.ready_legible read) (suitsCases read further_ later item among) _ _) _ _ _ then_
    have le := going.grows.localCount
    have others : ∀ inner changed front, Fixes before.localCount locals inner →
        Store.KeepsBut place store changed → Counted changed place →
        (compilation.world host).caseResults apply language content case = some (.ok front) →
        Contributes judgement machine Term.Proper codes.flatten middle.localCount inner changed place
          fun terms => ∃ results, rest.mapM
            ((compilation.world host).caseResults apply language content) = some (.ok results) ∧
              terms = results.flatten := by
      intro inner changed front fixes _ bounded meant
      exact ih later (fine.bind_some meant).of_bind then_ grows (older.mono le) (fresh.mono le)
        ((fixes term fresh).trans known) ((fixes out older).trans listed) bounded
    refine (supports.relationCase_runs read first.1 first.2 here now (further.grows.trans grows)
      older proper known listed counted fine.of_bind).append le others ?_
    rintro front _ meant ⟨results, all, rfl⟩
    refine ⟨front :: results, ?_, rfl⟩
    rw [List.mapM_cons, bind_of_ok meant, bind_of_ok all]
    rfl

/-- A list is made, and the code of a relation gives it with the results of its cases. -/
theorem Supports.relation_runs {definition : RelationDefinition} {function : Symbol}
    {domain : Option Prepared} {cases_ : List (Prepared × Template)}
    (guard : Option.Rel (compilation.Uses definition.language) definition.domain domain)
    (each : List.Forall₂ (fun case result => compilation.Uses definition.language case.pattern
      result.1 ∧ result.2 = case.template) definition.cases cases_)
    (writes : ∀ case ∈ definition.cases, Writes forms case.template)
    {before after : Draft}
    (yields : Yields (relation compilation.scope definition.name function definition.language domain
      cases_) before ⟨⟩ after)
    (grows : after.Grows compilation.draft) {content : Term} (proper : content.Proper)
    (fine : Fine ends judgement.excuses
      ((compilation.world host).related apply definition content)) (store : Store) :
    Performs judgement machine function [.term content] store (GivesTerms store fun terms =>
      (compilation.world host).related apply definition content = some (.ok terms) ∧
        ∀ term ∈ terms, term.Proper) := by
  rw [relation, ← Draft.skip_zero before] at yields
  obtain ⟨out, slot, yields⟩ := yields_local (by decide) (by decide) yields
  obtain ⟨checks, middle, checking, yields⟩ := yields_bind.mp yields
  obtain ⟨results, last, building, yields⟩ := yields_bind.mp yields
  obtain rfl := yields_modify.mp yields
  refine ⟨_, supports.carries.functions _ _ _ (grows.functions _ (List.mem_append_right _
    List.mem_cons_self)), rfl, ?_⟩
  have building_ : Continues Atom.Legible compilation.HasLanguage middle last :=
    (lenient_continues _ _).mapM (fun item among => continues_relationCase
      (compilation.ready_legible read) (suitsCases read each writes item among) _ _) _ _ _ building
  have within : last.Grows compilation.draft := (grows_addFunction _ _).trans grows
  have checking_ : Continues Atom.Legible compilation.HasLanguage (before.skip 1) middle :=
    continues_checks read id guard _ _ _ _ _ checking
  have le := checking_.grows.localCount
  rw [Draft.localCount_skip] at le
  have plain : ∀ count, Older count "t" := older_of_endsPlain (by decide)
  let start : Table Value := Table.insert (.ofList [("t", .term content)]) out (.list store.size)
  have listed : start.find? out = some (.list store.size) := Table.find?_insert_self _ _ _
  have known : start.find? "t" = some (.term content) :=
    Table.find?_insert_ne _ _ ((plain _).ne slot (Nat.le_refl _))
  rw [World.related] at fine
  have held := store.cell?_addCell_self (.list #[])
  have keeps := store.keeps_addCell (.list #[])
  rw [List.cons_append, List.cons_append]
  refine Runs.newList ?_
  rw [List.append_assoc]
  refine Runs.append (supports.checks_runs read id guard checking
    (building_.grows.trans within) (plain _) proper known fine.of_bind) ?_
  rintro inner changed ⟨fixes, kept, required⟩
  have found : inner.find? out = some (.list store.size) :=
    (fixes out (slot.older (Nat.lt_succ_self _))).trans listed
  have results_ := supports.relationCases_runs read each writes proper
    (fine.bind_some required).of_bind building within (slot.older (by omega)) (plain _)
    ((fixes "t" (plain _)).trans known) found ⟨#[], kept _ _ held, Nat.zero_le _⟩
  refine Runs.append (Runs.weaken results_ (fun _ _ reached => reached) fun _ _ => False.elim) ?_
  rintro last_ final ⟨still, terms, ⟨lists, all, rfl⟩, properly, appends, _⟩
  refine Runs.returns (Machine.read_name ((still out (slot.older (by omega))).trans found)) ?_
  refine ⟨store.size, _, rfl, ⟨?_, properly⟩, ?_, ?_⟩
  · rw [World.related, bind_of_ok required, bind_of_ok all]
    rfl
  · exact (keeps.trans kept).trans_but store.cell?_size appends.kept
  · exact (Display.lists_nil (kept _ _ held)).appends appends

end Relations

section Metafunctions

variable (read : ∀ form ∈ forms, form.Read)
  (supports : compilation.Supports judgement machine host ends apply)

/-- A result that is in the codomain, if there is one. -/
noncomputable def checked (compilation : Compilation forms prints) (host : Host) (language : Symbol)
    (lead : String) (codomain : Option Pattern) (result : Term) : Attempt Term := do
  (compilation.world host).require language lead result codomain
  pure result

/-- The matcher of a codomain was compiled. -/
def Matches (compilation : Compilation forms prints) (language : Symbol) (pattern : Pattern)
    (matcher : Symbol) : Prop :=
  ∃ prepared, compilation.Uses language pattern prepared ∧ ∃ before top,
    Yields (topMatcher compilation.scope language prepared) before matcher top ∧
      top.Grows compilation.draft

include read supports

/-- A result is tested against a codomain, if there is one. -/
theorem Supports.codomain_runs {language : Symbol} {pattern : Option Pattern}
    {matcher : Option Symbol} (guard : Option.Rel (compilation.Matches language) pattern matcher)
    {lead result : Symbol} {before after : Draft} {codes : List (List Statement)}
    (yields : Yields (matcher.toList.mapM fun codomain => do
      let check ← freshLocal "ok"
      let test ← matchesAny codomain result check
      let failure ← raiseTerm lead result
      pure (test ++ [whenFalse check failure])) before codes after)
    (older : Older before.localCount result) {content : Term} (proper : content.Proper)
    {locals : Table Value} {store : Store} (known : locals.find? result = some (.term content))
    (fine : Fine ends judgement.excuses
      ((compilation.world host).require language lead content pattern))
    {gives : Value → Store → Prop} :
    Runs judgement machine codes.flatten locals store
      (fun last changed => Fixes before.localCount locals last ∧ store.Keeps changed ∧
        (compilation.world host).require language lead content pattern = some (.ok ()))
      gives := by
  rcases yields_mapM_toList yields with ⟨rfl, rfl, rfl⟩ | ⟨one, code, rfl, rfl, tested⟩
  · cases guard
    exact .nil ⟨.refl _ _, .refl store, rfl⟩
  · cases guard with
    | some compiled =>
      obtain ⟨prepared, uses, start, top, matching, grows⟩ := compiled
      rw [← Draft.skip_zero before] at tested
      obtain ⟨check, slot, tested⟩ := yields_local (by decide) (by decide) tested
      obtain ⟨test, middle, testing, tested⟩ := yields_bind.mp tested
      obtain ⟨failure, last, raising, tested⟩ := yields_bind.mp tested
      obtain ⟨rfl, rfl⟩ := yields_pure.mp tested
      rw [List.flatten_cons, List.flatten_nil, List.append_nil]
      exact supports.guard_runs read uses ⟨start, top, matching, grows⟩ slot testing raising
        (Nat.lt_succ_self _) older proper known fine

/-- The code of a case of a metafunction gives what the case builds from the first match, if there
is a match. -/
theorem Supports.metafunctionCase_runs {definition : MetafunctionDefinition}
    {case : MetafunctionCase} {prepared : Prepared × Template} {codomain : Option Pattern}
    {matcher : Option Symbol}
    (guard : Option.Rel (compilation.Matches definition.language) codomain matcher)
    (uses : compilation.Uses definition.language (.sequence case.arguments) prepared.1)
    (same : prepared.2 = case.template) (writes : Writes forms case.template)
    {arguments : Symbol} {before after : Draft} {code : List Statement}
    (yields : Yields (metafunctionCase compilation.scope definition.name definition.language
      arguments matcher prepared) before code after)
    (grows : after.Grows compilation.draft) {content : Term} (proper : content.Proper)
    {locals : Table Value} {store : Store}
    (known : locals.find? arguments = some (.term content)) {rest : Attempt Term}
    {cases_ : List MetafunctionCase} {lead : String}
    (unmatched : (compilation.world host).firstCase apply definition.language lead content cases_ =
      rest)
    (fine : Fine ends judgement.excuses (((compilation.world host).firstCase apply
      definition.language lead content (case :: cases_)) >>=
        compilation.checked host definition.language
          (definition.name ++ ": result not in codomain: ") codomain)) :
    Runs judgement machine code locals store
      (fun last changed => Fixes before.localCount locals last ∧ store.Keeps changed ∧
        (compilation.world host).firstCase apply definition.language lead content
          (case :: cases_) = rest)
      (GivesTerm store fun result => ((compilation.world host).firstCase apply definition.language
        lead content (case :: cases_) >>= compilation.checked host definition.language
          (definition.name ++ ": result not in codomain: ") codomain) = some (.ok result) ∧
            result.Proper) := by
  obtain ⟨_, _, found, _, _, searched, _⟩ := uses.exists_found read host content
  obtain ⟨top_, top, matching, yields⟩ := yields_bind.mp yields
  obtain ⟨builder, start, constructing, yields⟩ := yields_bind.mp yields
  rw [same] at constructing
  rw [← Draft.skip_zero start] at yields
  obtain ⟨list, slot, yields⟩ := yields_local (by decide) (by decide) yields
  obtain ⟨count, slot1, yields⟩ := yields_local (by decide) (by decide) yields
  obtain ⟨any, slot2, yields⟩ := yields_local (by decide) (by decide) yields
  obtain ⟨first, slot3, yields⟩ := yields_local (by decide) (by decide) yields
  obtain ⟨result, slot4, yields⟩ := yields_local (by decide) (by decide) yields
  obtain ⟨checks, last, checking, yields⟩ := yields_bind.mp yields
  obtain ⟨rfl, rfl⟩ := yields_pure.mp yields
  have one : Continues Atom.Legible compilation.HasLanguage before top :=
    uses.continues_topMatcher read _ _ _ matching
  have two : Continues Atom.Legible compilation.HasLanguage top start :=
    continues_construction (Template.constants_of_empty _
      writes.read.legible) _ _ _ constructing
  have three : Continues Atom.Legible compilation.HasLanguage (start.skip 5) last :=
    continues_codomain matcher _ _ _ _ _ checking
  have within : start.Grows compilation.draft :=
    (start.grows_skip 5).trans (three.grows.trans grows)
  have le := one.grows.localCount
  have more := two.grows.localCount
  rw [World.firstCase, bind_of_ok searched] at fine ⊢
  refine findsAny_runs (Machine.read_name known) (supports.topMatcher_calls read uses matching
    (two.grows.trans within) proper searched store) ?_
  intro place changed free keeps lists
  have fixes : Fixes before.localCount locals (((locals.insert list (.list place)).insert count
      (.int (wordOfCount found.length))).insert any (.bool (!found.isEmpty))) :=
    (((Fixes.refl before.localCount locals).insert slot (by omega) _).insert slot1 (by omega)
      _).insert slot2 (by omega) _
  cases found with
  | nil =>
    refine Runs.whenTrue (fun last changed => Fixes before.localCount locals last ∧
      store.Keeps changed) (Table.find?_insert_self _ _ _) nofun (fun _ => ⟨fixes, keeps⟩) ?_
    rintro last changed ⟨fixed, kept⟩
    exact .nil ⟨fixed, kept, unmatched⟩
  | cons bindings others =>
    refine Runs.whenTrue (fun _ _ => False) (Table.find?_insert_self _ _ _) (fun _ => ?_) nofun
      fun _ _ => False.elim
    have parted : Display.found.Lists changed place ([] ++ bindings :: others) := lists
    obtain ⟨items, value, held, there, _, source, rfl, bound⟩ := parted.exists_get
    rw [List.cons_append, List.cons_append, List.cons_append, List.nil_append]
    have listed : (((locals.insert list (.list place)).insert count
        (.int (wordOfCount (bindings :: others).length))).insert any (.bool true)).find? list =
          some (.list place) := by
      rw [Table.find?_insert_ne _ _ (slot2.ne slot (by omega)),
        Table.find?_insert_ne _ _ (slot1.ne slot (by omega)), Table.find?_insert_self]
    refine Runs.listGet (Nat.zero_le _) (Machine.read_name listed) held rfl there ?_
    refine Runs.assignCall (Machine.readAll_one
      (Machine.read_name (Table.find?_insert_self _ _ _)))
      (supports.built_calls read uses writes constructing within proper searched
        List.mem_cons_self bound fine.of_bind) ?_
    rintro _ grown ⟨term, rfl, ⟨meant, properly⟩, kept⟩
    have tail := fine.bind_some meant
    refine Runs.append (supports.codomain_runs read guard checking (slot4.older (by
      rw [Draft.localCount_skip]
      omega)) properly (Table.find?_insert_self _ _ _) tail.of_bind) ?_
    rintro final later ⟨fixed, keeps_, required⟩
    refine Runs.returns (Machine.read_name ((fixed result (slot4.older (by
      rw [Draft.localCount_skip]
      omega))).trans (Table.find?_insert_self _ _ _))) ?_
    refine ⟨term, rfl, ⟨?_, properly⟩, keeps.trans (kept.trans keeps_)⟩
    rw [bind_of_ok meant, checked, bind_of_ok required]
    rfl

/-- The code of the cases of a metafunction gives what the first case with a match builds, and
raises a message if there is none. -/
theorem Supports.metafunctionCases_runs {definition : MetafunctionDefinition}
    {codomain : Option Pattern} {matcher : Option Symbol}
    (guard : Option.Rel (compilation.Matches definition.language) codomain matcher)
    {cases_ : List MetafunctionCase} {prepared : List (Prepared × Template)}
    (each : List.Forall₂ (fun case result => compilation.Uses definition.language
      (.sequence case.arguments) result.1 ∧ result.2 = case.template) cases_ prepared)
    (writes : ∀ case ∈ cases_, Writes forms case.template) {arguments : Symbol} {content : Term}
    (proper : content.Proper) {lead : String}
    (fine : Fine ends judgement.excuses (((compilation.world host).firstCase apply
      definition.language lead content cases_) >>= compilation.checked host definition.language
        (definition.name ++ ": result not in codomain: ") codomain)) :
    ∀ {before middle after : Draft} {codes : List (List Statement)} {failure : List Statement},
      Yields (prepared.mapM (metafunctionCase compilation.scope definition.name definition.language
        arguments matcher)) before codes middle →
      Yields (raiseTerm lead arguments) middle failure after → after.Grows compilation.draft →
      Older before.localCount arguments →
      ∀ {locals : Table Value} {store : Store}, locals.find? arguments = some (.term content) →
        Runs judgement machine (codes.flatten ++ failure) locals store (fun _ _ => False)
          (GivesTerm store fun result => ((compilation.world host).firstCase apply
            definition.language lead content cases_ >>= compilation.checked host definition.language
              (definition.name ++ ": result not in codomain: ") codomain) = some (.ok result) ∧
                result.Proper) := by
  induction each with
  | nil =>
    intro before middle after codes failure yields raising _ _ locals store known
    rw [List.mapM_nil] at yields
    obtain ⟨rfl, rfl⟩ := yields_pure.mp yields
    exact raiseTerm_runs raising (Machine.read_name known) (fine.2 _ rfl)
  | @cons case result rest others first each ih =>
    intro before middle after codes failure yields raising grows older locals store known
    obtain ⟨here, later⟩ := List.forall_mem_cons.mp writes
    rw [List.mapM_cons] at yields
    obtain ⟨code, start, now, yields⟩ := yields_bind.mp yields
    obtain ⟨codes, last, then_, yields⟩ := yields_bind.mp yields
    obtain ⟨rfl, rfl⟩ := yields_pure.mp yields
    have one : Continues Atom.Legible compilation.HasLanguage before start :=
      continues_metafunctionCase (compilation.ready_legible read)
        (compilation.suitsCase read first.1.made first.2 first.1.read first.1.read.legible
          here.read.legible) _ _ _ _ _ _ now
    have two : Continues Atom.Legible compilation.HasLanguage start last :=
      (lenient_continues _ _).mapM (fun item among => continues_metafunctionCase
        (compilation.ready_legible read) (suitsCases read each later item among) _ _ _) _ _ _ then_
    have three : Continues Atom.Legible compilation.HasLanguage last after :=
      continues_raiseTerm _ _ _ _ _ raising
    have le := one.grows.localCount
    rw [List.flatten_cons, List.append_assoc]
    refine Runs.append (supports.metafunctionCase_runs read guard first.1 first.2 here now
      (two.grows.trans (three.grows.trans grows)) proper known rfl fine) ?_
    rintro inner changed ⟨fixes, keeps, same⟩
    rw [same] at fine ⊢
    refine Runs.weaken (ih later fine then_ raising grows (older.mono le)
      ((fixes arguments older).trans known)) (fun _ _ reached => reached) ?_
    rintro value final ⟨term, given, meant, kept⟩
    exact ⟨term, given, meant, keeps.trans kept⟩

omit supports

/-- A metafunction has a function, and its code gives what the metafunction comes to. -/
theorem metafunction_runs (host : Host) {definition : MetafunctionDefinition} {function : Symbol}
    {contract : Option (Prepared × Prepared)} {cases_ : List (Prepared × Template)}
    (guard : Option.Rel (fun written result =>
      compilation.Uses definition.language (.sequence written.domain) result.1 ∧
        compilation.Uses definition.language written.codomain result.2) definition.contract contract)
    (each : List.Forall₂ (fun case result => compilation.Uses definition.language
      (.sequence case.arguments) result.1 ∧ result.2 = case.template) definition.cases cases_)
    (writes : ∀ case ∈ definition.cases, Writes forms case.template)
    {before after : Draft}
    (yields : Yields (metafunction compilation.scope definition.name function definition.language
      contract cases_) before ⟨⟩ after)
    (grows : after.Grows compilation.draft) :
    ∃ body, .define function ["args"] body ∈ compilation.draft.functions ∧
      ∀ {judgement : Judgement} {machine : Machine} {ends : Prop}
        {apply : Symbol → Term → Attempt Term},
        compilation.Supports judgement machine host ends apply → ∀ {content : Term},
        content.Proper → Fine ends judgement.excuses
          ((compilation.world host).applied apply definition content) → ∀ store,
        Runs judgement machine body (.ofList [("args", .term content)]) store (fun _ _ => False)
          (GivesTerm store fun term =>
            (compilation.world host).applied apply definition content = some (.ok term) ∧
              term.Proper) := by
  obtain ⟨checks, middle, checking, yields⟩ := yields_bind.mp yields
  obtain ⟨matcher, top, matching, yields⟩ := yields_bind.mp yields
  obtain ⟨attempts, last, trying, yields⟩ := yields_bind.mp yields
  obtain ⟨failure, final, raising, yields⟩ := yields_bind.mp yields
  obtain rfl := yields_modify.mp yields
  refine ⟨_, grows.functions _ (List.mem_append_right _ List.mem_cons_self), ?_⟩
  intro judgement machine ends apply supports content proper fine store
  have suited : ∀ patterns ∈ contract,
      compilation.scope.Suits Atom.Legible definition.language patterns.1 ∧
      compilation.scope.Suits Atom.Legible definition.language patterns.2 := by
    intro patterns among
    obtain ⟨_, _, left, right⟩ := exists_of_mem_rel guard among
    exact ⟨compilation.suits read left.made left.read left.read.legible,
      compilation.suits read right.made right.read right.read.legible⟩
  have domain : Option.Rel (fun pattern item => compilation.Uses definition.language pattern
      (Prod.fst item)) (definition.contract.map fun contract => .sequence contract.domain)
      contract := by
    revert guard
    generalize definition.contract = written
    rintro (both | _)
    · exact .some both.1
    · exact .none
  have one : Continues Atom.Legible compilation.HasLanguage before middle :=
    continues_checks read Prod.fst domain _ _ _ _ _ checking
  have two : Continues Atom.Legible compilation.HasLanguage middle top := by
    cases contract with
    | none => exact (lenient_continues _ _).pure _ _ _ _ matching
    | some patterns =>
      exact (lenient_continues _ _).bind (continues_topMatcher (compilation.ready_legible read)
        (suited patterns rfl).2) (fun _ => (lenient_continues _ _).pure _) _ _ _ matching
  have three : Continues Atom.Legible compilation.HasLanguage top last :=
    (lenient_continues _ _).mapM (fun item among => continues_metafunctionCase
      (compilation.ready_legible read) (suitsCases read each writes item among) _ _ _) _ _ _ trying
  have four : Continues Atom.Legible compilation.HasLanguage last final :=
    continues_raiseTerm _ _ _ _ _ raising
  have within : final.Grows compilation.draft := (grows_addFunction _ _).trans grows
  have inside : top.Grows compilation.draft := three.grows.trans (four.grows.trans within)
  have codomain : Option.Rel (compilation.Matches definition.language)
      (definition.contract.map (·.codomain)) matcher := by
    revert guard
    generalize definition.contract = written
    rintro (both | _)
    · obtain ⟨name, final, compiled, yields⟩ := yields_bind.mp matching
      obtain ⟨rfl, rfl⟩ := yields_pure.mp yields
      exact .some ⟨_, both.2, _, _, compiled, inside⟩
    · obtain ⟨rfl, rfl⟩ := yields_pure.mp matching
      exact .none
  have plain : ∀ count, Older count "args" := older_of_endsPlain (by decide)
  have known : (Table.ofList [(("args" : Symbol), Value.term content)]).find? "args" =
      some (.term content) := rfl
  rw [List.append_assoc]
  rw [World.applied] at fine
  refine Runs.append (supports.checks_runs read Prod.fst domain checking (two.grows.trans inside) (plain _)
    proper known fine.of_bind) ?_
  rintro inner changed ⟨fixes, keeps, required⟩
  refine Runs.weaken (supports.metafunctionCases_runs read codomain each writes proper
    (fine.bind_some required) trying raising within (plain _)
    ((fixes "args" (plain _)).trans known)) (fun _ _ reached => reached) ?_
  rintro value last_ ⟨term, given, ⟨meant, properly⟩, kept⟩
  refine ⟨term, given, ⟨?_, properly⟩, keeps.trans kept⟩
  rw [World.applied, bind_of_ok required]
  exact meant

end Metafunctions

section Definitions

variable (read : ∀ form ∈ forms, form.Read) (unmarked : ∀ form ∈ forms, form.Unmarked)

include read unmarked

/-- What a form adds to a program: its code was generated from its patterns as they were
prepared. -/
def Contribution (compilation : Compilation forms prints) (form : Form) (addition : Addition) :
    Prop :=
  ∃ prepared before after, Follows compilation.names compilation.Uses form.body prepared ∧
    Yields (generate compilation.scope form.span prepared) before addition after ∧
      after.Grows compilation.draft

/-- Every form adds to the program. -/
theorem contributions : List.Forall₂ compilation.Contribution forms compilation.additions := by
  obtain ⟨_, _, _, generated⟩ := compilation.final read (Form.composed_of_read read)
  have joined : ∀ {some : List Form} {prepared : List PreparedForm} {additions : List Addition},
      List.Forall₂ (fun form => Follows compilation.names compilation.Uses form.body) some prepared →
      List.Forall₂ (Generated compilation.scope compilation.HasLanguage compilation.draft)
        (some.zip prepared) additions →
      List.Forall₂ compilation.Contribution some additions := by
    intro some prepared additions follows
    induction follows generalizing additions with
    | nil =>
      intro all
      cases all
      exact .nil
    | cons first _ ih =>
      intro all
      cases all with
      | cons here later =>
        obtain ⟨before, after, _, _, yields, grows⟩ := here
        exact .cons ⟨_, before, after, first, yields, grows⟩ (ih later)
  exact joined (compilation.uses read unmarked) generated

/-- Every metafunction has a definition, and a function that does what the definition means. -/
theorem metafunction_code (host : Host) {name target : Symbol}
    (found : compilation.names.metafunctions.find? name = some target) :
    ∃ definition body, (compilation.world host).metafunction? name = some definition ∧
      .define target ["args"] body ∈ compilation.draft.functions ∧
      ∀ {judgement : Judgement} {machine : Machine} {ends : Prop}
        {apply : Symbol → Term → Attempt Term},
        compilation.Supports judgement machine host ends apply → ∀ {content : Term},
        content.Proper → Fine ends judgement.excuses
          ((compilation.world host).applied apply definition content) → ∀ store,
        Runs judgement machine body (.ofList [("args", .term content)]) store (fun _ _ => False)
          (GivesTerm store fun term =>
            (compilation.world host).applied apply definition content = some (.ok term) ∧
              term.Proper) := by
  have known : ((compilation.world host).metafunction? name).isSome = true := by
    rcases compilation.collects.1.metafunction name target found with
      none | ⟨definition, span, listed, called⟩
    · cases none
    · refine List.find?_isSome.mpr ⟨definition, List.mem_filterMap.mpr ⟨_, listed, rfl⟩, ?_⟩
      exact decide_eq_true called
  obtain ⟨definition, there⟩ := Option.isSome_iff_exists.mp known
  obtain ⟨called, span, listed⟩ := World.exists_of_metafunction? there
  obtain ⟨addition, _, prepared, before, after, follows, yields, grows⟩ :=
    exists_of_mem_left (compilation.contributions read unmarked) listed
  cases follows with
  | @metafunction _ function contract cases_ named guard each =>
    rw [called, found] at named
    cases named
    obtain ⟨_, last, defining, rest⟩ := yields_bind.mp yields
    obtain ⟨_, rfl⟩ := yields_pure.mp rest
    obtain ⟨body, written, runs⟩ := metafunction_runs read host guard each
      (fun case among => writes read unmarked listed (List.mem_map_of_mem among)) defining grows
    exact ⟨definition, body, there, written, runs⟩

/-- The function of a relation gives what the relation comes to. -/
theorem Supports.relation_performs
    (supports : compilation.Supports judgement machine host ends apply)
    {definition : RelationDefinition} {span : Span}
    (listed : ⟨.relation definition, span⟩ ∈ forms) {function : Symbol}
    (named : compilation.names.relations.find? definition.name = some function) {content : Term}
    (proper : content.Proper) (fine : Fine ends judgement.excuses
      ((compilation.world host).related apply definition content)) (store : Store) :
    Performs judgement machine function [.term content] store (GivesTerms store fun terms =>
      (compilation.world host).related apply definition content = some (.ok terms) ∧
        ∀ term ∈ terms, term.Proper) := by
  obtain ⟨addition, _, prepared, before, after, follows, yields, grows⟩ :=
    exists_of_mem_left (compilation.contributions read unmarked) listed
  cases follows with
  | @relation _ own domain cases_ named_ guard each =>
    rw [named] at named_
    cases named_
    obtain ⟨_, last, defining, rest⟩ := yields_bind.mp yields
    obtain ⟨_, rfl⟩ := yields_pure.mp rest
    exact supports.relation_runs read guard each
      (fun case among => writes read unmarked listed (List.mem_map_of_mem among)) defining grows
      proper fine store

end Definitions

end Program.Compilation

end Reduct
