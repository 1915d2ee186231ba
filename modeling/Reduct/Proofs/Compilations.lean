import Reduct.Compile.Program
import Reduct.Proofs.TopMatches
import Reduct.Proofs.WrittenForms

/-!
# The stages of a compilation

A specification that is accepted has passed three stages: its names are defined, its patterns
are prepared, and its code is generated. Each stage is taken apart once. The languages of a table
only move on while patterns are prepared, so a pattern that was prepared at some time is prepared
for the languages as they are at the end.
-/

namespace Reduct

/-- The name that a form defines. -/
def FormBody.defined? : FormBody → Option Symbol
  | .language definition => some definition.name
  | .relation definition => some definition.name
  | .metafunction definition => some definition.name
  | _ => none

namespace Program

open Draft

/-- A step of the preparation succeeds with a result. -/
def Leads {α : Type} (action : Preparing α) (before : Table Language) (result : α)
    (after : Table Language) : Prop :=
  action.run before = .ok (result, after)

section Actions

variable {α β : Type} {before after : Table Language}

theorem leads_bind {first : Preparing α} {next : α → Preparing β} {result : β} :
    Leads (first >>= next) before result after ↔
      ∃ value middle, Leads first before value middle ∧ Leads (next value) middle result after := by
  unfold Leads
  rw [StateT.run_bind]
  constructor
  · intro ran
    obtain ⟨⟨value, middle⟩, one, two⟩ := Except.bind_eq_ok.mp ran
    exact ⟨value, middle, one, two⟩
  · rintro ⟨value, middle, one, two⟩
    exact Except.bind_eq_ok.mpr ⟨(value, middle), one, two⟩

theorem leads_pure {value result : α} :
    Leads (pure value) before result after ↔ value = result ∧ before = after := by
  unfold Leads
  constructor
  · rintro ⟨⟩
    exact ⟨rfl, rfl⟩
  · rintro ⟨rfl, rfl⟩
    rfl

theorem leads_lift {found : Except Fault α} {result : α} :
    Leads (liftM found) before result after ↔ found = .ok result ∧ before = after := by
  unfold Leads
  cases found with
  | error fault => exact ⟨nofun, nofun⟩
  | ok value =>
    constructor
    · rintro ⟨⟩
      exact ⟨rfl, rfl⟩
    · rintro ⟨⟨⟩, rfl⟩
      rfl

end Actions

/-- A pattern that is accepted resolves. -/
theorem exists_resolve {language : Language} {pattern : Pattern} {prepared : Prepared}
    (accepted : (language.prepare pattern).1 = .ok prepared) :
    ∃ resolved mentioned,
      (pattern.resolve language.names).run language.mentioned = (.ok resolved, mentioned) := by
  unfold Language.prepare at accepted
  match found : (pattern.resolve language.names).run language.mentioned with
  | (.ok resolved, mentioned) => exact ⟨resolved, mentioned, rfl⟩
  | (.error fault, mentioned) =>
    rw [found] at accepted
    cases accepted

/-- Languages move on as patterns of some of them are prepared, one after another. -/
inductive Advances : Table Language → List (Symbol × Pattern) → Table Language → Prop
  | refl {languages : Table Language} : Advances languages [] languages
  | prepare {languages after : Table Language} {name : Symbol} {language : Language}
      {pattern : Pattern} {prepared : Prepared} {uses : List (Symbol × Pattern)}
      (found : languages.find? name = some language)
      (accepted : (language.prepare pattern).1 = .ok prepared)
      (later : Advances (languages.insert name (language.prepare pattern).2) uses after) :
      Advances languages ((name, pattern) :: uses) after

theorem Advances.append {before middle after : Table Language}
    {first second : List (Symbol × Pattern)} (one : Advances before first middle)
    (two : Advances middle second after) : Advances before (first ++ second) after := by
  induction one with
  | refl => exact two
  | prepare found accepted _ ih => exact .prepare found accepted (ih two)

/-- Every language of a table is a state of one that a form defines under its name. -/
def Staged (forms : List Form) (languages : Table Language) : Prop :=
  ∀ name language, languages.find? name = some language → language.name = name ∧
    ∃ definition span, ⟨.language definition, span⟩ ∈ forms ∧ definition.name = name ∧
      Language.Stage definition span language

/-- A pattern was prepared for a language of a table. -/
def Made (forms : List Form) (languages : Table Language) (name : Symbol) (pattern : Pattern)
    (prepared : Prepared) : Prop :=
  ∃ language definition span resolved, languages.find? name = some language ∧
    ⟨.language definition, span⟩ ∈ forms ∧ definition.name = name ∧
    Language.Prepares definition span pattern resolved prepared language

variable {forms : List Form}

theorem name_prepare (language : Language) (pattern : Pattern) :
    (language.prepare pattern).2.name = language.name := by
  obtain ⟨_, _, _, same⟩ := language.prepare_snd pattern
  rw [same]

theorem Staged.prepare {languages : Table Language} (staged : Staged forms languages)
    {name : Symbol} {language : Language} (found : languages.find? name = some language)
    (pattern : Pattern) : Staged forms (languages.insert name (language.prepare pattern).2) := by
  intro other state there
  rw [Table.find?_insert] at there
  split at there
  · rename_i same
    subst same
    cases there
    obtain ⟨named, definition, span, listed, called, stage⟩ := staged name language found
    exact ⟨(name_prepare language pattern).trans named, definition, span, listed, called,
      .prepare stage pattern⟩
  · exact staged other state there

theorem Advances.staged {before after : Table Language} {uses : List (Symbol × Pattern)}
    (advances : Advances before uses after) (staged : Staged forms before) :
    Staged forms after := by
  induction advances with
  | refl => exact staged
  | prepare found _ _ ih => exact ih (staged.prepare found _)

/-- What was prepared for a language is prepared for its later states. -/
theorem Made.advance {before after : Table Language} {uses : List (Symbol × Pattern)}
    {name : Symbol} {pattern : Pattern} {prepared : Prepared}
    (made : Made forms before name pattern prepared) (advances : Advances before uses after) :
    Made forms after name pattern prepared := by
  induction advances with
  | refl => exact made
  | @prepare languages after other language another result uses there accepted later ih =>
    apply ih
    obtain ⟨state, definition, span, resolved, found, listed, called, prepares⟩ := made
    by_cases same : other = name
    · subst same
      rw [there] at found
      cases found
      exact ⟨_, definition, span, resolved, Table.find?_insert_self _ _ _, listed, called,
        .later prepares another⟩
    · exact ⟨state, definition, span, resolved,
        (Table.find?_insert_ne _ _ same).trans found, listed, called, prepares⟩

/-- Every pattern that is used has been prepared at the end. -/
theorem Advances.made {before after : Table Language} {uses : List (Symbol × Pattern)}
    (advances : Advances before uses after) (staged : Staged forms before) :
    ∀ use ∈ uses, ∃ prepared, Made forms after use.1 use.2 prepared := by
  induction advances with
  | refl => nofun
  | @prepare languages after name language pattern prepared uses found accepted later ih =>
    refine List.forall_mem_cons.mpr ⟨?_, ih (staged.prepare found pattern)⟩
    obtain ⟨_, definition, span, listed, called, stage⟩ := staged name language found
    obtain ⟨resolved, mentioned, resolves⟩ := exists_resolve accepted
    exact ⟨prepared, Made.advance ⟨_, definition, span, resolved, Table.find?_insert_self _ _ _,
      listed, called, .prepare stage resolves accepted⟩ later⟩

/-- Preparing a pattern moves its language on. -/
theorem leads_prepareIn {name : Symbol} {form place : Span} {message : String} {pattern : Pattern}
    {before after : Table Language} {prepared : Prepared}
    (leads : Leads (prepareIn name form place message pattern) before prepared after) :
    ∃ language, before.find? name = some language ∧
      (language.prepare pattern).1 = .ok prepared ∧
      after = before.insert name (language.prepare pattern).2 := by
  obtain ⟨languages, _, got, leads⟩ := leads_bind.mp leads
  cases got
  cases found : before.find? name with
  | none =>
    simp only [found] at leads
    cases leads
  | some language =>
    simp only [found] at leads
    obtain ⟨_, middle, put, leads⟩ := leads_bind.mp leads
    cases put
    obtain ⟨located, rfl⟩ := leads_lift.mp leads
    exact ⟨language, rfl, locate_eq_ok.mp located, rfl⟩

theorem leads_requireLanguage {name : Symbol} {form : Span} {before after : Table Language}
    {result : Unit} (leads : Leads (requireLanguage name form) before result after) :
    (∃ language, before.find? name = some language) ∧ after = before := by
  obtain ⟨languages, _, got, leads⟩ := leads_bind.mp leads
  cases got
  split at leads
  · rename_i known
    obtain ⟨_, rfl⟩ := leads_pure.mp leads
    exact ⟨Option.isSome_iff_exists.mp known, rfl⟩
  · cases leads

/-- A step prepares some patterns, and gives a result that is right for the languages at its end
and later. -/
def Prepares {α : Type} (forms : List Form) (action : Preparing α)
    (uses : List (Symbol × Pattern)) (right : Table Language → α → Prop) : Prop :=
  ∀ before result after, Leads action before result after → Staged forms before →
    Advances before uses after ∧
      ∀ other last, Advances after other last → right last result

theorem Prepares.throw {α : Type} {uses : List (Symbol × Pattern)}
    {right : Table Language → α → Prop} (fault : Fault) :
    Prepares forms (throw fault) uses right := by
  intro before result after leads
  cases leads

theorem Prepares.pure {α : Type} {value : α} {right : Table Language → α → Prop}
    (fits : ∀ languages, right languages value) : Prepares forms (pure value) [] right := by
  intro before result after leads _
  obtain ⟨rfl, rfl⟩ := leads_pure.mp leads
  exact ⟨.refl, fun _ last _ => fits last⟩

theorem Prepares.bind {α β : Type} {first : Preparing α} {next : α → Preparing β}
    {early late : List (Symbol × Pattern)} {middle : Table Language → α → Prop}
    {right : Table Language → β → Prop} (one : Prepares forms first early middle)
    (two : ∀ value, Prepares forms (next value) late fun last result =>
      middle last value → right last result) :
    Prepares forms (first >>= next) (early ++ late) right := by
  intro before result after leads staged
  obtain ⟨value, inner, begun, ended⟩ := leads_bind.mp leads
  obtain ⟨advances, holds⟩ := one _ _ _ begun staged
  obtain ⟨further, fits⟩ := two value _ _ _ ended (advances.staged staged)
  exact ⟨advances.append further, fun other last later =>
    fits other last later (holds _ last (further.append later))⟩

/-- A step that prepares nothing goes before others. -/
theorem Prepares.bindNone {α β : Type} {first : Preparing α} {next : α → Preparing β}
    {late : List (Symbol × Pattern)} {middle : Table Language → α → Prop}
    {right : Table Language → β → Prop} (one : Prepares forms first [] middle)
    (two : ∀ value, Prepares forms (next value) late fun last result =>
      middle last value → right last result) : Prepares forms (first >>= next) late right :=
  one.bind two

/-- A step that prepares one pattern goes before others. -/
theorem Prepares.bindOne {α β : Type} {first : Preparing α} {next : α → Preparing β}
    {use : Symbol × Pattern} {late : List (Symbol × Pattern)} {middle : Table Language → α → Prop}
    {right : Table Language → β → Prop} (one : Prepares forms first [use] middle)
    (two : ∀ value, Prepares forms (next value) late fun last result =>
      middle last value → right last result) : Prepares forms (first >>= next) (use :: late) right :=
  one.bind two

theorem Prepares.mapM {α β : Type} {step : α → Preparing β} {items : List α}
    {uses : α → List (Symbol × Pattern)} {right : Table Language → α → β → Prop}
    (each : ∀ item ∈ items, Prepares forms (step item) (uses item) fun last => right last item) :
    Prepares forms (items.mapM step) (items.flatMap uses) fun last results =>
      List.Forall₂ (right last) items results := by
  induction items with
  | nil =>
    rw [List.mapM_nil]
    exact .pure fun _ => .nil
  | cons item rest ih =>
    obtain ⟨here, later⟩ := List.forall_mem_cons.mp each
    rw [List.mapM_cons, List.flatMap_cons]
    refine .bind here fun first => ?_
    rw [← List.append_nil (rest.flatMap uses)]
    refine .bind (ih later) fun others => .pure fun _ all one => .cons one all

theorem Prepares.optionMapM {α β : Type} {step : α → Preparing β} {part : Option α}
    {uses : α → List (Symbol × Pattern)} {right : Table Language → α → β → Prop}
    (each : ∀ item ∈ part, Prepares forms (step item) (uses item) fun last => right last item) :
    Prepares forms (part.mapM step) (part.toList.flatMap uses) fun last result =>
      Option.Rel (right last) part result := by
  cases part with
  | none => exact .pure fun _ => .none
  | some item =>
    rw [Option.toList_some, List.flatMap_singleton, ← List.append_nil (uses item)]
    exact .bind (each item rfl) fun value => .pure fun _ fits => .some fits

theorem prepares_prepareIn (name : Symbol) (form place : Span) (message : String)
    (pattern : Pattern) : Prepares forms (prepareIn name form place message pattern)
      [(name, pattern)] fun last prepared => Made forms last name pattern prepared := by
  intro before prepared after leads staged
  obtain ⟨language, found, accepted, rfl⟩ := leads_prepareIn leads
  obtain ⟨_, definition, span, listed, called, stage⟩ := staged name language found
  obtain ⟨resolved, mentioned, resolves⟩ := exists_resolve accepted
  refine ⟨.prepare found accepted .refl, fun other last later => ?_⟩
  exact Made.advance ⟨_, definition, span, resolved, Table.find?_insert_self _ _ _, listed, called,
    .prepare stage resolves accepted⟩ later

/-- Preparing cases prepares their patterns. -/
theorem prepares_cases {α : Type} {language : Symbol} {form : Span} {message : String}
    {cases : List α} {place : α → Span} {pattern : α → Pattern} {template : α → Template} :
    Prepares forms
      (cases.mapM fun case => do
        let prepared ← prepareIn language form (place case) message (pattern case)
        pure (prepared, template case))
      (cases.map fun case => (language, pattern case)) fun last prepared =>
        List.Forall₂ (fun case result => Made forms last language (pattern case) result.1 ∧
          result.2 = template case) cases prepared := by
  rw [← List.flatMap_singleton' (cases.map fun case => (language, pattern case)), List.flatMap_map]
  refine .mapM fun case _ => ?_
  rw [← List.append_nil [(language, pattern case)]]
  exact .bind (prepares_prepareIn language form (place case) message (pattern case)) fun prepared =>
    .pure fun _ made => ⟨made, rfl⟩

theorem Prepares.lift {α : Type} (found : Except Fault α) :
    Prepares forms (liftM found) [] fun _ value => found = .ok value := by
  intro before result after leads _
  obtain ⟨same, rfl⟩ := leads_lift.mp leads
  exact ⟨.refl, fun _ _ _ => same⟩

/-- A language that is there stays there. -/
theorem Advances.exists_find? {before after : Table Language} {uses : List (Symbol × Pattern)}
    (advances : Advances before uses after) {name : Symbol} :
    (∃ language, before.find? name = some language) →
      ∃ language, after.find? name = some language := by
  induction advances with
  | refl => exact id
  | @prepare languages last other state pattern prepared uses there _ _ ih =>
    rintro ⟨language, found⟩
    apply ih
    by_cases same : other = name
    · subst same
      exact ⟨_, Table.find?_insert_self _ _ _⟩
    · exact ⟨language, (Table.find?_insert_ne _ _ same).trans found⟩

theorem prepares_requireLanguage (name : Symbol) (form : Span) :
    Prepares forms (requireLanguage name form) [] fun last _ =>
      ∃ language, last.find? name = some language := by
  intro before result after leads _
  obtain ⟨known, rfl⟩ := leads_requireLanguage leads
  exact ⟨.refl, fun other last later => later.exists_find? known⟩

theorem sorted_noteDepth {symbol : Symbol} {depth : Nat} {before after : Depths}
    (sorted : before.Sorted) (accepted : Pattern.noteDepth symbol depth before = .ok after) :
    after.Sorted := by
  unfold Pattern.noteDepth at accepted
  split at accepted
  · cases accepted
    exact sorted.insert symbol depth
  · split at accepted
    · cases accepted
      exact sorted
    · cases accepted

mutual

/-- Noting depths keeps a table in order. -/
theorem sorted_depthsFrom : (pattern : Pattern) → {depth : Nat} → {before after : Depths} →
    before.Sorted → pattern.depthsFrom depth before = .ok after → after.Sorted
  | .sequence items, _, _, _, sorted, accepted => sorted_depthsFromAll items sorted accepted
  | .repeated inner _, _, _, _, sorted, accepted => sorted_depthsFrom inner sorted accepted
  | .inHole context contents _, _, _, _, sorted, accepted => by
    obtain ⟨middle, one, two⟩ := Except.bind_eq_ok.mp accepted
    exact sorted_depthsFrom contents (sorted_depthsFrom context sorted one) two
  | .nonTerminal _ _, _, _, _, sorted, accepted => sorted_noteDepth sorted accepted
  | .builtIn kind symbol, _, _, _, sorted, accepted => by
    rw [Pattern.depthsFrom] at accepted
    split at accepted
    · exact sorted_noteDepth sorted accepted
    · cases accepted
      exact sorted
  | .literal _, _, _, _, sorted, accepted | .check _, _, _, _, sorted, accepted
  | .unresolved _, _, _, _, sorted, accepted => by
    cases accepted
    exact sorted

theorem sorted_depthsFromAll : (items : List Pattern) → {depth : Nat} → {before after : Depths} →
    before.Sorted → Pattern.depthsFromAll depth items before = .ok after → after.Sorted
  | [], _, _, _, sorted, accepted => by
    cases accepted
    exact sorted
  | item :: rest, _, _, _, sorted, accepted => by
    obtain ⟨middle, one, two⟩ := Except.bind_eq_ok.mp accepted
    exact sorted_depthsFromAll rest (sorted_depthsFrom item sorted one) two

end

/-- The depths of a pattern that is prepared are in order. -/
theorem Made.sorted {languages : Table Language} {name : Symbol} {pattern : Pattern}
    {prepared : Prepared} (made : Made forms languages name pattern prepared) :
    prepared.depths.Sorted := by
  obtain ⟨_, _, _, _, _, _, _, prepares⟩ := made
  obtain ⟨_, _, _, accepted, _⟩ := prepares.exists_depths
  exact sorted_depthsFrom _ Table.sorted_empty accepted

/-- Depths have grown by those of some patterns, which bind new and different symbols beside their
fresh names. -/
structure Joined (start : Depths) (all : List Prepared) (depths : Depths) : Prop where
  find? : ∀ symbol depth, depths.find? symbol = some depth ↔ start.find? symbol = some depth ∨
    ∃ prepared ∈ all, prepared.depths.find? symbol = some depth ∧ symbol ∉ prepared.synthetic
  free : ∀ prepared ∈ all, ∀ symbol, symbol ∉ prepared.synthetic →
    prepared.depths.find? symbol ≠ none → start.find? symbol = none
  apart : all.Pairwise fun one two => ∀ symbol, symbol ∉ one.synthetic →
    symbol ∉ two.synthetic → one.depths.find? symbol ≠ none → two.depths.find? symbol = none

theorem joined_nil (depths : Depths) : Joined depths [] depths where
  find? symbol depth := by simp
  free := nofun
  apart := .nil

/-- What is added to depths one by one. -/
theorem foldlM_joinDepths {span : Span} {synthetic : List Symbol} {entries : List (Symbol × Nat)} :
    ∀ {start depths : Depths}, entries.foldlM (fun (joined : Depths) entry =>
        if entry.1 ∈ synthetic then Except.ok joined
        else if joined.contains entry.1 then
          .error (Fault.located (.boundTwice entry.1) span "in this form")
        else .ok (joined.insert entry.1 entry.2)) start = .ok depths →
      (∀ symbol depth, depths.find? symbol = some depth ↔ start.find? symbol = some depth ∨
        (symbol, depth) ∈ entries ∧ symbol ∉ synthetic) ∧
      ∀ entry ∈ entries, entry.1 ∉ synthetic → start.find? entry.1 = none := by
  induction entries with
  | nil =>
    intro start depths accepted
    cases accepted
    exact ⟨fun symbol depth => by simp, nofun⟩
  | cons entry rest ih =>
    intro start depths accepted
    rw [List.foldlM_cons] at accepted
    obtain ⟨middle, here, accepted⟩ := Except.bind_eq_ok.mp accepted
    obtain ⟨found, free⟩ := ih accepted
    split at here
    · rename_i dropped
      cases here
      refine ⟨fun symbol depth => ?_, List.forall_mem_cons.mpr ⟨fun kept => absurd dropped kept, free⟩⟩
      rw [found, List.mem_cons]
      constructor
      · exact fun known => known.imp_right fun ⟨listed, kept⟩ => ⟨.inr listed, kept⟩
      · rintro (before | ⟨rfl | listed, kept⟩)
        · exact .inl before
        · exact absurd dropped kept
        · exact .inr ⟨listed, kept⟩
    · rename_i kept
      split at here
      · cases here
      · rename_i unknown
        cases here
        have unbound : start.find? entry.1 = none := by
          simpa [Table.contains] using unknown
        refine ⟨fun symbol depth => ?_, List.forall_mem_cons.mpr ⟨fun _ => unbound, ?_⟩⟩
        · rw [found, Table.find?_insert, List.mem_cons]
          split
          · rename_i same
            subst same
            constructor
            · rintro (⟨⟨⟩⟩ | ⟨listed, kept⟩)
              · exact .inr ⟨.inl rfl, kept⟩
              · exact .inr ⟨.inr listed, kept⟩
            · rintro (before | ⟨same | listed, kept⟩)
              · rw [unbound] at before
                cases before
              · exact .inl (by rw [← same])
              · exact .inr ⟨listed, kept⟩
          · rename_i differ
            constructor
            · exact fun known => known.imp_right fun ⟨listed, kept⟩ => ⟨.inr listed, kept⟩
            · rintro (before | ⟨same | listed, kept⟩)
              · exact .inl before
              · exact absurd (by rw [← same]) differ
              · exact .inr ⟨listed, kept⟩
        · intro other listed outside
          have absent := free other listed outside
          rw [Table.find?_insert] at absent
          split at absent
          · cases absent
          · exact absent

/-- The depths of a further pattern join those before it. -/
theorem Joined.cons {span : Span} {prepared : Prepared} (sorted : prepared.depths.Sorted)
    {start middle depths : Depths} (here : joinDepths span prepared start = .ok middle)
    {rest : List Prepared} (joined : Joined middle rest depths) :
    Joined start (prepared :: rest) depths := by
  obtain ⟨found, free⟩ := foldlM_joinDepths here
  have entry : ∀ symbol depth, (symbol, depth) ∈ prepared.depths.entries ↔
      prepared.depths.find? symbol = some depth :=
    fun symbol depth => ⟨sorted.find?_of_mem, Table.mem_of_find?⟩
  have known : ∀ symbol, symbol ∉ prepared.synthetic → prepared.depths.find? symbol ≠ none →
      ∃ depth, middle.find? symbol = some depth := by
    intro symbol kept bound
    obtain ⟨depth, there⟩ := Option.ne_none_iff_exists'.mp bound
    exact ⟨depth, (found symbol depth).mpr (.inr ⟨(entry symbol depth).mpr there, kept⟩)⟩
  constructor
  · intro symbol depth
    rw [joined.find?, found, entry, List.exists_mem_cons_iff, or_assoc]
  · refine List.forall_mem_cons.mpr ⟨?_, ?_⟩
    · intro symbol kept bound
      obtain ⟨depth, there⟩ := Option.ne_none_iff_exists'.mp bound
      exact free (symbol, depth) ((entry symbol depth).mpr there) kept
    · intro other listed symbol kept bound
      have absent := joined.free other listed symbol kept bound
      refine Option.eq_none_iff_forall_ne_some.mpr fun depth there => ?_
      rw [(found symbol depth).mpr (.inl there)] at absent
      cases absent
  · refine List.pairwise_cons.mpr ⟨?_, joined.apart⟩
    intro other listed symbol kept outside bound
    obtain ⟨depth, there⟩ := known symbol kept bound
    by_contra again
    rw [joined.free other listed symbol outside again] at there
    cases there

/-- Preparing the bindings of a term assertion prepares their patterns and joins their depths. -/
theorem prepares_bindings (language : Symbol) (span : Span) (bindings : List (Pattern × Term)) :
    ∀ start, Prepares forms (prepareBindings language span bindings start)
      (bindings.map fun binding => (language, binding.1)) fun last result =>
        List.Forall₂ (fun binding prepared => Made forms last language binding.1 prepared.1 ∧
          prepared.2 = binding.2) bindings result.1 ∧
        Joined start (result.1.map (·.1)) result.2 := by
  induction bindings with
  | nil => exact fun start => .pure fun _ => ⟨.nil, joined_nil start⟩
  | cons binding rest ih =>
    intro start
    refine .bindOne (prepares_prepareIn _ _ _ _ _) fun prepared => ?_
    refine .bindNone (.lift _) fun middle => ?_
    rw [← List.append_nil (rest.map _)]
    refine .bind (ih middle) fun result => .pure fun last ⟨others, joined⟩ here made => ?_
    exact ⟨.cons ⟨made, rfl⟩ others, joined.cons made.sorted here⟩

/-- A form with its patterns prepared, given what it is to prepare a pattern for a language. -/
inductive Follows (names : Names) (made : Symbol → Pattern → Prepared → Prop) :
    FormBody → PreparedForm → Prop
  | language {definition : LanguageDefinition} : Follows names made (.language definition) .language
  | relation {definition : RelationDefinition} {function : Symbol} {domain : Option Prepared}
      {cases : List (Prepared × Template)}
      (named : names.relations.find? definition.name = some function)
      (guard : Option.Rel (made definition.language) definition.domain domain)
      (each : List.Forall₂ (fun case result => made definition.language case.pattern result.1 ∧
        result.2 = case.template) definition.cases cases) :
      Follows names made (.relation definition)
        (.relation definition.name function definition.language domain cases)
  | metafunction {definition : MetafunctionDefinition} {function : Symbol}
      {contract : Option (Prepared × Prepared)} {cases : List (Prepared × Template)}
      (named : names.metafunctions.find? definition.name = some function)
      (guard : Option.Rel (fun written result =>
        made definition.language (.sequence written.domain) result.1 ∧
          made definition.language written.codomain result.2) definition.contract contract)
      (each : List.Forall₂ (fun case result =>
        made definition.language (.sequence case.arguments) result.1 ∧
          result.2 = case.template) definition.cases cases) :
      Follows names made (.metafunction definition)
        (.metafunction definition.name function definition.language contract cases)
  | redexMatch {language : Symbol} {pattern : Pattern} {prepared : Prepared} {term : Term}
      (matched : made language pattern prepared) :
      Follows names made (.redexMatch language pattern term)
        (.redexMatch language prepared term
          (Text.spaced ["redex-match", language, pattern.text, term.text]))
  | assertMatch {language : Symbol} {pattern : Pattern} {prepared : Prepared} {term : Term}
      {expected : List (List (Symbol × Term))} (matched : made language pattern prepared) :
      Follows names made (.assertMatch language pattern term expected)
        (.assertMatch language prepared term expected
          (Text.spaced ["redex-match-assert-equal", language, pattern.text, term.text]))
  | assertTerm {language : Symbol} {bindings : List (Pattern × Term)} {template : Template}
      {expected : Term} {results : List (Prepared × Term)} {depths : Depths}
      (each : List.Forall₂ (fun binding result => made language binding.1 result.1 ∧
        result.2 = binding.2) bindings results)
      (joined : Joined .empty (results.map (·.1)) depths) :
      Follows names made (.assertTerm language bindings template expected)
        (.assertTerm language results depths template expected
          (Text.spaced ["term-let-assert-equal", template.text, expected.text]))
  | assertReduction {relation function : Symbol} {term : Term} {expected : List Term}
      (named : names.relations.find? relation = some function) :
      Follows names made (.assertReduction relation term expected)
        (.assertReduction relation function term expected
          (Text.spaced ["apply-reduction-relation-assert-equal", relation, term.text]))
  | foreignSource {path : String} : Follows names made (.foreignSource path) (.foreignSource path)

/-- Preparing a form prepares the patterns that it uses. -/
theorem prepares_prepareForm (names : Names) (form : Form) :
    Prepares forms (prepareForm names form) form.uses fun last prepared =>
      Follows names (Made forms last) form.body prepared := by
  obtain ⟨body, span⟩ := form
  cases body with
  | language definition => exact .pure fun _ => .language
  | relation definition =>
    simp only [Form.uses, List.map_append]
    refine .bindNone (prepares_requireLanguage _ _) fun _ => ?_
    have guard : Prepares forms (definition.domain.mapM
        (prepareIn definition.language span span "in this form"))
        (definition.domain.toList.flatMap fun pattern => [(definition.language, pattern)])
        fun last result => Option.Rel (Made forms last definition.language) definition.domain result :=
      .optionMapM fun pattern _ => prepares_prepareIn _ _ _ _ pattern
    rw [← List.map_eq_flatMap] at guard
    refine .bind guard fun domain => ?_
    rw [List.map_map, ← List.append_nil (definition.cases.map _)]
    refine .bind prepares_cases fun cases' => ?_
    cases named : names.relations.find? definition.name with
    | none => exact .throw _
    | some function => exact .pure fun _ each guard _ => .relation named guard each
  | metafunction definition =>
    simp only [Form.uses, List.map_append]
    refine .bindNone (prepares_requireLanguage _ _) fun _ => ?_
    have guard : Prepares forms (definition.contract.mapM fun contract => do
          let domain ←
            prepareIn definition.language span span "in this form" (.sequence contract.domain)
          let codomain ← prepareIn definition.language span span "in this form" contract.codomain
          pure (domain, codomain))
        (definition.contract.toList.flatMap fun contract =>
          [(definition.language, .sequence contract.domain),
            (definition.language, contract.codomain)])
        fun last result => Option.Rel (fun written result =>
          Made forms last definition.language (.sequence written.domain) result.1 ∧
            Made forms last definition.language written.codomain result.2)
          definition.contract result := by
      refine .optionMapM fun contract _ => ?_
      refine .bindOne
        (prepares_prepareIn _ _ _ _ _) fun domain => ?_
      exact .bindOne
        (prepares_prepareIn _ _ _ _ _) fun codomain =>
          .pure fun _ second first => ⟨first, second⟩
    have used : definition.contract.toList.flatMap (fun contract =>
          [(definition.language, .sequence contract.domain),
            (definition.language, contract.codomain)]) =
        (definition.contract.toList.flatMap Contract.patterns).map (definition.language, ·) := by
      rw [List.map_flatMap]
      rfl
    rw [used] at guard
    refine .bind guard fun contract => ?_
    rw [List.map_map, ← List.append_nil (definition.cases.map _)]
    refine .bind prepares_cases fun cases' => ?_
    cases named : names.metafunctions.find? definition.name with
    | none => exact .throw _
    | some function => exact .pure fun _ each guard _ => .metafunction named guard each
  | redexMatch language pattern term =>
    exact .bindOne (prepares_prepareIn _ _ _ _ _) fun prepared =>
      .pure fun _ matched => .redexMatch matched
  | assertMatch language pattern term expected =>
    exact .bindOne (prepares_prepareIn _ _ _ _ _) fun prepared =>
      .pure fun _ matched => .assertMatch matched
  | assertTerm language bindings template expected =>
    simp only [Form.uses]
    rw [← List.append_nil (bindings.map _)]
    refine .bindNone (prepares_requireLanguage _ _) fun _ => ?_
    exact .bind (prepares_bindings language span bindings .empty) fun result =>
      .pure fun _ both _ => .assertTerm both.1 both.2
  | assertReduction relation term expected =>
    unfold prepareForm
    dsimp only
    cases named : names.relations.find? relation with
    | none => exact .throw _
    | some function => exact .pure fun _ => .assertReduction named
  | foreignSource path => exact .pure fun _ => .foreignSource

/-- Preparing forms prepares the patterns that they use. -/
theorem prepares_prepareForms (names : Names) (some : List Form) :
    Prepares forms (some.mapM (prepareForm names)) (some.flatMap Form.uses) fun last prepared =>
      List.Forall₂ (fun form => Follows names (Made forms last) form.body) some prepared :=
  .mapM fun form _ => prepares_prepareForm names form

/-- The function that a form gets, given the names of a specification. -/
def Names.function? (names : Names) (form : Form) : Option Symbol :=
  match form.body with
  | .relation definition => names.relations.find? definition.name
  | .metafunction definition => names.metafunctions.find? definition.name
  | _ => none

/-- Everything that is defined is noted. -/
structure Names.Noted (names : Names) : Prop where
  languages : ∀ name, names.languages.find? name ≠ none → names.defined.find? name ≠ none
  relations : ∀ name, names.relations.find? name ≠ none → names.defined.find? name ≠ none
  metafunctions : ∀ name, names.metafunctions.find? name ≠ none → names.defined.find? name ≠ none

/-- What names stand for stays as it is while more of them are defined. -/
structure Names.Extends (before after : Names) : Prop where
  languages : ∀ name language, before.languages.find? name = some language →
    after.languages.find? name = some language
  relations : ∀ name function, before.relations.find? name = some function →
    after.relations.find? name = some function
  metafunctions : ∀ name function, before.metafunctions.find? name = some function →
    after.metafunctions.find? name = some function

theorem Names.Extends.refl (names : Names) : names.Extends names :=
  ⟨fun _ _ => id, fun _ _ => id, fun _ _ => id⟩

theorem Names.Extends.trans {first second third : Names} (one : first.Extends second)
    (two : second.Extends third) : first.Extends third :=
  ⟨fun _ _ found => two.languages _ _ (one.languages _ _ found),
    fun _ _ found => two.relations _ _ (one.relations _ _ found),
    fun _ _ found => two.metafunctions _ _ (one.metafunctions _ _ found)⟩

/-- The name that a form defines stands for what the form says. -/
def Names.Has (names : Names) (form : Form) : Prop :=
  match form.body with
  | .language definition => ∃ language, Language.define definition form.span = .ok language ∧
    names.languages.find? definition.name = some language
  | .relation definition => ∃ function, names.relations.find? definition.name = some function
  | .metafunction definition =>
    ∃ function, names.metafunctions.find? definition.name = some function
  | _ => True

theorem Names.Has.extend {before after : Names} {form : Form} (has : before.Has form)
    (more : before.Extends after) : after.Has form ∧ after.function? form = before.function? form := by
  obtain ⟨body, span⟩ := form
  cases body with
  | language definition =>
    obtain ⟨language, accepted, found⟩ := has
    exact ⟨⟨language, accepted, more.languages _ _ found⟩, rfl⟩
  | relation definition =>
    obtain ⟨function, found⟩ := has
    have later := more.relations _ _ found
    exact ⟨⟨function, later⟩, later.trans found.symm⟩
  | metafunction definition =>
    obtain ⟨function, found⟩ := has
    have later := more.metafunctions _ _ found
    exact ⟨⟨function, later⟩, later.trans found.symm⟩
  | _ => exact ⟨trivial, rfl⟩

/-- The names of a list of forms and of some earlier names. -/
structure Names.Collects (before after : Names) (added : List Form) : Prop where
  more : before.Extends after
  has : ∀ form ∈ added, after.Has form
  language : ∀ name language, after.languages.find? name = some language →
    before.languages.find? name = some language ∨ ∃ definition span,
      ⟨.language definition, span⟩ ∈ added ∧ definition.name = name ∧
        Language.define definition span = .ok language
  relation : ∀ name function, after.relations.find? name = some function →
    before.relations.find? name = some function ∨ ∃ definition span,
      ⟨.relation definition, span⟩ ∈ added ∧ definition.name = name
  metafunction : ∀ name function, after.metafunctions.find? name = some function →
    before.metafunctions.find? name = some function ∨ ∃ definition span,
      ⟨.metafunction definition, span⟩ ∈ added ∧ definition.name = name

theorem Names.Collects.nil (names : Names) : names.Collects names [] where
  more := .refl names
  has := nofun
  language _ _ := .inl
  relation _ _ := .inl
  metafunction _ _ := .inl

/-- The names of one form and then of others. -/
theorem Names.Collects.cons {first second third : Names} {form : Form} {rest : List Form}
    (one : first.Collects second [form]) (two : second.Collects third rest) :
    first.Collects third (form :: rest) where
  more := one.more.trans two.more
  has := List.forall_mem_cons.mpr
    ⟨((one.has form List.mem_cons_self).extend two.more).1, two.has⟩
  language name language found := by
    rcases two.language name language found with earlier | ⟨definition, span, listed, rest⟩
    · refine (one.language name language earlier).imp_right ?_
      rintro ⟨definition, span, listed, rest⟩
      exact ⟨definition, span, List.mem_cons.mpr (.inl (List.mem_singleton.mp listed)), rest⟩
    · exact .inr ⟨definition, span, List.mem_cons_of_mem _ listed, rest⟩
  relation name function found := by
    rcases two.relation name function found with earlier | ⟨definition, span, listed, rest⟩
    · refine (one.relation name function earlier).imp_right ?_
      rintro ⟨definition, span, listed, rest⟩
      exact ⟨definition, span, List.mem_cons.mpr (.inl (List.mem_singleton.mp listed)), rest⟩
    · exact .inr ⟨definition, span, List.mem_cons_of_mem _ listed, rest⟩
  metafunction name function found := by
    rcases two.metafunction name function found with earlier | ⟨definition, span, listed, rest⟩
    · refine (one.metafunction name function earlier).imp_right ?_
      rintro ⟨definition, span, listed, rest⟩
      exact ⟨definition, span, List.mem_cons.mpr (.inl (List.mem_singleton.mp listed)), rest⟩
    · exact .inr ⟨definition, span, List.mem_cons_of_mem _ listed, rest⟩

/-- Function names are drawn one after another, and nothing else is done. -/
inductive Draws : Draft → List Symbol → Draft → Prop
  | nil {draft : Draft} : Draws draft [] draft
  | cons {draft after : Draft} {name : Symbol} {names : List Symbol}
      (numbered : Numbered name draft.nameCount)
      (rest : Draws { draft with nameCount := draft.nameCount + 1 } names after) :
      Draws draft (name :: names) after

theorem yields_throw {α : Type} {fault : Fault} {before after : Draft} {result : α} :
    ¬ Yields (throw fault) before result after := nofun

/-- A name that is noted is new. -/
theorem yields_noteDefinition {kind : DefinitionKind} {name : Symbol} {span : Span}
    {names noted : Names} {before after : Draft}
    (yields : Yields (noteDefinition kind name span names) before noted after) :
    names.defined.find? name = none ∧
      { names with defined := names.defined.insert name span } = noted ∧ before = after := by
  unfold noteDefinition at yields
  split at yields
  · exact absurd yields yields_throw
  · rename_i free
    obtain ⟨rfl, rfl⟩ := yields_pure.mp yields
    exact ⟨free, rfl, rfl⟩

theorem yields_lift {α : Type} {found : Except Fault α} {before after : Draft} {result : α} :
    Yields (MonadExcept.ofExcept found) before result after ↔
      found = .ok result ∧ before = after := by
  cases found with
  | error fault => exact ⟨nofun, nofun⟩
  | ok value =>
    constructor
    · rintro ⟨⟩
      exact ⟨rfl, rfl⟩
    · rintro ⟨⟨⟩, rfl⟩
      rfl

/-- A new entry in a table whose keys are noted, as the key of the entry is noted too. -/
theorem noted_insert {α β : Type} {table : Table α} {defined : Table β}
    (noted : ∀ name, table.find? name ≠ none → defined.find? name ≠ none) (name : Symbol)
    (value : α) (place : β) : ∀ other, (table.insert name value).find? other ≠ none →
      (defined.insert name place).find? other ≠ none := by
  intro other bound
  rw [Table.find?_insert] at bound ⊢
  split
  · exact nofun
  · rename_i differ
    rw [if_neg differ] at bound
    exact noted other bound

/-- Entries that are noted stay noted. -/
theorem noted_more {α β : Type} {table : Table α} {defined : Table β}
    (noted : ∀ name, table.find? name ≠ none → defined.find? name ≠ none) (name : Symbol)
    (place : β) : ∀ other, table.find? other ≠ none →
      (defined.insert name place).find? other ≠ none := by
  intro other bound
  rw [Table.find?_insert]
  split
  · exact nofun
  · exact noted other bound

/-- A new key leaves the entries of a table as they are. -/
theorem find?_insert_of_free {α : Type} {table : Table α} {name : Symbol}
    (free : table.find? name = none) (value : α) (other : Symbol) (known : α)
    (found : table.find? other = some known) :
    (table.insert name value).find? other = some known := by
  rw [Table.find?_insert_ne, found]
  rintro rfl
  rw [free] at found
  cases found

/-- An entry of a table with a new entry is the new one or was there. -/
theorem eq_or_find?_of_insert {α : Type} {table : Table α} {name other : Symbol} {value known : α}
    (found : (table.insert name value).find? other = some known) :
    table.find? other = some known ∨ name = other ∧ value = known := by
  rw [Table.find?_insert] at found
  split at found
  · cases found
    exact .inr ⟨‹_›, rfl⟩
  · exact .inl found

/-- Entering the name of a form adds what the form defines, and draws its function. -/
theorem collects_defineName {form : Form} {before after : Names} {draft last : Draft}
    (yields : Yields (defineName before form) draft after last) (noted : before.Noted) :
    before.Collects after [form] ∧ after.Noted ∧
      Draws draft (after.function? form).toList last := by
  have absent : ∀ {α : Type} {table : Table α} {name : Symbol},
      (∀ name, table.find? name ≠ none → before.defined.find? name ≠ none) →
      before.defined.find? name = none → table.find? name = none := by
    intro α table name each unknown
    by_contra bound
    exact each name bound unknown
  obtain ⟨body, span⟩ := form
  cases body with
  | language definition =>
    obtain ⟨language, middle, defined, yields⟩ := yields_bind.mp yields
    obtain ⟨accepted, rfl⟩ := yields_lift.mp defined
    obtain ⟨names, _, entered, yields⟩ := yields_bind.mp yields
    obtain ⟨unknown, rfl, rfl⟩ := yields_noteDefinition entered
    obtain ⟨rfl, rfl⟩ := yields_pure.mp yields
    refine ⟨?_, ⟨noted_insert noted.languages _ _ _, noted_more noted.relations _ _,
      noted_more noted.metafunctions _ _⟩, .nil⟩
    refine ⟨⟨find?_insert_of_free (absent noted.languages unknown) language, fun _ _ => id,
      fun _ _ => id⟩, List.forall_mem_singleton.mpr ⟨language, accepted,
        Table.find?_insert_self _ _ _⟩, ?_, fun _ _ => .inl, fun _ _ => .inl⟩
    intro name other found
    refine (eq_or_find?_of_insert found).imp_right ?_
    rintro ⟨rfl, rfl⟩
    exact ⟨definition, span, List.mem_singleton.mpr rfl, rfl, accepted⟩
  | relation definition =>
    obtain ⟨function, middle, drawn, yields⟩ := yields_bind.mp yields
    obtain ⟨numbered, rfl⟩ := yields_freshFunction drawn
    obtain ⟨names, _, entered, yields⟩ := yields_bind.mp yields
    obtain ⟨unknown, rfl, rfl⟩ := yields_noteDefinition entered
    obtain ⟨rfl, rfl⟩ := yields_pure.mp yields
    have named := Table.find?_insert_self before.relations definition.name function
    refine ⟨?_, ⟨noted_more noted.languages _ _, noted_insert noted.relations _ _ _,
      noted_more noted.metafunctions _ _⟩, ?_⟩
    · refine ⟨⟨fun _ _ => id, find?_insert_of_free (absent noted.relations unknown) function,
        fun _ _ => id⟩, List.forall_mem_singleton.mpr ⟨function, named⟩, fun _ _ => .inl, ?_,
        fun _ _ => .inl⟩
      intro name other found
      refine (eq_or_find?_of_insert found).imp_right ?_
      rintro ⟨rfl, rfl⟩
      exact ⟨definition, span, List.mem_singleton.mpr rfl, rfl⟩
    · change Draws draft (Option.toList ((before.relations.insert _ _).find? _)) _
      rw [named]
      exact .cons numbered .nil
  | metafunction definition =>
    obtain ⟨function, middle, drawn, yields⟩ := yields_bind.mp yields
    obtain ⟨numbered, rfl⟩ := yields_freshFunction drawn
    obtain ⟨names, _, entered, yields⟩ := yields_bind.mp yields
    obtain ⟨unknown, rfl, rfl⟩ := yields_noteDefinition entered
    obtain ⟨rfl, rfl⟩ := yields_pure.mp yields
    have named := Table.find?_insert_self before.metafunctions definition.name function
    refine ⟨?_, ⟨noted_more noted.languages _ _, noted_more noted.relations _ _,
      noted_insert noted.metafunctions _ _ _⟩, ?_⟩
    · refine ⟨⟨fun _ _ => id, fun _ _ => id,
        find?_insert_of_free (absent noted.metafunctions unknown) function⟩,
        List.forall_mem_singleton.mpr ⟨function, named⟩, fun _ _ => .inl, fun _ _ => .inl, ?_⟩
      intro name other found
      refine (eq_or_find?_of_insert found).imp_right ?_
      rintro ⟨rfl, rfl⟩
      exact ⟨definition, span, List.mem_singleton.mpr rfl, rfl⟩
    · change Draws draft (Option.toList ((before.metafunctions.insert _ _).find? _)) _
      rw [named]
      exact .cons numbered .nil
  | _ =>
    obtain ⟨rfl, rfl⟩ := yields_pure.mp yields
    exact ⟨⟨.refl _, List.forall_mem_singleton.mpr trivial, fun _ _ => .inl, fun _ _ => .inl,
      fun _ _ => .inl⟩, noted, .nil⟩

theorem Draws.append {first second third : Draft} {names others : List Symbol}
    (one : Draws first names second) (two : Draws second others third) :
    Draws first (names ++ others) third := by
  induction one with
  | nil => exact two
  | cons numbered _ ih => exact .cons numbered (ih two)

/-- Entering the names of forms adds what they define, and draws their functions. -/
theorem collects_defineNames {added : List Form} : ∀ {before after : Names} {draft last : Draft},
    Yields (added.foldlM defineName before) draft after last → before.Noted →
      before.Collects after added ∧ Draws draft (added.filterMap after.function?) last := by
  induction added with
  | nil =>
    intro before after draft last yields _
    obtain ⟨rfl, rfl⟩ := yields_pure.mp yields
    exact ⟨.nil _, .nil⟩
  | cons form rest ih =>
    intro before after draft last yields noted
    rw [List.foldlM_cons] at yields
    obtain ⟨middle, inner, here, later⟩ := yields_bind.mp yields
    obtain ⟨one, still, drawn⟩ := collects_defineName here noted
    obtain ⟨two, others⟩ := ih later still
    refine ⟨one.cons two, ?_⟩
    have same := ((one.has form List.mem_cons_self).extend two.more).2
    have split : (form :: rest).filterMap after.function? =
        (middle.function? form).toList ++ rest.filterMap after.function? := by
      rw [List.filterMap_cons, same]
      cases middle.function? form <;> rfl
    rw [split]
    exact drawn.append others

/-- What a form defines is new and is noted. -/
theorem defined_defineName {form : Form} {before after : Names} {draft last : Draft}
    (yields : Yields (defineName before form) draft after last) :
    (∀ name ∈ form.body.defined?, before.defined.find? name = none) ∧
      ∀ name, after.defined.find? name = none ↔
        before.defined.find? name = none ∧ form.body.defined? ≠ some name := by
  have inserted : ∀ (name other : Symbol) (span : Span),
      (before.defined.insert name span).find? other = none ↔
        before.defined.find? other = none ∧ some name ≠ some other := by
    intro name other span
    rw [Table.find?_insert]
    split
    · rename_i same
      simp [same]
    · rename_i differ
      simp [differ]
  obtain ⟨body, span⟩ := form
  cases body with
  | language definition =>
    obtain ⟨_, _, _, yields⟩ := yields_bind.mp yields
    obtain ⟨_, _, entered, yields⟩ := yields_bind.mp yields
    obtain ⟨unknown, rfl, rfl⟩ := yields_noteDefinition entered
    obtain ⟨rfl, rfl⟩ := yields_pure.mp yields
    exact ⟨by rintro _ ⟨⟩; exact unknown, fun name => inserted _ name _⟩
  | relation definition | metafunction definition =>
    obtain ⟨_, _, _, yields⟩ := yields_bind.mp yields
    obtain ⟨_, _, entered, yields⟩ := yields_bind.mp yields
    obtain ⟨unknown, rfl, rfl⟩ := yields_noteDefinition entered
    obtain ⟨rfl, rfl⟩ := yields_pure.mp yields
    exact ⟨by rintro _ ⟨⟩; exact unknown, fun name => inserted _ name _⟩
  | _ =>
    obtain ⟨rfl, rfl⟩ := yields_pure.mp yields
    exact ⟨by rintro _ ⟨⟩, fun name => by simp [FormBody.defined?]⟩

/-- Forms define different names, which are new. -/
theorem nodup_defined {forms : List Form} : ∀ {before after : Names} {draft last : Draft},
    Yields (forms.foldlM defineName before) draft after last →
      (forms.filterMap (·.body.defined?)).Nodup ∧
        ∀ name ∈ forms.filterMap (·.body.defined?), before.defined.find? name = none := by
  induction forms with
  | nil => exact fun _ => ⟨.nil, nofun⟩
  | cons form rest ih =>
    intro before after draft last yields
    rw [List.foldlM_cons] at yields
    obtain ⟨middle, inner, here, later⟩ := yields_bind.mp yields
    obtain ⟨unknown, noted⟩ := defined_defineName here
    obtain ⟨distinct, free⟩ := ih later
    rw [List.filterMap_cons]
    cases defines : form.body.defined? with
    | none => exact ⟨distinct, fun name listed => ((noted name).mp (free name listed)).1⟩
    | some name =>
      refine ⟨List.nodup_cons.mpr ⟨fun again => ?_, distinct⟩, List.forall_mem_cons.mpr
        ⟨unknown name defines, fun other listed => ((noted other).mp (free other listed)).1⟩⟩
      exact ((noted name).mp (free name again)).2 defines

/-- The stages of a compilation before code is generated. -/
structure Preparation (forms : List Form) where
  names : Names
  start : Draft
  named : Yields (defineNames forms) .empty names start
  prepared : List PreparedForm
  languages : Table Language
  prepares : Leads (forms.mapM (prepareForm names)) names.languages prepared languages

/-- What the code of prepared forms refers to. -/
def Preparation.scope (preparation : Preparation forms) (prints : Bool) : Scope :=
  ⟨preparation.languages, preparation.names.metafunctions, prints⟩

/-- The stages of a compilation that succeeds. -/
structure Compilation (forms : List Form) (prints : Bool) where
  names : Names
  start : Draft
  named : Yields (defineNames forms) .empty names start
  prepared : List PreparedForm
  languages : Table Language
  prepares : Leads (forms.mapM (prepareForm names)) names.languages prepared languages
  additions : List Addition
  draft : Draft
  generates : Yields (generateAll ⟨languages, names.metafunctions, prints⟩ (forms.zip prepared))
    start additions draft

namespace Compilation

variable {prints : Bool} (compilation : Compilation forms prints)

/-- What the code of the forms refers to. -/
def scope : Scope := ⟨compilation.languages, compilation.names.metafunctions, prints⟩

/-- The stages before code was generated. -/
def preparation : Preparation forms :=
  ⟨compilation.names, compilation.start, compilation.named, compilation.prepared,
    compilation.languages, compilation.prepares⟩

/-- The program that a compilation gives. -/
def program : Program :=
  assemble compilation.draft compilation.names compilation.additions

end Compilation

/-- A program that is compiled has passed the stages. -/
theorem compile_eq_ok {prints : Bool} {program : Program} :
    compile forms prints = .ok program ↔
      ∃ compilation : Compilation forms prints, compilation.program = program := by
  constructor
  · intro compiled
    unfold compile at compiled
    match defined : (defineNames forms).run .empty with
    | (.error fault, start) =>
      simp only [defined] at compiled
      cases compiled
    | (.ok names, start) =>
      simp only [defined] at compiled
      obtain ⟨_, same, compiled⟩ := Except.bind_eq_ok.mp compiled
      cases same
      obtain ⟨⟨prepared, languages⟩, prepares, compiled⟩ := Except.bind_eq_ok.mp compiled
      match generates : (generateAll ⟨languages, names.metafunctions, prints⟩
          (forms.zip prepared)).run start with
      | (.error fault, draft) =>
        simp only [generates] at compiled
        cases compiled
      | (.ok additions, draft) =>
        simp only [generates] at compiled
        cases compiled
        exact ⟨⟨names, start, defined, prepared, languages, prepares, additions, draft, generates⟩,
          rfl⟩
  · rintro ⟨⟨names, start, defined, prepared, languages, prepares, additions, draft, generates⟩, rfl⟩
    rw [Yields] at defined
    unfold compile
    simp only [defined]
    refine Except.bind_eq_ok.mpr ⟨names, rfl, Except.bind_eq_ok.mpr ⟨(prepared, languages), prepares,
      Except.bind_eq_ok.mpr ⟨additions, ?_, ?_⟩⟩⟩
    · exact congrArg Prod.fst generates
    · change Except.ok (assemble ((generateAll ⟨languages, names.metafunctions, prints⟩
        (forms.zip prepared)).run start).2 names additions) = _
      rw [Yields] at generates
      rw [generates]
      rfl

end Program

end Reduct
