import Reduct.Form.Read
import Reduct.Proofs.Recognition
import Reduct.Proofs.ReadingBack
import Reduct.Proofs.TemplateMeaning

/-!
# Forms as they are read

The forms of a source have written patterns and templates. All of their atoms are legible, so
every constant that is made of them reads back, and their terms are proper if the source can be
counted.
-/

namespace Reduct

/-- A mapped result is one that was found. -/
theorem Except.map_eq_ok {ε α β : Type} {found : Except ε α} {after : α → β} {result : β} :
    found.map after = .ok result ↔ ∃ value, found = .ok value ∧ after value = result := by
  cases found with
  | error fault => exact ⟨nofun, nofun⟩
  | ok value =>
    constructor
    · rintro ⟨⟩
      exact ⟨value, rfl, rfl⟩
    · rintro ⟨_, ⟨⟩, rfl⟩
      rfl

/-- A traversal succeeds if every step does. -/
theorem mapM_eq_ok {ε α β : Type} {step : α → Except ε β} {items : List α} :
    ∀ {results : List β}, items.mapM step = .ok results ↔
      List.Forall₂ (fun item result => step item = .ok result) items results := by
  induction items with
  | nil =>
    intro results
    rw [List.mapM_nil, List.forall₂_nil_left_iff]
    constructor
    · rintro ⟨⟩
      rfl
    · rintro rfl
      rfl
  | cons item rest ih =>
    intro results
    rw [List.mapM_cons]
    constructor
    · intro passed
      obtain ⟨first, here, passed⟩ := Except.bind_eq_ok.mp passed
      obtain ⟨others, there, passed⟩ := Except.bind_eq_ok.mp passed
      cases passed
      exact .cons here (ih.mp there)
    · rintro (_ | ⟨here, there⟩)
      exact Except.bind_eq_ok.mpr ⟨_, here, Except.bind_eq_ok.mpr ⟨_, ih.mpr there, rfl⟩⟩

theorem mapM_eq_some {α β : Type} {step : α → Option β} {items : List α} :
    ∀ {results : List β}, items.mapM step = some results ↔
      List.Forall₂ (fun item result => step item = some result) items results := by
  induction items with
  | nil =>
    intro results
    rw [List.mapM_nil, List.forall₂_nil_left_iff]
    constructor
    · rintro ⟨⟩
      rfl
    · rintro rfl
      rfl
  | cons item rest ih =>
    intro results
    rw [List.mapM_cons]
    constructor
    · intro passed
      obtain ⟨first, here, passed⟩ := Option.bind_eq_some_iff.mp passed
      obtain ⟨others, there, passed⟩ := Option.bind_eq_some_iff.mp passed
      cases passed
      exact .cons here (ih.mp there)
    · rintro (_ | ⟨here, there⟩)
      exact Option.bind_eq_some_iff.mpr ⟨_, here, Option.bind_eq_some_iff.mpr
        ⟨_, ih.mpr there, rfl⟩⟩

/-- Every result of related lists is one of an item. -/
theorem exists_of_mem_right {α β : Type} {related : α → β → Prop} {items : List α}
    {results : List β} (all : List.Forall₂ related items results) {result : β}
    (listed : result ∈ results) : ∃ item ∈ items, related item result := by
  induction all with
  | nil => cases listed
  | cons first _ ih =>
    rcases List.mem_cons.mp listed with rfl | later
    · exact ⟨_, List.mem_cons_self, first⟩
    · obtain ⟨item, among, holds⟩ := ih later
      exact ⟨item, List.mem_cons_of_mem _ among, holds⟩

/-- Every item of related lists has a result. -/
theorem exists_of_mem_left {α β : Type} {related : α → β → Prop} {items : List α}
    {results : List β} (all : List.Forall₂ related items results) {item : α}
    (listed : item ∈ items) : ∃ result ∈ results, related item result := by
  induction all with
  | nil => cases listed
  | cons first _ ih =>
    rcases List.mem_cons.mp listed with rfl | later
    · exact ⟨_, List.mem_cons_self, first⟩
    · obtain ⟨result, among, holds⟩ := ih later
      exact ⟨result, List.mem_cons_of_mem _ among, holds⟩

/-- Lists that are related through a third one. -/
theorem forall₂_through {α β γ : Type} {one : α → β → Prop} {two : β → γ → Prop} {items : List α}
    {between : List β} {others : List γ} (first : List.Forall₂ one items between)
    (second : List.Forall₂ two between others) :
    List.Forall₂ (fun item other => ∃ middle, one item middle ∧ two middle other) items others := by
  induction first generalizing others with
  | nil =>
    cases second
    exact .nil
  | cons here _ ih =>
    cases second with
    | cons there later => exact .cons ⟨_, here, there⟩ (ih later)

/-- What holds of all results of a traversal holds of those of every item. -/
theorem forall_of_mapM {ε α β : Type} {step : α → Except ε β} {items : List α} {results : List β}
    (passed : items.mapM step = .ok results) {good : β → Prop}
    (each : ∀ item ∈ items, ∀ result, step item = .ok result → good result) :
    ∀ result ∈ results, good result := by
  have steps := mapM_eq_ok.mp passed
  clear passed
  induction steps with
  | nil => nofun
  | cons here _ ih =>
    obtain ⟨first, others⟩ := List.forall_mem_cons.mp each
    exact List.forall_mem_cons.mpr ⟨first _ here, ih others⟩

namespace Pattern

mutual

/-- The atoms that a pattern compares with: its literals, and the names that it excludes. A bare
symbol other than `hole` may become a literal. -/
def atoms : Pattern → List Atom
  | .literal value => [value]
  | .builtIn (.variableExcept excluded) _ => excluded.map .symbol
  | .sequence items => atomsAll items
  | .repeated inner _ => inner.atoms
  | .inHole context contents _ => context.atoms ++ contents.atoms
  | .unresolved name => if name = "hole" then [] else [.symbol name]
  | _ => []

/-- The atoms that a list of patterns compares with. -/
def atomsAll : List Pattern → List Atom
  | [] => []
  | item :: rest => item.atoms ++ atomsAll rest

end

mutual

theorem atoms_skeleton : (pattern : Pattern) → pattern.skeleton.atoms = pattern.atoms
  | .literal _ | .nonTerminal .. | .check _ | .unresolved _ => rfl
  | .builtIn kind _ => by cases kind <;> rfl
  | .sequence items => atomsAll_skeletonAll items
  | .repeated inner _ => atoms_skeleton inner
  | .inHole context contents _ => by
    rw [skeleton, atoms, atoms, atoms_skeleton context, atoms_skeleton contents]

theorem atomsAll_skeletonAll : (items : List Pattern) →
    atomsAll (skeletonAll items) = atomsAll items
  | [] => rfl
  | item :: rest => by
    by_cases test : item.isCheck = true
    · cases item with
      | check test => exact atomsAll_skeletonAll rest
      | _ => cases test
    · rw [skeletonAll_cons (by simpa using test), atomsAll, atomsAll, atoms_skeleton item,
        atomsAll_skeletonAll rest]

end

mutual

/-- The bare symbols of a pattern, from left to right. -/
def bareSymbols : Pattern → List Symbol
  | .sequence items => bareSymbolsAll items
  | .repeated inner _ => inner.bareSymbols
  | .inHole context contents _ => context.bareSymbols ++ contents.bareSymbols
  | .unresolved name => [name]
  | _ => []

/-- The bare symbols of a list of patterns, from left to right. -/
def bareSymbolsAll : List Pattern → List Symbol
  | [] => []
  | item :: rest => item.bareSymbols ++ bareSymbolsAll rest

end

/-- A pattern as it is read: its symbols are bare, no literal is the variable named `hole`, and
its atoms are legible. -/
structure Read (pattern : Pattern) : Prop where
  written : pattern.isWritten = true
  plain : pattern.spellsHole = false
  legible : ∀ value ∈ pattern.atoms, value.Legible

/-- Patterns that are read stand in a sequence that is. -/
theorem read_sequence {items : List Pattern} (written : areWritten items = true)
    (plain : spellsHoleAny items = false) (legible : ∀ value ∈ atomsAll items, value.Legible) :
    (Pattern.sequence items).Read :=
  ⟨written, plain, legible⟩

end Pattern

namespace Sexp

theorem Readable.items {bound : Nat} {items : List Sexp} {span : Span}
    (readable : (Sexp.list items span).Readable bound) : ∀ item ∈ items, item.Readable bound := by
  cases readable with
  | list short each => exact each

theorem Readable.symbol {bound : Nat} {sexp : Sexp} {name : Symbol}
    (readable : sexp.Readable bound) (named : sexp.symbol? = some name) :
    (Atom.symbol name).Legible := by
  cases readable with
  | @atom value span legible =>
    cases value with
    | symbol other =>
      cases named
      exact legible
    | _ => cases named
  | list => cases named

theorem readable_symbols {bound : Nat} {items : List Sexp} :
    ∀ {names : List Symbol}, (∀ item ∈ items, item.Readable bound) → symbols? items = some names →
      ∀ name ∈ names, (Atom.symbol name).Legible := by
  induction items with
  | nil =>
    intro names _ found
    cases found
    nofun
  | cons item rest ih =>
    intro names readable found
    obtain ⟨here, later⟩ := List.forall_mem_cons.mp readable
    rw [symbols?] at found
    split at found
    · rename_i name names first others
      cases found
      exact List.forall_mem_cons.mpr ⟨here.symbol first, ih later others⟩
    · cases found

mutual

/-- What the reader gives spells no literal `hole`, and has legible atoms. -/
theorem plain_toPattern {bound : Nat} : (sexp : Sexp) → {pattern : Pattern} →
    sexp.Readable bound → sexp.toPattern = .ok pattern →
    pattern.spellsHole = false ∧ ∀ value ∈ pattern.atoms, value.Legible
  | .atom value span, pattern, readable, read => by
    have legible : value.Legible := by
      cases readable with
      | atom legible => exact legible
    cases value with
    | symbol name =>
      rw [toPattern] at read
      split at read
      · cases read
      · cases read
        refine ⟨rfl, ?_⟩
        rw [Pattern.atoms]
        split
        · nofun
        · exact List.forall_mem_singleton.mpr legible
    | _ =>
      cases read
      exact ⟨by simp [Pattern.spellsHole], List.forall_mem_singleton.mpr legible⟩
  | .list items span, pattern, readable, read => by
    unfold toPattern at read
    split at read
    · split at read
      · rename_i context contents _
        obtain ⟨outer, first, rest⟩ := Except.bind_eq_ok.mp read
        obtain ⟨inner, second, last⟩ := Except.bind_eq_ok.mp rest
        cases last
        obtain ⟨one, left⟩ := plain_toPattern context (readable.items _ (by simp)) first
        obtain ⟨two, right⟩ := plain_toPattern contents (readable.items _ (by simp)) second
        refine ⟨?_, fun value listed => ?_⟩
        · rw [Pattern.spellsHole, one, two, Bool.or_false]
        · exact (List.mem_append.mp listed).elim (left value) (right value)
      · cases read
    · split at read
      · rename_i first rest found
        cases read
        have names := readable_symbols
          (fun item listed => readable.items item (List.mem_of_mem_tail listed)) found
        refine ⟨rfl, fun value listed => ?_⟩
        obtain ⟨name, among, rfl⟩ := List.mem_map.mp listed
        exact names name among
      · cases read
    · obtain ⟨all, first, last⟩ := Except.bind_eq_ok.mp read
      cases last
      exact plain_toPatternsAfter items readable.items first
termination_by sexp => sizeOf sexp

theorem plain_toPatternsAfter {bound : Nat} {fault : EllipsisFault} : (items : List Sexp) →
    {patterns : List Pattern} → (∀ item ∈ items, item.Readable bound) →
    toPatternsAfter fault items = .ok patterns →
    Pattern.spellsHoleAny patterns = false ∧ ∀ value ∈ Pattern.atomsAll patterns, value.Legible
  | [], patterns, _, read => by
    cases read
    exact ⟨rfl, nofun⟩
  | [item], patterns, readable, read => by
    rw [toPatternsAfter] at read
    split at read
    · cases read
    · obtain ⟨first, here, last⟩ := Except.bind_eq_ok.mp read
      cases last
      obtain ⟨plain, legible⟩ := plain_toPattern item (readable item List.mem_cons_self) here
      refine ⟨?_, ?_⟩
      · rw [Pattern.spellsHoleAny, plain]
        rfl
      · rw [Pattern.atomsAll, Pattern.atomsAll, List.append_nil]
        exact legible
  | item :: next :: rest, patterns, readable, read => by
    obtain ⟨fine, others⟩ := List.forall_mem_cons.mp readable
    have joined : ∀ {first : Pattern} {patterns : List Pattern},
        (first.spellsHole = false ∧ ∀ value ∈ first.atoms, value.Legible) →
        (Pattern.spellsHoleAny patterns = false ∧
          ∀ value ∈ Pattern.atomsAll patterns, value.Legible) →
        Pattern.spellsHoleAny (first :: patterns) = false ∧
          ∀ value ∈ Pattern.atomsAll (first :: patterns), value.Legible := by
      rintro first patterns ⟨one, left⟩ ⟨two, right⟩
      refine ⟨?_, fun value listed => ?_⟩
      · rw [Pattern.spellsHoleAny, one, two, Bool.or_false]
      · exact (List.mem_append.mp listed).elim (left value) (right value)
    rw [toPatternsAfter] at read
    split at read
    · cases read
    · obtain ⟨first, here, last⟩ := Except.bind_eq_ok.mp read
      have plain := plain_toPattern item fine here
      split at last
      · obtain ⟨more, there, all⟩ := Except.bind_eq_ok.mp last
        cases all
        exact joined plain
          (plain_toPatternsAfter rest (List.forall_mem_cons.mp others).2 there)
      · obtain ⟨more, there, all⟩ := Except.bind_eq_ok.mp last
        cases all
        exact joined plain (plain_toPatternsAfter (next :: rest) others there)
termination_by items => sizeOf items

end

/-- The pattern of a readable expression. -/
theorem Readable.toPattern {bound : Nat} {sexp : Sexp} (readable : sexp.Readable bound)
    {pattern : Pattern} (read : sexp.toPattern = .ok pattern) : pattern.Read := by
  obtain ⟨plain, legible⟩ := plain_toPattern sexp readable read
  exact ⟨isWritten_toPattern sexp read, plain, legible⟩

/-- The sequence of the patterns of readable expressions. -/
theorem read_toPatterns {bound : Nat} {items : List Sexp}
    (readable : ∀ item ∈ items, item.Readable bound) {patterns : List Pattern}
    (read : toPatterns items = .ok patterns) : (Pattern.sequence patterns).Read := by
  obtain ⟨plain, legible⟩ := plain_toPatternsAfter items readable read
  exact Pattern.read_sequence (areWritten_toPatternsAfter items read) plain legible

end Sexp

/-- A term that can be written, and is read back from what is written. -/
structure Term.Plain (term : Term) : Prop where
  legible : term.Legible
  proper : term.Proper

theorem Term.Proper.reread {term : Term} (proper : term.Proper) : term.reread = term := by
  induction proper with
  | atom named => exact Term.reread_atom named
  | hole => rfl
  | sequence _ _ each =>
    rw [Term.reread, Term.rereadAll_eq_map, List.map_congr_left each, List.map_id']

theorem Term.Plain.read {term : Term} (plain : term.Plain) : Term.read term.text = .ok term := by
  rw [plain.legible.read_text, plain.proper.reread]

namespace Template

/-- A template whose constants can be written, its symbols among them. -/
def Read (template : Template) : Prop := template.Constants .empty Term.Plain

mutual

/-- The constants of a template, whichever symbols are bound. -/
theorem constants_of_empty {depths : Depths} {good : Term → Prop} : (template : Template) →
    template.Constants .empty good → template.Constants depths good
  | .literal _, constants => constants
  | .symbol _, constants => fun _ => constants rfl
  | .sequence items, constants => constantsAll_of_empty items constants
  | .repeated inner, constants => constants_of_empty inner constants
  | .inHole context contents, constants =>
    ⟨constants_of_empty context constants.1, constants_of_empty contents constants.2⟩
  | .foreign _ arguments _, constants => constantsAll_of_empty arguments constants

theorem constantsAll_of_empty {depths : Depths} {good : Term → Prop} : (items : List Template) →
    ConstantsAll .empty good items → ConstantsAll depths good items
  | [], _ => trivial
  | item :: rest, constants =>
    ⟨constants_of_empty item constants.1, constantsAll_of_empty rest constants.2⟩

end

end Template

namespace Sexp

theorem plain_symbol {name : Symbol} (legible : (Atom.symbol name).Legible) (named : name ≠ "hole") :
    (Term.symbol name).Plain := by
  refine ⟨.atom legible, .atom ?_⟩
  rintro ⟨rfl⟩
  exact named rfl

mutual

/-- The template of a readable expression. -/
theorem read_toTemplate {bound : Nat} : (sexp : Sexp) → {template : Template} →
    sexp.Readable bound → sexp.toTemplate = .ok template → template.Read
  | .atom value span, template, readable, read => by
    have legible : value.Legible := by
      cases readable with
      | atom legible => exact legible
    cases value with
    | symbol name =>
      rw [toTemplate] at read
      split at read
      · cases read
      · split at read
        · cases read
          exact ⟨.hole, .hole⟩
        · rename_i named
          cases read
          exact fun _ => plain_symbol legible named
    | _ =>
      cases read
      exact ⟨.atom legible, .atom nofun⟩
  | .list items span, template, readable, read => by
    unfold toTemplate at read
    split at read
    · split at read
      · rename_i context contents _
        obtain ⟨outer, first, rest⟩ := Except.bind_eq_ok.mp read
        obtain ⟨inner, second, last⟩ := Except.bind_eq_ok.mp rest
        cases last
        exact ⟨read_toTemplate context (readable.items _ (by simp)) first,
          read_toTemplate contents (readable.items _ (by simp)) second⟩
      · cases read
    · split at read
      · split at read
        · rename_i keyword function rest _ _
          split at read
          · obtain ⟨arguments, first, last⟩ := Except.bind_eq_ok.mp read
            cases last
            have fine : ∀ item ∈ rest, item.Readable bound := by
              intro item listed
              exact readable.items item (by simp [listed])
            exact read_toTemplatesAfter rest fine first
          · cases read
        · cases read
      · obtain ⟨templates, first, last⟩ := Except.bind_eq_ok.mp read
        cases last
        exact read_toTemplatesAfter items readable.items first
termination_by sexp => sizeOf sexp

theorem read_toTemplatesAfter {bound : Nat} {fault : EllipsisFault} : (items : List Sexp) →
    {templates : List Template} → (∀ item ∈ items, item.Readable bound) →
    toTemplatesAfter fault items = .ok templates →
    Template.ConstantsAll .empty Term.Plain templates
  | [], templates, _, read => by
    cases read
    trivial
  | [item], templates, readable, read => by
    rw [toTemplatesAfter] at read
    split at read
    · cases read
    · obtain ⟨first, here, last⟩ := Except.bind_eq_ok.mp read
      cases last
      exact ⟨read_toTemplate item (readable item List.mem_cons_self) here, trivial⟩
  | item :: next :: rest, templates, readable, read => by
    obtain ⟨fine, others⟩ := List.forall_mem_cons.mp readable
    rw [toTemplatesAfter] at read
    split at read
    · cases read
    · obtain ⟨first, here, last⟩ := Except.bind_eq_ok.mp read
      have made := read_toTemplate item fine here
      split at last
      · obtain ⟨more, there, all⟩ := Except.bind_eq_ok.mp last
        cases all
        exact ⟨made, read_toTemplatesAfter rest (List.forall_mem_cons.mp others).2 there⟩
      · obtain ⟨more, there, all⟩ := Except.bind_eq_ok.mp last
        cases all
        exact ⟨made, read_toTemplatesAfter (next :: rest) others there⟩
termination_by items => sizeOf items

end

/-- The term of a readable expression. -/
theorem Readable.plain {bound : Nat} {sexp : Sexp} (readable : sexp.Readable bound)
    (small : bound ≤ mostCount) : sexp.toTerm.Plain := by
  obtain ⟨legible, proper⟩ := readable.toTerm small
  exact ⟨legible, proper⟩

end Sexp

/-- The patterns of the arguments and of the result. -/
def Contract.patterns (contract : Contract) : List Pattern :=
  [.sequence contract.domain, contract.codomain]

namespace Form

/-- The patterns that a form uses, each with the language that it names, in the order in which they
are prepared. -/
def uses (form : Form) : List (Symbol × Pattern) :=
  match form.body with
  | .relation definition =>
    (definition.domain.toList ++ definition.cases.map (·.pattern)).map (definition.language, ·)
  | .metafunction definition =>
    (definition.contract.toList.flatMap Contract.patterns ++
      definition.cases.map (Pattern.sequence ·.arguments)).map (definition.language, ·)
  | .redexMatch language pattern _ => [(language, pattern)]
  | .assertMatch language pattern _ _ => [(language, pattern)]
  | .assertTerm language bindings _ _ => bindings.map fun binding => (language, binding.1)
  | _ => []

/-- The templates of a form. -/
def templates (form : Form) : List Template :=
  match form.body with
  | .relation definition => definition.cases.map (·.template)
  | .metafunction definition => definition.cases.map (·.template)
  | .assertTerm _ _ template _ => [template]
  | _ => []

/-- The terms of a form. -/
def terms (form : Form) : List Term :=
  match form.body with
  | .redexMatch _ _ term => [term]
  | .assertMatch _ _ term expected => term :: expected.flatMap fun bindings => bindings.map (·.2)
  | .assertTerm _ bindings _ expected => bindings.map (·.2) ++ [expected]
  | .assertReduction _ term expected => term :: expected
  | _ => []

/-- The productions of the language that a form defines. -/
def productions (form : Form) : List Pattern :=
  match form.body with
  | .language definition => definition.rules.flatMap (·.alternatives)
  | _ => []

/-- A form as it is read. -/
structure Read (form : Form) : Prop where
  productions : ∀ pattern ∈ form.productions, pattern.Read
  uses : ∀ use ∈ form.uses, use.2.Read
  templates : ∀ template ∈ form.templates, template.Read
  terms : ∀ term ∈ form.terms, term.Plain

/-- The atoms of a form are good. -/
structure Composed (good : Atom → Prop) (form : Form) : Prop where
  productions : ∀ pattern ∈ form.productions, ∀ value ∈ pattern.atoms, good value
  uses : ∀ use ∈ form.uses, ∀ value ∈ use.2.atoms, good value
  templates : ∀ template ∈ form.templates, template.Constants .empty (Term.Composed good)
  terms : ∀ term ∈ form.terms, term.Composed good

/-- The host functions that the templates of a form call. -/
def foreigns (form : Form) : List Symbol :=
  form.templates.flatMap fun template => template.foreigns.map (·.1)

/-- No symbol of a pattern or template of a form has the mark of a generated name. -/
def Unmarked (form : Form) : Prop :=
  (∀ use ∈ form.uses, ∀ symbol ∈ use.2.bareSymbols, Symbol.isSynthetic symbol = false) ∧
    ∀ template ∈ form.templates, ∀ symbol ∈ template.symbols, Symbol.isSynthetic symbol = false

end Form

namespace Form

open Sexp

variable {bound : Nat} {span : Span} {arguments : List Sexp}

theorem readable_listPart {part : Option Sexp} {what : String} {items : List Sexp}
    (readable : ∀ sexp, part = some sexp → sexp.Readable bound)
    (read : listPart part span what = .ok items) : ∀ item ∈ items, item.Readable bound := by
  unfold listPart at read
  split at read
  · rename_i found
    cases read
    obtain ⟨sexp, same, inner⟩ := Option.bind_eq_some_iff.mp found
    cases sexp with
    | atom value span => cases inner
    | list items span =>
      cases inner
      exact (readable _ same).items
  · cases read

theorem readable_some {sexp : Sexp} (readable : sexp.Readable bound) :
    ∀ other, some sexp = some other → other.Readable bound := by
  rintro other ⟨rfl⟩
  exact readable

theorem read_readRule {clause : Sexp} {rule : RuleDefinition} (readable : clause.Readable bound)
    (read : readRule span clause = .ok rule) : ∀ pattern ∈ rule.alternatives, pattern.Read := by
  obtain ⟨items, listed, read⟩ := Except.bind_eq_ok.mp read
  obtain ⟨name, _, read⟩ := Except.bind_eq_ok.mp read
  have each := readable_listPart (readable_some readable) listed
  have rest : ∀ {alternatives : List Sexp}, (∀ item ∈ alternatives, item ∈ items.tail) →
      (if alternatives.isEmpty then .error (malformed (.noAlternatives name) clause.span)
        else (alternatives.mapM Sexp.toPattern).bind fun patterns =>
          .ok (⟨name, patterns, clause.span⟩ : RuleDefinition)) = .ok rule →
      ∀ pattern ∈ rule.alternatives, pattern.Read := by
    intro alternatives inside read
    split at read
    · cases read
    · obtain ⟨patterns, passed, made⟩ := Except.bind_eq_ok.mp read
      cases made
      exact forall_of_mapM passed fun item among pattern found =>
        (each item (List.mem_of_mem_tail (inside item among))).toPattern found
  cases same : items.tail with
  | nil =>
    rw [same] at rest read
    exact rest (fun item among => among) read
  | cons first others =>
    rw [same] at rest read
    by_cases arrow : first.isSymbol "::=" = true
    · simp only [if_pos arrow] at read
      exact rest (fun item among => List.mem_cons_of_mem _ among) read
    · simp only [if_neg arrow] at read
      exact rest (fun item among => among) read

theorem read_readLanguage {definition : LanguageDefinition}
    (readable : ∀ sexp ∈ arguments, sexp.Readable bound)
    (read : readLanguage arguments span = .ok definition) :
    ∀ rule ∈ definition.rules, ∀ pattern ∈ rule.alternatives, pattern.Read := by
  obtain ⟨name, _, read⟩ := Except.bind_eq_ok.mp read
  obtain ⟨rules, passed, made⟩ := Except.bind_eq_ok.mp read
  cases made
  exact forall_of_mapM passed fun clause among rule found =>
    read_readRule (readable clause (List.mem_of_mem_tail among)) found

theorem read_readCase {case : Sexp} {result : ReductionCase} (readable : case.Readable bound)
    (read : readCase span case = .ok result) : result.pattern.Read ∧ result.template.Read := by
  obtain ⟨items, listed, read⟩ := Except.bind_eq_ok.mp read
  have each := readable_listPart (readable_some readable) listed
  split at read
  · split at read
    · obtain ⟨name, _, read⟩ := Except.bind_eq_ok.mp read
      obtain ⟨pattern, one, read⟩ := Except.bind_eq_ok.mp read
      obtain ⟨template, two, made⟩ := Except.bind_eq_ok.mp read
      cases made
      exact ⟨(each _ (by simp)).toPattern one, read_toTemplate _ (each _ (by simp)) two⟩
    · cases read
  · cases read

theorem read_readRelation {definition : RelationDefinition}
    (readable : ∀ sexp ∈ arguments, sexp.Readable bound)
    (read : readRelation arguments span = .ok definition) :
    (∀ pattern ∈ definition.domain, pattern.Read) ∧
      ∀ case ∈ definition.cases, case.pattern.Read ∧ case.template.Read := by
  obtain ⟨name, _, read⟩ := Except.bind_eq_ok.mp read
  obtain ⟨language, _, read⟩ := Except.bind_eq_ok.mp read
  obtain ⟨⟨domain, rest⟩, first, read⟩ := Except.bind_eq_ok.mp read
  obtain ⟨cases_, passed, made⟩ := Except.bind_eq_ok.mp read
  cases made
  have dropped : ∀ sexp ∈ arguments.drop 2, sexp.Readable bound :=
    fun sexp among => readable sexp (List.mem_of_mem_drop among)
  have parts : (∀ pattern ∈ domain, pattern.Read) ∧ ∀ sexp ∈ rest, sexp.Readable bound := by
    unfold readDomain at first
    split at first
    · rename_i keyword others same
      rw [same] at dropped
      obtain ⟨_, later⟩ := List.forall_mem_cons.mp dropped
      split at first
      · split at first
        · rename_i pattern cases_
          obtain ⟨found, one, made⟩ := Except.bind_eq_ok.mp first
          cases made
          obtain ⟨here, after⟩ := List.forall_mem_cons.mp later
          refine ⟨?_, after⟩
          rintro other ⟨rfl⟩
          exact here.toPattern one
        · cases first
      · cases first
        rw [same]
        exact ⟨nofun, dropped⟩
    · cases first
      exact ⟨nofun, nofun⟩
  exact ⟨parts.1, forall_of_mapM passed fun case among result found =>
    read_readCase (parts.2 case among) found⟩

theorem read_readClause {known : Option Symbol} {case : Sexp} {result : Symbol × MetafunctionCase}
    (readable : case.Readable bound) (read : readClause span known case = .ok result) :
    (Pattern.sequence result.2.arguments).Read ∧ result.2.template.Read := by
  obtain ⟨items, listed, read⟩ := Except.bind_eq_ok.mp read
  have each := readable_listPart (readable_some readable) listed
  split at read
  · rename_i left right
    obtain ⟨parts, shape, read⟩ := Except.bind_eq_ok.mp read
    have inner := readable_listPart (readable_some (each left (by simp))) shape
    obtain ⟨name, _, read⟩ := Except.bind_eq_ok.mp read
    have last : ∃ patterns template, Sexp.toPatterns parts.tail = .ok patterns ∧
        right.toTemplate = .ok template ∧ result = (name, ⟨patterns, template, case.span⟩) := by
      have rest : ∀ {result : Symbol × MetafunctionCase},
          ((Sexp.toPatterns parts.tail).bind fun patterns => right.toTemplate.bind fun template =>
            Except.ok (name, (⟨patterns, template, case.span⟩ : MetafunctionCase))) = .ok result →
          ∃ patterns template, Sexp.toPatterns parts.tail = .ok patterns ∧
            right.toTemplate = .ok template ∧ result = (name, ⟨patterns, template, case.span⟩) := by
        intro result read
        obtain ⟨patterns, one, read⟩ := Except.bind_eq_ok.mp read
        obtain ⟨template, two, made⟩ := Except.bind_eq_ok.mp read
        cases made
        exact ⟨patterns, template, one, two, rfl⟩
      split at read
      · split at read
        · cases read
        · exact rest read
      · exact rest read
    obtain ⟨patterns, template, one, two, rfl⟩ := last
    exact ⟨read_toPatterns (fun item among => inner item (List.mem_of_mem_tail among)) one,
      read_toTemplate right (each right (by simp)) two⟩
  · cases read

theorem read_readClauses {cases_ : List Sexp} : ∀ {known : Option Symbol}
    {result : Option Symbol × List MetafunctionCase}, (∀ case ∈ cases_, case.Readable bound) →
    readClauses span known cases_ = .ok result →
    ∀ case ∈ result.2, (Pattern.sequence case.arguments).Read ∧ case.template.Read := by
  induction cases_ with
  | nil =>
    intro known result _ read
    cases read
    nofun
  | cons case rest ih =>
    intro known result readable read
    obtain ⟨here, later⟩ := List.forall_mem_cons.mp readable
    obtain ⟨⟨name, first⟩, one, read⟩ := Except.bind_eq_ok.mp read
    obtain ⟨⟨last, others⟩, two, made⟩ := Except.bind_eq_ok.mp read
    cases made
    exact List.forall_mem_cons.mpr ⟨read_readClause here one, ih later two⟩

theorem read_readMetafunction {definition : MetafunctionDefinition}
    (readable : ∀ sexp ∈ arguments, sexp.Readable bound)
    (read : readMetafunction arguments span = .ok definition) :
    (∀ contract ∈ definition.contract,
      (Pattern.sequence contract.domain).Read ∧ contract.codomain.Read) ∧
      ∀ case ∈ definition.cases, (Pattern.sequence case.arguments).Read ∧ case.template.Read := by
  obtain ⟨language, _, read⟩ := Except.bind_eq_ok.mp read
  obtain ⟨⟨declared, contract, rest⟩, header, read⟩ := Except.bind_eq_ok.mp read
  obtain ⟨⟨name, cases_⟩, clauses, read⟩ := Except.bind_eq_ok.mp read
  have tails : ∀ sexp ∈ arguments.tail, sexp.Readable bound :=
    fun sexp among => readable sexp (List.mem_of_mem_tail among)
  have parts : (∀ found ∈ contract, (Pattern.sequence found.domain).Read ∧ found.codomain.Read) ∧
      ∀ sexp ∈ rest, sexp.Readable bound := by
    unfold readHeader at header
    split at header
    · obtain ⟨⟨other, after⟩, inner, made⟩ := Except.bind_eq_ok.mp header
      cases made
      have further : ∀ sexp ∈ arguments.tail.tail, sexp.Readable bound :=
        fun sexp among => tails sexp (List.mem_of_mem_tail among)
      unfold readContract at inner
      split at inner
      · rename_i colon others same
        rw [same] at further
        obtain ⟨_, later⟩ := List.forall_mem_cons.mp further
        split at inner
        · dsimp only at inner
          split at inner
          · rename_i arrow codomain remaining dropped
            have suffix : ∀ sexp ∈ arrow :: codomain :: remaining, sexp.Readable bound := by
              rw [← dropped]
              exact fun sexp among => later sexp ((List.dropWhile_sublist _).subset among)
            obtain ⟨domain, one, inner⟩ := Except.bind_eq_ok.mp inner
            obtain ⟨result, two, made⟩ := Except.bind_eq_ok.mp inner
            cases made
            refine ⟨?_, fun sexp among => suffix sexp (by simp [among])⟩
            rintro found ⟨rfl⟩
            have before : ∀ item ∈ others.takeWhile fun part => !part.isSymbol "->",
                item.Readable bound :=
              fun item among => later item ((List.takeWhile_sublist _).subset among)
            exact ⟨read_toPatterns before one, (suffix codomain (by simp)).toPattern two⟩
          · cases inner
          · cases inner
        · cases inner
          rw [same]
          exact ⟨by simp, further⟩
      · cases inner
        exact ⟨by simp, List.forall_mem_nil _⟩
    · cases header
      exact ⟨by simp, tails⟩
  dsimp only at read
  split at read
  · cases read
    exact ⟨parts.1, read_readClauses parts.2 clauses⟩
  · cases read

theorem read_readMatch {body : FormBody} (small : bound ≤ mostCount)
    (readable : ∀ sexp ∈ arguments, sexp.Readable bound) (read : readMatch arguments span = .ok body) :
    Read ⟨body, span⟩ := by
  obtain ⟨_, _, read⟩ := Except.bind_eq_ok.mp read
  split at read
  · rename_i first second term _ _
    obtain ⟨language, _, read⟩ := Except.bind_eq_ok.mp read
    obtain ⟨pattern, found, made⟩ := Except.bind_eq_ok.mp read
    cases made
    exact
      { productions := List.forall_mem_nil _
        uses := List.forall_mem_singleton.mpr ((readable second (by simp)).toPattern found)
        templates := List.forall_mem_nil _
        terms := List.forall_mem_singleton.mpr ((readable term (by simp)).plain small) }
  · cases read

theorem plain_readBinding {binding : Sexp} {result : Symbol × Term} (small : bound ≤ mostCount)
    (readable : binding.Readable bound) (read : readBinding binding = .ok result) :
    result.2.Plain := by
  unfold readBinding at read
  split at read
  · rename_i symbol term found
    obtain ⟨name, _, made⟩ := Except.bind_eq_ok.mp read
    cases made
    cases binding with
    | atom value span => cases found
    | list items span =>
      cases found
      exact (readable.items term (by simp)).plain small
  · cases read

theorem plain_readExpected {sexp : Sexp} {result : List (Symbol × Term)} (small : bound ≤ mostCount)
    (readable : sexp.Readable bound) (read : readExpected sexp = .ok result) :
    ∀ binding ∈ result, binding.2.Plain := by
  obtain ⟨items, listed, passed⟩ := Except.bind_eq_ok.mp read
  have each := readable_listPart (readable_some readable) listed
  exact forall_of_mapM passed fun item among binding found =>
    plain_readBinding small (each item among) found

theorem read_readAssertMatch {body : FormBody} (small : bound ≤ mostCount)
    (readable : ∀ sexp ∈ arguments, sexp.Readable bound)
    (read : readAssertMatch arguments span = .ok body) : Read ⟨body, span⟩ := by
  obtain ⟨_, _, read⟩ := Except.bind_eq_ok.mp read
  split at read
  · rename_i first second term last _ _
    obtain ⟨items, listed, read⟩ := Except.bind_eq_ok.mp read
    obtain ⟨expected, passed, read⟩ := Except.bind_eq_ok.mp read
    obtain ⟨language, _, read⟩ := Except.bind_eq_ok.mp read
    obtain ⟨pattern, found, made⟩ := Except.bind_eq_ok.mp read
    cases made
    have each := readable_listPart (readable_some (readable last (by simp))) listed
    have lists : ∀ bindings ∈ expected, ∀ binding ∈ bindings, binding.2.Plain :=
      forall_of_mapM passed fun item among bindings found =>
        plain_readExpected small (each item among) found
    refine
      { productions := nofun
        uses := List.forall_mem_singleton.mpr ((readable second (by simp)).toPattern found)
        templates := nofun
        terms := List.forall_mem_cons.mpr ⟨(readable term (by simp)).plain small, ?_⟩ }
    intro value listed
    obtain ⟨bindings, among, inside⟩ := List.mem_flatMap.mp listed
    obtain ⟨binding, here, rfl⟩ := List.mem_map.mp inside
    exact lists bindings among binding here
  · cases read

theorem read_readPair {pair : Sexp} {result : Pattern × Term} (small : bound ≤ mostCount)
    (readable : pair.Readable bound) (read : readPair pair = .ok result) :
    result.1.Read ∧ result.2.Plain := by
  unfold readPair at read
  split at read
  · rename_i left right found
    obtain ⟨pattern, one, made⟩ := Except.bind_eq_ok.mp read
    cases made
    cases pair with
    | atom value span => cases found
    | list items span =>
      cases found
      exact ⟨(readable.items left (by simp)).toPattern one,
        (readable.items right (by simp)).plain small⟩
  · cases read

theorem read_readAssertTerm {body : FormBody} (small : bound ≤ mostCount)
    (readable : ∀ sexp ∈ arguments, sexp.Readable bound)
    (read : readAssertTerm arguments span = .ok body) : Read ⟨body, span⟩ := by
  obtain ⟨_, _, read⟩ := Except.bind_eq_ok.mp read
  split at read
  · rename_i first second middle last _ _
    obtain ⟨pairs, listed, read⟩ := Except.bind_eq_ok.mp read
    obtain ⟨bindings, passed, read⟩ := Except.bind_eq_ok.mp read
    obtain ⟨language, _, read⟩ := Except.bind_eq_ok.mp read
    obtain ⟨template, found, made⟩ := Except.bind_eq_ok.mp read
    cases made
    have each := readable_listPart (readable_some (readable second (by simp))) listed
    have both : ∀ binding ∈ bindings, binding.1.Read ∧ binding.2.Plain :=
      forall_of_mapM passed fun pair among binding found =>
        read_readPair small (each pair among) found
    exact
      { productions := nofun
        uses := List.forall_mem_map.mpr fun binding among => (both binding among).1
        templates := List.forall_mem_singleton.mpr
          (read_toTemplate middle (readable middle (by simp)) found)
        terms := List.forall_mem_append.mpr
          ⟨List.forall_mem_map.mpr fun binding among => (both binding among).2,
            List.forall_mem_singleton.mpr ((readable last (by simp)).plain small)⟩ }
  · cases read

theorem read_readAssertReduction {body : FormBody} (small : bound ≤ mostCount)
    (readable : ∀ sexp ∈ arguments, sexp.Readable bound)
    (read : readAssertReduction arguments span = .ok body) : Read ⟨body, span⟩ := by
  obtain ⟨_, _, read⟩ := Except.bind_eq_ok.mp read
  split at read
  · rename_i first term last _ _
    obtain ⟨results, listed, read⟩ := Except.bind_eq_ok.mp read
    obtain ⟨relation, _, made⟩ := Except.bind_eq_ok.mp read
    cases made
    have each := readable_listPart (readable_some (readable last (by simp))) listed
    exact
      { productions := List.forall_mem_nil _
        uses := List.forall_mem_nil _
        templates := List.forall_mem_nil _
        terms := List.forall_mem_cons.mpr ⟨(readable term (by simp)).plain small,
          List.forall_mem_map.mpr fun result among => (each result among).plain small⟩ }
  · cases read

theorem read_readBody {head : Symbol} {headSpan : Span} {body : FormBody}
    (small : bound ≤ mostCount) (readable : ∀ sexp ∈ arguments, sexp.Readable bound)
    (read : readBody head headSpan arguments span = .ok body) : Read ⟨body, span⟩ := by
  unfold readBody at read
  split at read
  · obtain ⟨definition, found, rfl⟩ := Except.map_eq_ok.mp read
    exact
      { productions := fun pattern listed => by
          obtain ⟨rule, among, inside⟩ := List.mem_flatMap.mp listed
          exact read_readLanguage readable found rule among pattern inside
        uses := nofun
        templates := nofun
        terms := nofun }
  · obtain ⟨definition, found, rfl⟩ := Except.map_eq_ok.mp read
    obtain ⟨domain, cases'⟩ := read_readRelation readable found
    exact
      { productions := nofun
        uses := List.forall_mem_map.mpr (List.forall_mem_append.mpr
          ⟨fun pattern listed => domain pattern (Option.mem_toList.mp listed),
            List.forall_mem_map.mpr fun case among => (cases' case among).1⟩)
        templates := List.forall_mem_map.mpr fun case among => (cases' case among).2
        terms := nofun }
  · obtain ⟨definition, found, rfl⟩ := Except.map_eq_ok.mp read
    obtain ⟨contract, cases'⟩ := read_readMetafunction readable found
    refine
      { productions := nofun
        uses := List.forall_mem_map.mpr (List.forall_mem_append.mpr
          ⟨?_, List.forall_mem_map.mpr fun case among => (cases' case among).1⟩)
        templates := List.forall_mem_map.mpr fun case among => (cases' case among).2
        terms := nofun }
    intro pattern listed
    obtain ⟨parts, among, inside⟩ := List.mem_flatMap.mp listed
    obtain ⟨first, second⟩ := contract parts (Option.mem_toList.mp among)
    exact List.forall_mem_cons.mpr ⟨first, List.forall_mem_singleton.mpr second⟩ pattern inside
  · exact read_readMatch small readable read
  · exact read_readAssertMatch small readable read
  · exact read_readAssertTerm small readable read
  · exact read_readAssertReduction small readable read
  · unfold readForeignSource at read
    split at read
    · cases read
      exact ⟨nofun, nofun, nofun, nofun⟩
    · cases read
  · cases read

theorem read_ofSexp {sexp : Sexp} {form : Form} (small : bound ≤ mostCount)
    (readable : sexp.Readable bound) (read : ofSexp sexp = .ok form) : form.Read := by
  unfold ofSexp at read
  split at read
  · split at read
    · obtain ⟨body, found, made⟩ := Except.bind_eq_ok.mp read
      cases made
      exact read_readBody small
        (fun item among => readable.items item (List.mem_cons_of_mem _ among)) found
    · cases read
  · cases read
  · cases read

end Form

/-- The forms of a source are as forms are read. -/
theorem Form.read_readAll {source : String} {forms : List Form}
    (small : source.utf8ByteSize ≤ mostCount) (read : Form.readAll source = .ok forms) :
    ∀ form ∈ forms, form.Read := by
  obtain ⟨sexps, found, passed⟩ := Except.bind_eq_ok.mp read
  have readable := Sexp.readable_of_readAll found
  exact forall_of_mapM passed fun sexp among form made =>
    Form.read_ofSexp small (readable sexp among) made

end Reduct
