import Reduct.Proofs.EllipsisFolds
import Reduct.Proofs.PrintedTerms

/-!
# The syntax of patterns and templates

Which expressions are patterns and which are templates is told by a grammar: a keyword at the head
of a list says how the list is taken apart, and in every other list an ellipsis stands right after
what it repeats. The written form of a pattern or of a template is that of the expression it was
made of, so an expression of a source is read back from it, up to its places, and makes the same
again.
-/

namespace Reduct

namespace Sexp

/-! ## What is accepted -/

/-- The expressions that are patterns. In every list that is not headed by a keyword, an ellipsis
repeats the item before it. -/
inductive IsPattern : Sexp → Prop
  | atom {value : Atom} {span : Span} (plain : value ≠ .symbol ellipsis) :
      IsPattern (.atom value span)
  | inHole {keyword context contents : Sexp} {span : Span} (head : keyword.symbol? = some "in-hole")
      (outer : IsPattern context) (inner : IsPattern contents) :
      IsPattern (.list [keyword, context, contents] span)
  | variableExcept {keyword first : Sexp} {rest : List Sexp} {span : Span}
      (head : keyword.symbol? = some "variable-except")
      (names : ∀ item ∈ first :: rest, ∃ name, item.symbol? = some name) :
      IsPattern (.list (keyword :: first :: rest) span)
  | sequence {items : List Sexp} {span : Span}
      (head : ∀ word ∈ (Sexp.list items span).head?, word ≠ "in-hole" ∧ word ≠ "variable-except")
      (follow : EllipsesFollow items)
      (each : ∀ item ∈ items, item.isSymbol ellipsis = false → IsPattern item) :
      IsPattern (.list items span)

/-- The expressions that are templates. In every list that is not headed by a keyword, and among the
arguments of a foreign function, an ellipsis repeats the item before it. -/
inductive IsTemplate : Sexp → Prop
  | atom {value : Atom} {span : Span} (plain : value ≠ .symbol ellipsis) :
      IsTemplate (.atom value span)
  | inHole {keyword context contents : Sexp} {span : Span} (head : keyword.symbol? = some "in-hole")
      (outer : IsTemplate context) (inner : IsTemplate contents) :
      IsTemplate (.list [keyword, context, contents] span)
  | foreign {keyword function : Sexp} {arguments : List Sexp} {span : Span}
      (head : keyword.symbol? = some "foreign-call" ∨ keyword.symbol? = some "foreign-splice")
      (name : ∃ name, function.symbol? = some name) (follow : EllipsesFollow arguments)
      (each : ∀ item ∈ arguments, item.isSymbol ellipsis = false → IsTemplate item) :
      IsTemplate (.list (keyword :: function :: arguments) span)
  | sequence {items : List Sexp} {span : Span}
      (head : ∀ word ∈ (Sexp.list items span).head?,
        word ≠ "in-hole" ∧ word ≠ "foreign-call" ∧ word ≠ "foreign-splice")
      (follow : EllipsesFollow items)
      (each : ∀ item ∈ items, item.isSymbol ellipsis = false → IsTemplate item) :
      IsTemplate (.list items span)

theorem symbols?_eq_some : (items : List Sexp) → {names : List Symbol} →
    (symbols? items = some names ↔ items.map symbol? = names.map some) := by
  intro items
  induction items with
  | nil =>
    intro names
    cases names <;> simp [symbols?]
  | cons item rest later =>
    intro names
    rw [symbols?]
    split
    · rename_i name others first found
      rw [List.map_cons, first]
      cases names with
      | nil => simp
      | cons => simp [← later, found]
    · rename_i missing
      refine ⟨by simp, fun same => ?_⟩
      cases names with
      | nil => cases same
      | cons name names =>
        obtain ⟨here, after⟩ := List.cons.inj same
        exact (missing name names here (later.mpr after)).elim

theorem exists_of_symbols? {items : List Sexp} {names : List Symbol}
    (found : symbols? items = some names) : ∀ item ∈ items, ∃ name, item.symbol? = some name := by
  intro item listed
  have among : item.symbol? ∈ names.map some :=
    (symbols?_eq_some items).mp found ▸ List.mem_map_of_mem listed
  obtain ⟨name, _, same⟩ := List.mem_map.mp among
  exact ⟨name, same.symm⟩

theorem exists_symbols? : {items : List Sexp} →
    (∀ item ∈ items, ∃ name, item.symbol? = some name) → ∃ names, symbols? items = some names
  | [], _ => ⟨[], rfl⟩
  | item :: rest, each => by
    obtain ⟨⟨name, here⟩, others⟩ := List.forall_mem_cons.mp each
    obtain ⟨names, later⟩ := exists_symbols? others
    refine ⟨name :: names, (symbols?_eq_some _).mpr ?_⟩
    rw [List.map_cons, List.map_cons, here, (symbols?_eq_some rest).mp later]

/-- What an expression is converted to as a pattern, given what its parts are converted to. -/
inductive MakesPattern : Sexp → Pattern → Prop
  | unresolved {name : Symbol} {span : Span} (plain : name ≠ ellipsis) :
      MakesPattern (.atom (.symbol name) span) (.unresolved name)
  | literal {value : Atom} {span : Span} (constant : ∀ name, value ≠ .symbol name) :
      MakesPattern (.atom value span) (.literal value)
  | inHole {keyword context contents : Sexp} {span : Span} {outer inner : Pattern}
      (head : keyword.symbol? = some "in-hole") (first : context.toPattern = .ok outer)
      (second : contents.toPattern = .ok inner) :
      MakesPattern (.list [keyword, context, contents] span) (.inHole outer inner [])
  | variableExcept {keyword first : Sexp} {rest : List Sexp} {span : Span} {names : List Symbol}
      (head : keyword.symbol? = some "variable-except")
      (named : symbols? (first :: rest) = some names) :
      MakesPattern (.list (keyword :: first :: rest) span)
        (.builtIn (.variableExcept names) "variable-except")
  | sequence {items : List Sexp} {span : Span} {patterns : List Pattern}
      (head : ∀ word ∈ (Sexp.list items span).head?, word ≠ "in-hole" ∧ word ≠ "variable-except")
      (folded : Folded toPattern (.repeated · .exhaustive) items patterns) :
      MakesPattern (.list items span) (.sequence patterns)

theorem toPattern_eq_ok {sexp : Sexp} {pattern : Pattern} :
    sexp.toPattern = .ok pattern ↔ sexp.MakesPattern pattern := by
  constructor
  · intro read
    cases sexp with
    | atom value span =>
      cases value with
      | symbol name =>
        rw [toPattern] at read
        split at read
        · cases read
        · rename_i plain
          cases read
          exact .unresolved plain
      | _ =>
        cases read
        exact .literal (by simp)
    | list items span =>
      unfold toPattern at read
      split at read
      · rename_i head
        split at read
        · obtain ⟨outer, first, read⟩ := Except.bind_eq_ok.mp read
          obtain ⟨inner, second, last⟩ := Except.bind_eq_ok.mp read
          cases last
          exact .inHole head first second
        · cases read
      · rename_i head
        split at read
        · rename_i names
          cases read
          rcases items with _ | ⟨keyword, _ | ⟨first, rest⟩⟩
          · cases head
          · cases names
          · exact .variableExcept head names
        · cases read
      · rename_i other another
        obtain ⟨patterns, folded, last⟩ := Except.bind_eq_ok.mp read
        cases last
        rw [toPatternsAfter_eq, foldEllipses_eq_ok] at folded
        refine .sequence ?_ folded
        rintro word found
        exact ⟨fun same => other (same ▸ found), fun same => another (same ▸ found)⟩
  · intro makes
    cases makes with
    | unresolved plain => exact if_neg plain
    | @literal value span constant =>
      cases value with
      | symbol name => exact absurd rfl (constant name)
      | _ => rfl
    | @inHole keyword context contents span outer inner head first second =>
      have keyed : (Sexp.list [keyword, context, contents] span).head? = some "in-hole" := head
      unfold toPattern
      rw [keyed]
      exact Except.bind_eq_ok.mpr ⟨_, first, Except.bind_eq_ok.mpr ⟨_, second, rfl⟩⟩
    | @variableExcept keyword first rest span names head named =>
      have keyed : (Sexp.list (keyword :: first :: rest) span).head? =
          some "variable-except" := head
      unfold toPattern
      rw [keyed]
      cases names with
      | nil => cases (symbols?_eq_some _).mp named
      | cons name others =>
        simp only [List.tail_cons, named]
        rfl
    | @sequence items span patterns head folded =>
      unfold toPattern
      split
      · rename_i keyed
        exact absurd rfl (head _ keyed).1
      · rename_i keyed
        exact absurd rfl (head _ keyed).2
      · rw [toPatternsAfter_eq]
        exact Except.bind_eq_ok.mpr ⟨_, (foldEllipses_eq_ok items).mpr folded, rfl⟩

theorem insertMode?_eq_some {word : Symbol} {mode : InsertMode} :
    insertMode? word = some mode ↔ word = mode.keyword := by
  unfold insertMode?
  split
  · cases mode <;> simp [InsertMode.keyword]
  · cases mode <;> simp [InsertMode.keyword]
  · rename_i one two
    refine ⟨by simp, fun same => ?_⟩
    cases mode
    · exact (one same).elim
    · exact (two same).elim

/-- What an expression is converted to as a template, given what its parts are converted to. -/
inductive MakesTemplate : Sexp → Template → Prop
  | hole {span : Span} : MakesTemplate (.atom (.symbol "hole") span) (.literal .hole)
  | symbol {name : Symbol} {span : Span} (plain : name ≠ ellipsis) (named : name ≠ "hole") :
      MakesTemplate (.atom (.symbol name) span) (.symbol name)
  | literal {value : Atom} {span : Span} (constant : ∀ name, value ≠ .symbol name) :
      MakesTemplate (.atom value span) (.literal (.atom value))
  | inHole {keyword context contents : Sexp} {span : Span} {outer inner : Template}
      (head : keyword.symbol? = some "in-hole") (first : context.toTemplate = .ok outer)
      (second : contents.toTemplate = .ok inner) :
      MakesTemplate (.list [keyword, context, contents] span) (.inHole outer inner)
  | foreign {keyword function : Sexp} {arguments : List Sexp} {span : Span} {mode : InsertMode}
      {name : Symbol} {templates : List Template} (head : keyword.symbol? = some mode.keyword)
      (named : function.symbol? = some name)
      (folded : Folded toTemplate .repeated arguments templates) :
      MakesTemplate (.list (keyword :: function :: arguments) span) (.foreign name templates mode)
  | sequence {items : List Sexp} {span : Span} {templates : List Template}
      (head : ∀ word ∈ (Sexp.list items span).head?,
        word ≠ "in-hole" ∧ word ≠ "foreign-call" ∧ word ≠ "foreign-splice")
      (folded : Folded toTemplate .repeated items templates) :
      MakesTemplate (.list items span) (.sequence templates)

theorem toTemplate_eq_ok {sexp : Sexp} {template : Template} :
    sexp.toTemplate = .ok template ↔ sexp.MakesTemplate template := by
  constructor
  · intro read
    cases sexp with
    | atom value span =>
      cases value with
      | symbol name =>
        rw [toTemplate] at read
        split at read
        · cases read
        · rename_i plain
          split at read
          · rename_i named
            cases read
            cases named
            exact .hole
          · rename_i named
            cases read
            exact .symbol plain named
      | _ =>
        cases read
        exact .literal nofun
    | list items span =>
      unfold toTemplate at read
      split at read
      · rename_i head
        split at read
        · obtain ⟨outer, first, read⟩ := Except.bind_eq_ok.mp read
          obtain ⟨inner, second, last⟩ := Except.bind_eq_ok.mp read
          cases last
          exact .inHole head first second
        · cases read
      · rename_i other
        split at read
        · rename_i mode moded
          obtain ⟨word, head, same⟩ := Option.bind_eq_some_iff.mp moded
          cases insertMode?_eq_some.mp same
          split at read
          · split at read
            · rename_i name named
              obtain ⟨templates, folded, last⟩ := Except.bind_eq_ok.mp read
              cases last
              rw [toTemplatesAfter_eq, foldEllipses_eq_ok] at folded
              exact .foreign head named folded
            · cases read
          · cases read
        · rename_i moded
          obtain ⟨templates, folded, last⟩ := Except.bind_eq_ok.mp read
          cases last
          rw [toTemplatesAfter_eq, foldEllipses_eq_ok] at folded
          refine .sequence ?_ folded
          rintro word found
          have apart : ∀ mode : InsertMode, word ≠ mode.keyword := by
            rintro mode same
            have moded' : some mode = none :=
              (Option.bind_eq_some_iff.mpr ⟨word, found, insertMode?_eq_some.mpr same⟩).symm.trans
                moded
            cases moded'
          exact ⟨fun same => other (same ▸ found), apart .append, apart .splice⟩
  · intro makes
    cases makes with
    | hole => rfl
    | symbol plain named => exact (if_neg plain).trans (if_neg named)
    | @literal value span constant =>
      cases value with
      | symbol name => exact absurd rfl (constant name)
      | _ => rfl
    | @inHole keyword context contents span outer inner head first second =>
      have keyed : (Sexp.list [keyword, context, contents] span).head? = some "in-hole" := head
      unfold toTemplate
      rw [keyed]
      exact Except.bind_eq_ok.mpr ⟨_, first, Except.bind_eq_ok.mpr ⟨_, second, rfl⟩⟩
    | @foreign keyword function arguments span mode name templates head named folded =>
      have keyed : (Sexp.list (keyword :: function :: arguments) span).head? =
          some mode.keyword := head
      unfold toTemplate
      rw [keyed]
      split
      · rename_i same
        cases mode <;> exact absurd (Option.some.inj same) (by decide)
      · rw [Option.bind_some, insertMode?_eq_some.mpr rfl]
        simp only [named]
        rw [toTemplatesAfter_eq]
        exact Except.bind_eq_ok.mpr ⟨_, (foldEllipses_eq_ok arguments).mpr folded, rfl⟩
    | @sequence items span templates head folded =>
      unfold toTemplate
      split
      · rename_i keyed
        exact absurd rfl (head _ keyed).1
      · split
        · rename_i mode moded
          obtain ⟨word, keyed, same⟩ := Option.bind_eq_some_iff.mp moded
          obtain ⟨_, call, splice⟩ := head word keyed
          cases insertMode?_eq_some.mp same
          cases mode
          · exact absurd rfl call
          · exact absurd rfl splice
        · rw [toTemplatesAfter_eq]
          exact Except.bind_eq_ok.mpr ⟨_, (foldEllipses_eq_ok items).mpr folded, rfl⟩

/-- An expression is converted to a pattern exactly if it is one. -/
theorem exists_toPattern (sexp : Sexp) :
    (∃ pattern, sexp.toPattern = .ok pattern) ↔ sexp.IsPattern := by
  simp only [toPattern_eq_ok]
  constructor
  · induction sexp using Sexp.induction with
    | atom value span =>
      rintro ⟨pattern, makes⟩
      refine .atom fun same => ?_
      cases makes with
      | unresolved plain => exact plain (Atom.symbol.inj same)
      | literal constant => exact constant _ same
    | list items span ih =>
      rintro ⟨pattern, makes⟩
      cases makes with
      | inHole head first second =>
        exact .inHole head (ih _ (by simp) ⟨_, toPattern_eq_ok.mp first⟩)
          (ih _ (by simp) ⟨_, toPattern_eq_ok.mp second⟩)
      | variableExcept head named => exact .variableExcept head (exists_of_symbols? named)
      | sequence head folded =>
        refine .sequence head folded.follow fun item listed solid => ih item listed ?_
        obtain ⟨value, made⟩ := folded.each item listed solid
        exact ⟨value, toPattern_eq_ok.mp made⟩
  · intro accepted
    induction accepted with
    | @atom value span plain =>
      cases value with
      | symbol name => exact ⟨_, .unresolved fun same => plain (congrArg Atom.symbol same)⟩
      | _ => exact ⟨_, .literal nofun⟩
    | inHole head _ _ one two =>
      obtain ⟨outer, first⟩ := one
      obtain ⟨inner, second⟩ := two
      exact ⟨_, .inHole head (toPattern_eq_ok.mpr first) (toPattern_eq_ok.mpr second)⟩
    | variableExcept head names =>
      obtain ⟨names, named⟩ := exists_symbols? names
      exact ⟨_, .variableExcept head named⟩
    | @sequence items span head follow _ each =>
      obtain ⟨patterns, folded⟩ := exists_folded items follow fun item listed solid => by
        obtain ⟨value, made⟩ := each item listed solid
        exact ⟨value, toPattern_eq_ok.mpr made⟩
      exact ⟨_, .sequence head folded⟩

/-- An expression is converted to a template exactly if it is one. -/
theorem exists_toTemplate (sexp : Sexp) :
    (∃ template, sexp.toTemplate = .ok template) ↔ sexp.IsTemplate := by
  simp only [toTemplate_eq_ok]
  constructor
  · induction sexp using Sexp.induction with
    | atom value span =>
      rintro ⟨template, makes⟩
      refine .atom fun same => ?_
      cases makes with
      | hole => exact absurd (Atom.symbol.inj same) (by decide)
      | symbol plain => exact plain (Atom.symbol.inj same)
      | literal constant => exact constant _ same
    | list items span ih =>
      have each : ∀ {arguments : List Sexp} {templates : List Template},
          Folded toTemplate .repeated arguments templates → (∀ item ∈ arguments, item ∈ items) →
          ∀ item ∈ arguments, item.isSymbol ellipsis = false → item.IsTemplate := by
        intro arguments templates folded inside item listed solid
        obtain ⟨value, made⟩ := folded.each item listed solid
        exact ih item (inside item listed) ⟨value, toTemplate_eq_ok.mp made⟩
      rintro ⟨template, makes⟩
      cases makes with
      | inHole head first second =>
        exact .inHole head (ih _ (by simp) ⟨_, toTemplate_eq_ok.mp first⟩)
          (ih _ (by simp) ⟨_, toTemplate_eq_ok.mp second⟩)
      | @foreign _ _ _ _ mode _ _ head named folded =>
        refine .foreign ?_ ⟨_, named⟩ folded.follow
          (each folded fun item listed => List.mem_cons_of_mem _ (List.mem_cons_of_mem _ listed))
        cases mode
        · exact .inl head
        · exact .inr head
      | sequence head folded =>
        exact .sequence head folded.follow (each folded fun _ listed => listed)
  · intro accepted
    have converted : ∀ {items : List Sexp}, (∀ item ∈ items, item.isSymbol ellipsis = false →
        ∃ template, item.MakesTemplate template) → EllipsesFollow items →
        ∃ templates, Folded toTemplate .repeated items templates := by
      intro items each follow
      refine exists_folded items follow fun item listed solid => ?_
      obtain ⟨value, made⟩ := each item listed solid
      exact ⟨value, toTemplate_eq_ok.mpr made⟩
    induction accepted with
    | @atom value span plain =>
      cases value with
      | symbol name =>
        by_cases named : name = "hole"
        · cases named
          exact ⟨_, .hole⟩
        · exact ⟨_, .symbol (fun same => plain (congrArg Atom.symbol same)) named⟩
      | _ => exact ⟨_, .literal nofun⟩
    | inHole head _ _ one two =>
      obtain ⟨outer, first⟩ := one
      obtain ⟨inner, second⟩ := two
      exact ⟨_, .inHole head (toTemplate_eq_ok.mpr first) (toTemplate_eq_ok.mpr second)⟩
    | foreign head name follow _ each =>
      obtain ⟨name, named⟩ := name
      obtain ⟨templates, folded⟩ := converted each follow
      rcases head with call | splice
      · exact ⟨.foreign name templates .append, .foreign call named folded⟩
      · exact ⟨.foreign name templates .splice, .foreign splice named folded⟩
    | sequence head follow _ each =>
      obtain ⟨templates, folded⟩ := converted each follow
      exact ⟨_, .sequence head folded⟩

/-! ## What is written -/

theorem patternTexts_eq_map (patterns : List Pattern) :
    Pattern.textAll patterns = patterns.map Pattern.text := by
  induction patterns with
  | nil => rfl
  | cons first rest ih => rw [Pattern.textAll, ih, List.map_cons]

theorem templateTexts_eq_map (templates : List Template) :
    Template.textAll templates = templates.map Template.text := by
  induction templates with
  | nil => rfl
  | cons first rest ih => rw [Template.textAll, ih, List.map_cons]

theorem text_list (items : List Sexp) (span : Span) :
    (Sexp.list items span).toTerm.text = "(" ++ Text.spaced (items.map (·.toTerm.text)) ++ ")" := by
  rw [toTerm, Term.text, Term.textAll_eq_map, toTerms_eq_map, List.map_map]
  rfl

theorem text_inHole {keyword : Sexp} (head : keyword.symbol? = some "in-hole")
    (context contents : Sexp) (span : Span) :
    (Sexp.list [keyword, context, contents] span).toTerm.text =
      "(in-hole " ++ context.toTerm.text ++ " " ++ contents.toTerm.text ++ ")" := by
  rw [text_list, List.map_cons, List.map_cons, List.map_cons, List.map_nil, text_toTerm head,
    Text.spaced_cons_cons, Text.spaced_cons_cons, Text.spaced, Text.join,
    String.intercalate_singleton, show "(in-hole " = "(" ++ ("in-hole" ++ " ") from rfl]
  simp only [String.append_assoc]

/-- A list of symbols is written as their names. -/
theorem texts_of_symbols? {items : List Sexp} {names : List Symbol}
    (found : symbols? items = some names) : items.map (·.toTerm.text) = names := by
  have listed := (symbols?_eq_some items).mp found
  clear found
  induction items generalizing names with
  | nil =>
    cases names with
    | nil => rfl
    | cons => cases listed
  | cons item rest ih =>
    cases names with
    | nil => cases listed
    | cons name names =>
      obtain ⟨here, later⟩ := List.cons.inj listed
      rw [List.map_cons, text_toTerm here, ih later]

/-- The pattern of an expression is written as the expression. -/
theorem text_toPattern (sexp : Sexp) :
    ∀ pattern, sexp.toPattern = .ok pattern → pattern.text = sexp.toTerm.text := by
  induction sexp using Sexp.induction with
  | atom value span =>
    intro pattern read
    cases toPattern_eq_ok.mp read with
    | unresolved plain => exact (text_toTerm rfl).symm
    | literal constant =>
      cases value with
      | symbol name => exact absurd rfl (constant name)
      | _ => rfl
  | list items span ih =>
    intro pattern read
    cases toPattern_eq_ok.mp read with
    | inHole head first second =>
      rw [Pattern.text, ih _ (by simp) _ first, ih _ (by simp) _ second, text_inHole head]
    | variableExcept head named =>
      rw [Pattern.text, text_list, List.map_cons, text_toTerm head, texts_of_symbols? named]
    | sequence head folded =>
      rw [Pattern.text, text_list, patternTexts_eq_map, folded.spaced (fun _ => rfl) ih]

/-- The template of an expression is written as the expression. -/
theorem text_toTemplate (sexp : Sexp) :
    ∀ template, sexp.toTemplate = .ok template → template.text = sexp.toTerm.text := by
  induction sexp using Sexp.induction with
  | atom value span =>
    intro template read
    cases toTemplate_eq_ok.mp read with
    | hole => rfl
    | symbol plain named => exact (text_toTerm rfl).symm
    | literal constant =>
      cases value with
      | symbol name => exact absurd rfl (constant name)
      | _ => rfl
  | list items span ih =>
    intro template read
    cases toTemplate_eq_ok.mp read with
    | inHole head first second =>
      rw [Template.text, ih _ (by simp) _ first, ih _ (by simp) _ second, text_inHole head]
    | foreign head named folded =>
      obtain ⟨_, others⟩ := List.forall_mem_cons.mp ih
      have later := folded.spaced (fun _ => rfl) (List.forall_mem_cons.mp others).2
      rw [Template.text, text_list, List.map_cons, List.map_cons, text_toTerm head,
        text_toTerm named, templateTexts_eq_map, Text.spaced_cons_congr _ (by simp)
          (Text.spaced_cons_congr _ (folded.map_eq_nil_iff _ _) later)]
    | sequence head folded =>
      rw [Template.text, text_list, templateTexts_eq_map, folded.spaced (fun _ => rfl) ih]

/-! ## What is read back -/

/-- A list that differs in its places only is a list of items that do. -/
theorem exists_of_bare_list {items : List Sexp} {span : Span} {other : Sexp}
    (same : other.bare = (Sexp.list items span).bare) :
    ∃ others place, other = .list others place ∧ others.map bare = items.map bare := by
  cases other with
  | atom => cases same
  | list others place =>
    injection same with equal
    rw [bareAll_eq_map, bareAll_eq_map] at equal
    exact ⟨others, place, rfl, equal⟩

theorem exists_of_bare_atom {value : Atom} {span : Span} {other : Sexp}
    (same : other.bare = (Sexp.atom value span).bare) : ∃ place, other = .atom value place := by
  cases other with
  | list => cases same
  | atom value place =>
    cases same
    exact ⟨place, rfl⟩

/-- Places play no part in what pattern an expression is converted to. -/
theorem toPattern_of_bare (sexp : Sexp) : ∀ other : Sexp, other.bare = sexp.bare →
    ∀ pattern, sexp.toPattern = .ok pattern → other.toPattern = .ok pattern := by
  induction sexp using Sexp.induction with
  | atom value span =>
    intro other same pattern read
    obtain ⟨place, rfl⟩ := exists_of_bare_atom same
    refine toPattern_eq_ok.mpr ?_
    cases toPattern_eq_ok.mp read with
    | unresolved plain => exact .unresolved plain
    | literal constant => exact .literal constant
  | list items span ih =>
    intro other same pattern read
    obtain ⟨others, place, rfl, items'⟩ := exists_of_bare_list same
    refine toPattern_eq_ok.mpr ?_
    cases toPattern_eq_ok.mp read with
    | inHole head first second =>
      obtain ⟨keyword, rest, rfl, key, rest'⟩ := List.map_eq_cons_iff.mp items'
      obtain ⟨context, rest, rfl, around, rest'⟩ := List.map_eq_cons_iff.mp rest'
      obtain ⟨contents, rest, rfl, within, rest'⟩ := List.map_eq_cons_iff.mp rest'
      cases List.map_eq_nil_iff.mp rest'
      exact .inHole ((symbol?_of_bare key).trans head) (ih _ (by simp) context around _ first)
        (ih _ (by simp) contents within _ second)
    | variableExcept head named =>
      obtain ⟨keyword, rest, rfl, key, rest'⟩ := List.map_eq_cons_iff.mp items'
      have names := (symbols?_of_bare rest').trans named
      obtain ⟨first, rest, rfl, _, _⟩ := List.map_eq_cons_iff.mp rest'
      exact .variableExcept ((symbol?_of_bare key).trans head) names
    | sequence head folded =>
      refine .sequence ?_ (folded.of_bare items' ih)
      rw [head?_of_bare items']
      exact head

/-- Places play no part in what template an expression is converted to. -/
theorem toTemplate_of_bare (sexp : Sexp) : ∀ other : Sexp, other.bare = sexp.bare →
    ∀ template, sexp.toTemplate = .ok template → other.toTemplate = .ok template := by
  induction sexp using Sexp.induction with
  | atom value span =>
    intro other same template read
    obtain ⟨place, rfl⟩ := exists_of_bare_atom same
    refine toTemplate_eq_ok.mpr ?_
    cases toTemplate_eq_ok.mp read with
    | hole => exact .hole
    | symbol plain named => exact .symbol plain named
    | literal constant => exact .literal constant
  | list items span ih =>
    intro other same template read
    obtain ⟨others, place, rfl, items'⟩ := exists_of_bare_list same
    refine toTemplate_eq_ok.mpr ?_
    cases toTemplate_eq_ok.mp read with
    | inHole head first second =>
      obtain ⟨keyword, rest, rfl, key, rest'⟩ := List.map_eq_cons_iff.mp items'
      obtain ⟨context, rest, rfl, around, rest'⟩ := List.map_eq_cons_iff.mp rest'
      obtain ⟨contents, rest, rfl, within, rest'⟩ := List.map_eq_cons_iff.mp rest'
      cases List.map_eq_nil_iff.mp rest'
      exact .inHole ((symbol?_of_bare key).trans head) (ih _ (by simp) context around _ first)
        (ih _ (by simp) contents within _ second)
    | foreign head named folded =>
      obtain ⟨keyword, rest, rfl, key, rest'⟩ := List.map_eq_cons_iff.mp items'
      obtain ⟨function, rest, rfl, called, rest'⟩ := List.map_eq_cons_iff.mp rest'
      obtain ⟨_, others⟩ := List.forall_mem_cons.mp ih
      exact .foreign ((symbol?_of_bare key).trans head) ((symbol?_of_bare called).trans named)
        (folded.of_bare rest' (List.forall_mem_cons.mp others).2)
    | sequence head folded =>
      refine .sequence ?_ (folded.of_bare items' ih)
      rw [head?_of_bare items']
      exact head

/-- The expressions of a source, at any depth. -/
inductive Stands (source : String) : Sexp → Prop
  | top {sexps : List Sexp} {sexp : Sexp} (read : readAll source = .ok sexps)
      (listed : sexp ∈ sexps) : Stands source sexp
  | item {items : List Sexp} {span : Span} {sexp : Sexp} (around : Stands source (.list items span))
      (listed : sexp ∈ items) : Stands source sexp

theorem Stands.readable {source : String} {sexp : Sexp} (stands : Stands source sexp) :
    sexp.Readable source.utf8ByteSize := by
  induction stands with
  | top read listed => exact readable_of_readAll read _ listed
  | item _ listed ih => exact ih.items _ listed

/-- The only expression of a source. -/
theorem stands_of_readOne {source : String} {sexp : Sexp} (read : readOne source = .ok sexp) :
    Stands source sexp := by
  obtain ⟨sexps, all, only⟩ := Except.bind_eq_ok.mp read
  split at only
  · cases only
    exact .top all (List.mem_singleton.mpr rfl)
  · cases only

/-- An expression of a source is read back from what is written for its term, up to its places. -/
theorem Stands.readOne_text {source : String} {sexp : Sexp} (stands : Stands source sexp) :
    ∃ other, readOne sexp.toTerm.text = .ok other ∧ other.bare = sexp.bare := by
  obtain ⟨other, read, same⟩ := Except.map_eq_ok.mp stands.readable.writable.read_text
  exact ⟨other, read, bare_eq_of_toTerm same⟩

/-- The expressions that are converted to patterns are those that are patterns, and likewise for
templates. What an expression of a source is converted to is written so that the expression is read
back, up to its places and the kinds of its delimiters, and it is converted to the same again. -/
theorem syntax_accepted_and_read_back :
    (∀ sexp : Sexp, (∃ pattern, sexp.toPattern = .ok pattern) ↔ sexp.IsPattern) ∧
    (∀ sexp : Sexp, (∃ template, sexp.toTemplate = .ok template) ↔ sexp.IsTemplate) ∧
    ∀ (source : String) (sexp : Sexp), Stands source sexp →
      (∀ pattern, sexp.toPattern = .ok pattern → ∃ other, readOne pattern.text = .ok other ∧
        other.bare = sexp.bare ∧ other.toPattern = .ok pattern) ∧
      ∀ template, sexp.toTemplate = .ok template → ∃ other, readOne template.text = .ok other ∧
        other.bare = sexp.bare ∧ other.toTemplate = .ok template := by
  refine ⟨exists_toPattern, exists_toTemplate, fun source sexp stands => ?_⟩
  obtain ⟨other, read, same⟩ := stands.readOne_text
  constructor
  · intro pattern made
    rw [text_toPattern sexp pattern made]
    exact ⟨other, read, same, toPattern_of_bare sexp other same pattern made⟩
  · intro template made
    rw [text_toTemplate sexp template made]
    exact ⟨other, read, same, toTemplate_of_bare sexp other same template made⟩

/-- A pattern in which an ellipsis is also excluded as a symbol. As a template, its last list is a
sequence. -/
def exceptedEllipsis : String := "[in-hole (f  x ...) (variable-except ... y)]"

theorem syntax_read_back_exceptedEllipsis : ∃ one two : Sexp, ∃ pattern template,
    readOne exceptedEllipsis = .ok one ∧
    readOne "(in-hole (f x ...) (variable-except ... y))" = .ok two ∧ two.bare = one.bare ∧
    one.toPattern = .ok pattern ∧ two.toPattern = .ok pattern ∧
    one.toTemplate = .ok template ∧ two.toTemplate = .ok template := by
  have printed : (Pattern.read exceptedEllipsis).toOption.map Pattern.text =
      some "(in-hole (f x ...) (variable-except ... y))" := by decide +kernel
  have made : (Template.read exceptedEllipsis).toOption.isSome = true := by decide +kernel
  cases read : readOne exceptedEllipsis with
  | error fault =>
    rw [Pattern.read, read] at printed
    cases printed
  | ok one =>
    rw [Pattern.read, read] at printed
    rw [Template.read, read] at made
    change one.toPattern.toOption.map Pattern.text = _ at printed
    change one.toTemplate.toOption.isSome = true at made
    obtain ⟨patterns, templates⟩ :=
      syntax_accepted_and_read_back.2.2 exceptedEllipsis one (stands_of_readOne read)
    match first : one.toPattern, second : one.toTemplate with
    | .ok pattern, .ok template =>
      rw [first] at printed
      obtain ⟨two, back, same, again⟩ := patterns pattern first
      obtain ⟨other, _, alike, remade⟩ := templates template second
      rw [Option.some.inj printed] at back
      exact ⟨one, two, pattern, template, rfl, back, same, first, again, second,
        toTemplate_of_bare other two (same.trans alike.symm) template remade⟩
    | .error _, _ =>
      rw [first] at printed
      cases printed
    | .ok _, .error _ =>
      rw [second] at made
      cases made

end Sexp

end Reduct
