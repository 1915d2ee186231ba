import Reduct.Proofs.Decomposition
import Reduct.Proofs.Nesting
import Reduct.Proofs.TemplateResults

/-!
# Building matched terms again

A pattern without tests has a template of the same written form. From a match of the pattern, the
template builds the term that was matched: symbols give back their terms, ellipses have the rounds
of the match, and contexts are plugged where they were cut. Nothing can go wrong on the way, so the
construction of the template ends, and gives this term.
-/

namespace Reduct

/-- Whether a symbol is a literal variable, given the names of the grammar. -/
def Symbol.isLiteral (names : SymbolSet) (symbol : Symbol) : Bool :=
  match Symbol.resolution names symbol with
  | .literal => true
  | _ => false

namespace Pattern

mutual

/-- Whether every leaf is a constant, a literal variable, a bound symbol or the plain hole. -/
def isRestorable (names : SymbolSet) : Pattern → Bool
  | .literal (.symbol name) => Symbol.isLiteral names name
  | .literal _ => true
  | .nonTerminal .. => true
  | .builtIn kind symbol => kind.isBindable || decide (kind = .hole ∧ symbol = "hole")
  | .sequence items => areRestorable names items
  | .repeated inner _ => inner.isRestorable names
  | .inHole context contents _ => context.isRestorable names && contents.isRestorable names
  | .check _ => false
  | .unresolved _ => false

/-- Whether the leaves of all items can be restored. -/
def areRestorable (names : SymbolSet) : List Pattern → Bool
  | [] => true
  | item :: rest => item.isRestorable names && areRestorable names rest

end

mutual

/-- The template of the same shape as a pattern, with a symbol for every literal variable and
every bound symbol. A check has none. -/
def template : Pattern → Template
  | .literal (.symbol name) => .symbol name
  | .literal value => .literal (.atom value)
  | .nonTerminal _ symbol => .symbol symbol
  | .builtIn kind symbol => if kind.isBindable then .symbol symbol else .literal .hole
  | .sequence items => .sequence (templateAll items)
  | .repeated inner _ => .repeated inner.template
  | .inHole context contents _ => .inHole context.template contents.template
  | .check _ => .sequence []
  | .unresolved symbol => .symbol symbol

/-- The templates of the same shapes as some patterns. -/
def templateAll : List Pattern → List Template
  | [] => []
  | item :: rest => item.template :: templateAll rest

end

theorem plain_of_restorable {kind : BuiltIn} {symbol : Symbol} {names : SymbolSet}
    (restorable : (Pattern.builtIn kind symbol).isRestorable names = true)
    (unbound : kind.isBindable = false) : kind = .hole ∧ symbol = "hole" := by
  rw [isRestorable, unbound, Bool.false_or, decide_eq_true_eq] at restorable
  exact restorable

mutual

/-- The template of a pattern is written like the pattern. -/
theorem text_template {names : SymbolSet} : (pattern : Pattern) →
    pattern.isRestorable names = true → pattern.template.text = pattern.text
  | .literal value, _ => by cases value <;> rfl
  | .nonTerminal .., _ => rfl
  | .builtIn kind symbol, restorable => by
    cases bindable : kind.isBindable with
    | true => cases kind <;> first | rfl | cases bindable
    | false =>
      obtain ⟨rfl, rfl⟩ := plain_of_restorable restorable bindable
      rfl
  | .sequence items, restorable => by
    rw [template, Template.text, text, texts_templateAll items restorable]
  | .repeated inner _, restorable => by
    rw [template, Template.text, text, text_template inner restorable]
  | .inHole context contents _, restorable => by
    obtain ⟨around, within⟩ := Bool.and_eq_true_iff.mp restorable
    rw [template, Template.text, text, text_template context around,
      text_template contents within]

theorem texts_templateAll {names : SymbolSet} : (items : List Pattern) →
    areRestorable names items = true → Template.textAll (templateAll items) = textAll items
  | [], _ => rfl
  | item :: rest, restorable => by
    obtain ⟨first, others⟩ := Bool.and_eq_true_iff.mp restorable
    rw [templateAll, Template.textAll, textAll, text_template item first,
      texts_templateAll rest others]

end

mutual

/-- The symbols of the template of a pattern are its bound symbols and its literal variables. -/
theorem mem_symbols_template {names : SymbolSet} {name : Symbol} : (pattern : Pattern) →
    pattern.isRestorable names = true → name ∈ pattern.template.symbols →
    name ∈ pattern.occurrences ∨ Symbol.isLiteral names name = true
  | .literal value, restorable, listed => by
    cases value with
    | symbol other =>
      cases List.mem_singleton.mp listed
      exact .inr restorable
    | _ => cases listed
  | .nonTerminal .., _, listed => .inl listed
  | .builtIn kind symbol, _, listed => by
    cases bindable : kind.isBindable with
    | true =>
      rw [template, bindable, if_pos rfl] at listed
      exact .inl (by simpa [Template.symbols, occurrences, bindingSymbol?, bindable] using listed)
    | false =>
      rw [template, bindable, if_neg nofun] at listed
      cases listed
  | .sequence items, restorable, listed => mem_symbolsAll_templateAll items restorable listed
  | .repeated inner _, restorable, listed => mem_symbols_template inner restorable listed
  | .inHole context contents _, restorable, listed => by
    obtain ⟨around, within⟩ := Bool.and_eq_true_iff.mp restorable
    rcases List.mem_append.mp listed with left | right
    · exact (mem_symbols_template context around left).imp (List.mem_append_left _) id
    · exact (mem_symbols_template contents within right).imp (List.mem_append_right _) id

theorem mem_symbolsAll_templateAll {names : SymbolSet} {name : Symbol} : (items : List Pattern) →
    areRestorable names items = true → name ∈ Template.symbolsAll (templateAll items) →
    name ∈ occurrencesAll items ∨ Symbol.isLiteral names name = true
  | [], _, listed => nomatch listed
  | item :: rest, restorable, listed => by
    obtain ⟨first, others⟩ := Bool.and_eq_true_iff.mp restorable
    rcases List.mem_append.mp listed with left | right
    · exact (mem_symbols_template item first left).imp (List.mem_append_left _) id
    · exact (mem_symbolsAll_templateAll rest others right).imp (List.mem_append_right _) id

end

mutual

/-- The template of a pattern calls no host function. -/
theorem foreigns_template : (pattern : Pattern) → pattern.template.foreigns = []
  | .literal value => by cases value <;> rfl
  | .nonTerminal .. | .check _ | .unresolved _ => rfl
  | .builtIn kind symbol => by
    rw [template]
    split <;> rfl
  | .sequence items => foreignsAll_templateAll items
  | .repeated inner _ => foreigns_template inner
  | .inHole context contents _ => by
    rw [template, Template.foreigns, foreigns_template context, foreigns_template contents]
    rfl

theorem foreignsAll_templateAll : (items : List Pattern) →
    Template.foreignsAll (templateAll items) = []
  | [] => rfl
  | item :: rest => by
    rw [templateAll, Template.foreignsAll, foreigns_template item, foreignsAll_templateAll rest]
    rfl

end

/-- A literal variable is not read as the hole. -/
theorem reread_of_isLiteral {names : SymbolSet} {name : Symbol}
    (literal : Symbol.isLiteral names name = true) : (Term.symbol name).reread = .symbol name := by
  have apart : name ≠ "hole" := by
    rintro rfl
    unfold Symbol.isLiteral at literal
    split at literal
    · rename_i same
      exact resolution_hole names same
    · cases literal
  exact if_neg apart

/-- A symbol that stands for a rule or a kind is no literal variable. -/
theorem not_isLiteral {names : SymbolSet} {symbol : Symbol}
    (known : names.contains (Symbol.stem symbol) = true ∨
      (BuiltIn.ofKeyword? (Symbol.stem symbol)).isSome = true) :
    Symbol.isLiteral names symbol = false := by
  unfold Symbol.isLiteral
  split
  · rename_i literal
    unfold Symbol.resolution at literal
    grind
  · rfl

mutual

/-- The bound symbols of a resolved pattern are no literal variables. -/
theorem not_isLiteral_of_occurs {names : SymbolSet} {symbol : Symbol} : (pattern : Pattern) →
    pattern.isResolved names = true → symbol ∈ pattern.occurrences →
    Symbol.isLiteral names symbol = false
  | .literal _, _, listed => nomatch listed
  | .nonTerminal stem name, resolved, listed => by
    cases List.mem_singleton.mp listed
    rw [isResolved, Bool.and_eq_true, decide_eq_true_eq] at resolved
    exact not_isLiteral (.inl (resolved.2 ▸ resolved.1))
  | .builtIn kind name, resolved, listed => by
    cases bindable : kind.isBindable with
    | true =>
      simp only [occurrences, bindingSymbol?, bindable, if_true, Option.toList_some,
        List.mem_singleton] at listed
      simp only [isResolved, bindable, Bool.not_true, Bool.false_or, Bool.and_eq_true,
        decide_eq_true_eq] at resolved
      rw [listed]
      exact not_isLiteral (.inr (by rw [resolved.2]; rfl))
    | false => simp [occurrences, bindingSymbol?, bindable] at listed
  | .sequence items, resolved, listed => not_isLiteral_of_occursAny items resolved listed
  | .inHole context contents _, resolved, listed => by
    rw [isResolved, Bool.and_eq_true, Bool.and_eq_true] at resolved
    rcases List.mem_append.mp listed with left | right
    · exact not_isLiteral_of_occurs context resolved.1.2 left
    · exact not_isLiteral_of_occurs contents resolved.2 right
termination_by pattern => sizeOf pattern

theorem not_isLiteral_of_occursAny {names : SymbolSet} {symbol : Symbol} :
    (items : List Pattern) → areResolved names items = true → symbol ∈ occurrencesAll items →
    Symbol.isLiteral names symbol = false
  | [], _, listed => nomatch listed
  | item :: rest, resolved, listed => by
    obtain ⟨first, others⟩ := areResolved_cons.mp resolved
    rcases List.mem_append.mp listed with left | right
    · rcases first with one | ⟨inner, mode, rfl, one⟩
      · exact not_isLiteral_of_occurs item one left
      · exact not_isLiteral_of_occurs inner one left
    · exact not_isLiteral_of_occursAny rest others right
termination_by items => sizeOf items

end

mutual

/-- The bound symbols of a pattern are symbols of its template. -/
theorem mem_template_of_occurs {symbol : Symbol} : (pattern : Pattern) →
    symbol ∈ pattern.occurrences → symbol ∈ pattern.template.symbols
  | .literal _, listed | .check _, listed | .unresolved _, listed => nomatch listed
  | .nonTerminal .., listed => listed
  | .builtIn kind name, listed => by
    cases bindable : kind.isBindable with
    | true =>
      rw [template, bindable, if_pos rfl]
      simpa [Template.symbols, occurrences, bindingSymbol?, bindable] using listed
    | false => simp [occurrences, bindingSymbol?, bindable] at listed
  | .sequence items, listed => mem_templateAll_of_occurs items listed
  | .repeated inner _, listed => mem_template_of_occurs inner listed
  | .inHole context contents _, listed => by
    rcases List.mem_append.mp listed with left | right
    · exact List.mem_append_left _ (mem_template_of_occurs context left)
    · exact List.mem_append_right _ (mem_template_of_occurs contents right)

theorem mem_templateAll_of_occurs {symbol : Symbol} : (items : List Pattern) →
    symbol ∈ occurrencesAll items → symbol ∈ Template.symbolsAll (templateAll items)
  | [], listed => nomatch listed
  | item :: rest, listed => by
    rcases List.mem_append.mp listed with left | right
    · exact List.mem_append_left _ (mem_template_of_occurs item left)
    · exact List.mem_append_right _ (mem_templateAll_of_occurs rest right)

end

mutual

/-- The constants of the template of a pattern are read as they are written, if the bound symbols
have depths. -/
theorem constants_template {names : SymbolSet} {depths : Depths} : (pattern : Pattern) →
    pattern.isRestorable names = true →
    (∀ symbol ∈ pattern.occurrences, depths.find? symbol ≠ none) →
    pattern.template.Constants depths fun term => term.reread = term
  | .literal value, restorable, _ => by
    cases value with
    | symbol name => exact fun _ => reread_of_isLiteral restorable
    | _ => rfl
  | .nonTerminal .., _, known => fun free => absurd free (known _ List.mem_cons_self)
  | .builtIn kind symbol, _, known => by
    cases bindable : kind.isBindable with
    | true =>
      rw [template, bindable, if_pos rfl]
      exact fun free => absurd free (known symbol (by simp [occurrences, bindingSymbol?, bindable]))
    | false =>
      rw [template, bindable, if_neg nofun]
      rfl
  | .sequence items, restorable, known => constantsAll_templateAll items restorable known
  | .repeated inner _, restorable, known => constants_template inner restorable known
  | .inHole context contents _, restorable, known => by
    obtain ⟨around, within⟩ := Bool.and_eq_true_iff.mp restorable
    exact ⟨constants_template context around fun symbol listed =>
        known symbol (List.mem_append_left _ listed),
      constants_template contents within fun symbol listed =>
        known symbol (List.mem_append_right _ listed)⟩

theorem constantsAll_templateAll {names : SymbolSet} {depths : Depths} : (items : List Pattern) →
    areRestorable names items = true →
    (∀ symbol ∈ occurrencesAll items, depths.find? symbol ≠ none) →
    Template.ConstantsAll depths (fun term => term.reread = term) (templateAll items)
  | [], _, _ => trivial
  | item :: rest, restorable, known => by
    obtain ⟨first, others⟩ := Bool.and_eq_true_iff.mp restorable
    exact ⟨constants_template item first fun symbol listed =>
        known symbol (List.mem_append_left _ listed),
      constantsAll_templateAll rest others fun symbol listed =>
        known symbol (List.mem_append_right _ listed)⟩

end

end Pattern

namespace Template

/-- A setting without functions. -/
def Setting.bare (depths : Depths) (assignment : Assignment) : Setting :=
  ⟨depths, .empty, assignment, fun _ _ _ => False, fun _ _ _ => False⟩

theorem Setting.functional_bare (depths : Depths) (assignment : Assignment) :
    (Setting.bare depths assignment).Functional :=
  ⟨fun _ _ _ _ given => given.elim, fun _ _ _ _ given => given.elim⟩

/-- Without metafunctions, no sequence is an application. -/
theorem applied?_empty (depths : Depths) (items : List Template) :
    applied? depths .empty items = none := by
  unfold applied?
  split
  · exact if_neg (by simp [SymbolSet.contains, SymbolSet.empty])
  · rfl

/-- A template builds a part, and nothing can go wrong where it is built. -/
def Makes (setting : Setting) (rounds : List Nat) (template : Template) (part : Part) : Prop :=
  Builds setting rounds template part ∧ ∀ cause, ¬ Fails setting rounds template cause

/-- Templates make parts one by one, and none of the parts is spliced. -/
def MakesAll (setting : Setting) (rounds : List Nat) (items : List Template) (parts : List Part) :
    Prop :=
  List.Forall₂ (Makes setting rounds) items parts ∧ ∀ part ∈ parts, ∀ content, part ≠ .spliced content

section Makes

variable {setting : Setting} {rounds : List Nat}

theorem MakesAll.nil : MakesAll setting rounds [] [] := ⟨.nil, nofun⟩

theorem MakesAll.cons {item : Template} {items : List Template} {part : Part} {parts : List Part}
    (first : Makes setting rounds item part) (others : MakesAll setting rounds items parts)
    (whole : ∀ content, part ≠ .spliced content) :
    MakesAll setting rounds (item :: items) (part :: parts) :=
  ⟨.cons first others.1, List.forall_mem_cons.mpr ⟨whole, others.2⟩⟩

theorem MakesAll.builds {items : List Template} {parts : List Part}
    (makes : MakesAll setting rounds items parts) : BuildsAll setting rounds items parts := by
  have each := makes.1
  clear makes
  induction each with
  | nil => exact .nil
  | cons first _ ih => exact .cons first.1 ih

theorem MakesAll.of_mem {items : List Template} {parts : List Part}
    (makes : MakesAll setting rounds items parts) {item : Template} (listed : item ∈ items) :
    ∃ part, Makes setting rounds item part ∧ ∀ content, part ≠ .spliced content := by
  obtain ⟨each, whole⟩ := makes
  induction each with
  | nil => cases listed
  | cons first _ ih =>
    obtain ⟨here, later⟩ := List.forall_mem_cons.mp whole
    rcases List.mem_cons.mp listed with rfl | there
    · exact ⟨_, first, here⟩
    · exact ih there later

theorem makes_sequence (functional : setting.Functional) {items : List Template}
    {parts : List Part} {terms : List Term}
    (plain : applied? setting.depths setting.metafunctions items = none)
    (each : MakesAll setting rounds items parts) (joined : Part.join parts = some terms) :
    Makes setting rounds (.sequence items) (.term (.sequence terms)) := by
  refine ⟨.sequence plain each.builds joined, fun cause fails => ?_⟩
  cases fails with
  | item listed inside =>
    obtain ⟨part, makes, _⟩ := each.of_mem listed
    exact makes.2 _ inside
  | spliced listed built =>
    obtain ⟨part, makes, whole⟩ := each.of_mem listed
    exact whole _ (makes.1.unique functional built)

theorem makes_repeated (functional : setting.Functional) {inner : Template} {count : Nat}
    {terms : Nat → Term} (driven : ∃ name, setting.Walks rounds.length inner name)
    (counts : setting.Counts rounds inner count)
    (each : ∀ round < count, Makes setting (rounds ++ [round]) inner (.term (terms round))) :
    Makes setting rounds (.repeated inner) (.terms ((List.range count).map terms)) := by
  have joined : ∀ chosen : List Nat,
      Part.join (chosen.map fun round => .term (terms round)) = some (chosen.map terms) := by
    intro chosen
    induction chosen with
    | nil => rfl
    | cons round rest ih =>
      rw [List.map_cons, Part.join, gather, Part.items?]
      rw [Part.join] at ih
      rw [ih]
      rfl
  have same : ∀ other, setting.Counts rounds inner other → other = count := by
    intro other again
    obtain ⟨name, walks⟩ := driven
    obtain ⟨items, selected, length⟩ := counts name walks
    obtain ⟨others, found, lengths⟩ := again name walks
    rw [selected] at found
    cases found
    exact lengths.symm.trans length
  refine ⟨.repeated driven counts (fun round below => (each round below).1) (joined _),
    fun cause fails => ?_⟩
  cases fails with
  | uneven walked beside selected found differ =>
    obtain ⟨items, known, length⟩ := counts _ walked
    obtain ⟨others, there, lengths⟩ := counts _ beside
    rw [selected] at known
    rw [found] at there
    cases known
    cases there
    exact differ (lengths.trans length.symm)
  | round again below inside =>
    rw [same _ again] at below
    exact (each _ below).2 _ inside
  | roundSpliced again below built =>
    rw [same _ again] at below
    cases (each _ below).1.unique functional built

theorem makes_inHole (functional : setting.Functional) {context contents : Template}
    {outer inner term : Term} (around : Makes setting rounds context (.term outer))
    (within : Makes setting rounds contents (.term inner)) (single : outer.holes = 1)
    (plugged : outer.plug? inner = some term) :
    Makes setting rounds (.inHole context contents) (.term term) := by
  refine ⟨.inHole around.1 within.1 plugged, fun cause fails => ?_⟩
  cases fails with
  | context inside => exact around.2 _ inside
  | contents inside => exact within.2 _ inside
  | closed built closed =>
    cases around.1.unique functional built
    change outer.holes = 0 at closed
    omega

end Makes

end Template

/-- Values that are all there are collected in order. -/
theorem filterMap_eq_of_isSome {α β : Type} {items : List α} {value : α → Option β}
    (all : ∀ item ∈ items, (value item).isSome = true) :
    (items.filterMap value).length = items.length ∧
      ∀ index : Nat, (items.filterMap value)[index]? = items[index]?.bind value := by
  induction items with
  | nil => exact ⟨rfl, fun _ => rfl⟩
  | cons item rest ih =>
    obtain ⟨here, later⟩ := List.forall_mem_cons.mp all
    obtain ⟨length, each⟩ := ih later
    obtain ⟨found, same⟩ := Option.isSome_iff_exists.mp here
    rw [List.filterMap_cons_some same]
    refine ⟨congrArg (· + 1) length, fun index => ?_⟩
    cases index with
    | zero => exact same.symm
    | succ index => exact each index

open Template (Setting Makes MakesAll)

/-- Under some ellipses, a setting has the depths and the values of the bound symbols of a part of
a pattern. -/
structure Knows (setting : Setting) (rounds : List Nat) (found : List (Symbol × Nat))
    (assignment : Assignment) : Prop where
  depth : ∀ symbol depth, (symbol, depth) ∈ found →
    setting.depths.find? symbol = some (rounds.length + depth)
  value : ∀ symbol depth, (symbol, depth) ∈ found →
    setting.element? rounds symbol = assignment symbol

section Knows

variable {setting : Setting} {rounds : List Nat} {one two : List (Symbol × Nat)}
  {first second : Assignment}

theorem Knows.left (knows : Knows setting rounds (one ++ two) (first.union second))
    (bound : ∀ symbol depth, (symbol, depth) ∈ one → (first symbol).isSome = true) :
    Knows setting rounds one first where
  depth symbol depth listed := knows.depth symbol depth (List.mem_append_left _ listed)
  value symbol depth listed := by
    obtain ⟨term, found⟩ := Option.isSome_iff_exists.mp (bound symbol depth listed)
    rw [knows.value symbol depth (List.mem_append_left _ listed), found]
    exact Assignment.union_eq_left found

theorem Knows.right (knows : Knows setting rounds (one ++ two) (first.union second))
    (agree : first.Agrees second)
    (bound : ∀ symbol depth, (symbol, depth) ∈ two → (second symbol).isSome = true) :
    Knows setting rounds two second where
  depth symbol depth listed := knows.depth symbol depth (List.mem_append_right _ listed)
  value symbol depth listed := by
    obtain ⟨term, found⟩ := Option.isSome_iff_exists.mp (bound symbol depth listed)
    rw [knows.value symbol depth (List.mem_append_right _ listed), found]
    exact Assignment.union_of_agrees agree found

/-- A match gives terms to the symbols at all depths. -/
theorem Matches.isSome_of_nestings {reading : Reading} {pattern : Pattern} {term : Term}
    {assignment : Assignment} (found : Matches reading pattern term assignment) (symbol : Symbol)
    (depth : Nat) (listed : (symbol, depth) ∈ pattern.nestings) :
    (assignment symbol).isSome = true :=
  (found.isSome_iff symbol).mpr (Pattern.mem_occurrences_iff.mpr ⟨depth, listed⟩)

theorem MatchesAll.isSome_of_nestings {reading : Reading} {items : List Pattern}
    {terms : List Term} {assignment : Assignment}
    (found : MatchesAll reading items terms assignment) (symbol : Symbol) (depth : Nat)
    (listed : (symbol, depth) ∈ Pattern.nestingsAll items) : (assignment symbol).isSome = true :=
  (found.isSome_iff symbol).mpr
    (Pattern.mem_occurrences_iff.mpr (⟨depth, listed⟩ : ∃ depth, (symbol, depth) ∈
      (Pattern.sequence items).nestings))

/-- A walked symbol has one element for each round, which is its value in the round. -/
theorem Knows.walked {reading : Reading} {inner : Pattern} {rounds : List Nat}
    {turns : List (Term × Assignment)}
    (each : ∀ turn ∈ turns, Matches reading inner turn.1 turn.2)
    (knows : Knows setting rounds (inner.nestings.map fun found => (found.1, found.2 + 1))
      (.collect inner.boundSymbols (turns.map (·.2)))) {symbol : Symbol} {depth : Nat}
    (listed : (symbol, depth) ∈ inner.nestings) :
    ∃ items, setting.element? rounds symbol = some (.sequence items) ∧
      items.length = turns.length ∧
      ∀ index : Nat, items[index]? = turns[index]?.bind fun turn => turn.2 symbol := by
  have bound : symbol ∈ inner.boundSymbols :=
    Pattern.mem_boundSymbols.mpr (Pattern.mem_occurrences_iff.mpr ⟨depth, listed⟩)
  have deeper : (symbol, depth + 1) ∈ inner.nestings.map fun found => (found.1, found.2 + 1) :=
    List.mem_map.mpr ⟨_, listed, rfl⟩
  have value := knows.value symbol (depth + 1) deeper
  rw [Assignment.collect_of_mem bound, List.filterMap_map] at value
  have present : ∀ turn ∈ turns, (turn.2 symbol).isSome = true :=
    fun turn there => (each turn there).isSome_of_nestings symbol depth listed
  obtain ⟨length, elements⟩ := filterMap_eq_of_isSome present
  exact ⟨_, value, length, elements⟩

/-- In a round of an ellipsis, a setting knows the match of the round. -/
theorem Knows.round {reading : Reading} {inner : Pattern} {turns : List (Term × Assignment)}
    (each : ∀ turn ∈ turns, Matches reading inner turn.1 turn.2)
    (knows : Knows setting rounds (inner.nestings.map fun found => (found.1, found.2 + 1))
      (.collect inner.boundSymbols (turns.map (·.2)))) {index : Nat} (below : index < turns.length) :
    Knows setting (rounds ++ [index]) inner.nestings turns[index].2 where
  depth symbol depth listed := by
    have deeper : (symbol, depth + 1) ∈ inner.nestings.map fun found => (found.1, found.2 + 1) :=
      List.mem_map.mpr ⟨_, listed, rfl⟩
    rw [knows.depth symbol (depth + 1) deeper, List.length_append, List.length_singleton]
    congr 1
    omega
  value symbol depth listed := by
    have deeper : (symbol, depth + 1) ∈ inner.nestings.map fun found => (found.1, found.2 + 1) :=
      List.mem_map.mpr ⟨_, listed, rfl⟩
    obtain ⟨items, selected, _, elements⟩ := knows.walked each listed
    rw [Setting.element?_walked (knows.depth symbol (depth + 1) deeper) (by omega) selected,
      elements, List.getElem?_eq_getElem below]
    rfl

end Knows

section Making

variable {reading : Reading} {names : SymbolSet} {depths : Depths} {values : Assignment}

mutual

/-- From a match of a pattern, its template makes the term that was matched. -/
theorem Matches.makes {pattern : Pattern} {term : Term} {assignment : Assignment} :
    Matches reading pattern term assignment → pattern.isRestorable names = true →
    (∀ context ∈ pattern.contexts, ∀ outer, Fits reading context outer → outer.holes = 1) →
    (∀ name ∈ pattern.template.symbols, Symbol.isLiteral names name = true →
      depths.find? name = none) →
    ∀ rounds annotated,
      pattern.template.annotateAt depths .empty rounds.length = .ok annotated →
      Knows (.bare depths values) rounds pattern.nestings assignment →
      Makes (.bare depths values) rounds pattern.template (.term term)
  | @Matches.literal _ value, restorable, _, free, rounds, _, _, _ => by
    cases value with
    | symbol name => exact ⟨.unbound (free name List.mem_cons_self restorable), nofun⟩
    | _ => exact ⟨.literal, nofun⟩
  | @Matches.nonTerminal _ stem symbol _ _, _, _, _, rounds, _, _, knows => by
    have value := knows.value symbol 0 List.mem_cons_self
    exact ⟨.bound (value.trans (if_pos rfl)), nofun⟩
  | @Matches.builtIn _ kind symbol _ passed, restorable, _, _, rounds, _, _, knows => by
    cases bindable : kind.isBindable with
    | true =>
      rw [Pattern.template, bindable, if_pos rfl]
      have listed : (symbol, 0) ∈ (Pattern.builtIn kind symbol).nestings := by
        simp [Pattern.nestings, Pattern.bindingSymbol?, bindable]
      have value := knows.value symbol 0 listed
      rw [bindable, if_pos rfl] at value
      exact ⟨.bound (value.trans (if_pos rfl)), nofun⟩
    | false =>
      rw [Pattern.template, bindable, if_neg nofun]
      obtain ⟨rfl, rfl⟩ := Pattern.plain_of_restorable restorable bindable
      have hole : term = .hole := by
        cases term with
        | hole => rfl
        | atom value => cases value <;> simp [BuiltIn.holdsOf, Term.kind] at passed
        | sequence => simp [BuiltIn.holdsOf, Term.kind] at passed
      rw [hole]
      exact ⟨.literal, nofun⟩
  | @Matches.sequence _ items _ _ all _, restorable, single, free, rounds, annotated, accepted,
      knows => by
    have plain := Template.applied?_empty depths (Pattern.templateAll items)
    rcases Template.annotateAt_sequence accepted with ⟨_, inner, each, _⟩ | ⟨_, _, _, applied, _⟩
    · obtain ⟨parts, makes, joined⟩ :=
        MatchesAll.makes all restorable single free rounds inner each knows
      exact Template.makes_sequence (Setting.functional_bare depths values) plain makes joined
    · rw [plain] at applied
      cases applied
  | @Matches.inHole _ context contents _ _ _ _ _ _ around within decomposed agree _, restorable,
      single, free, rounds, annotated, accepted, knows => by
    obtain ⟨first, second⟩ := Bool.and_eq_true_iff.mp restorable
    obtain ⟨outer, inner, one, two, _⟩ := Template.annotateAt_inHole accepted
    have holed := single context List.mem_cons_self _ around.fits
    have left := Matches.makes around first
      (fun part listed => single part
        (List.mem_cons_of_mem _ (List.mem_append_left _ listed)))
      (fun name listed => free name (List.mem_append_left _ listed)) rounds outer one
      (knows.left around.isSome_of_nestings)
    have right := Matches.makes within second
      (fun part listed => single part
        (List.mem_cons_of_mem _ (List.mem_append_right _ listed)))
      (fun name listed => free name (List.mem_append_right _ listed)) rounds inner two
      (knows.right agree within.isSome_of_nestings)
    exact Template.makes_inHole (Setting.functional_bare depths values) left right holed
      ((Term.decomposes_iff_plug? holed).mp decomposed)

/-- From a match of items, their templates make the terms that were matched. -/
theorem MatchesAll.makes {items : List Pattern} {terms : List Term} {assignment : Assignment} :
    MatchesAll reading items terms assignment → Pattern.areRestorable names items = true →
    (∀ context ∈ Pattern.contextsAll items, ∀ outer, Fits reading context outer →
      outer.holes = 1) →
    (∀ name ∈ Template.symbolsAll (Pattern.templateAll items), Symbol.isLiteral names name = true →
      depths.find? name = none) →
    ∀ rounds annotated,
      Template.annotateAllAt depths .empty rounds.length (Pattern.templateAll items) = .ok annotated →
      Knows (.bare depths values) rounds (Pattern.nestingsAll items) assignment →
      ∃ parts, MakesAll (.bare depths values) rounds (Pattern.templateAll items) parts ∧
        Template.Part.join parts = some terms
  | .nil, _, _, _, rounds, _, _, _ => ⟨[], .nil, rfl⟩
  | .check _, restorable, _, _, _, _, _, _ => by cases restorable
  | @MatchesAll.item _ head rest term terms _ _ fixed here others agree, restorable, single, free,
      rounds, annotated, accepted, knows => by
    obtain ⟨first, following⟩ := Bool.and_eq_true_iff.mp restorable
    obtain ⟨one, all, annotates, later, _⟩ := Template.annotateAllAt_cons.mp accepted
    have makes := Matches.makes here first
      (fun part listed => single part (List.mem_append_left _ listed))
      (fun name listed => free name (List.mem_append_left _ listed)) rounds one annotates
      (knows.left here.isSome_of_nestings)
    obtain ⟨parts, made, joined⟩ := MatchesAll.makes others following
      (fun part listed => single part (List.mem_append_right _ listed))
      (fun name listed => free name (List.mem_append_right _ listed)) rounds all later
      (knows.right agree others.isSome_of_nestings)
    exact ⟨.term term :: parts, made.cons makes nofun,
      gather_cons_eq_some.mpr ⟨[term], _, rfl, joined, rfl⟩⟩
  | @MatchesAll.repeated _ inner mode rest terms _ turns each others agree, restorable, single,
      free, rounds, annotated, accepted, knows => by
    obtain ⟨first, following⟩ := Bool.and_eq_true_iff.mp restorable
    obtain ⟨one, all, annotates, later, _⟩ := Template.annotateAllAt_cons.mp accepted
    obtain ⟨body, inside, driven, _⟩ := Template.annotateAt_repeated annotates
    obtain ⟨parts, made, joined⟩ := MatchesAll.makes others following
      (fun part listed => single part (List.mem_append_right _ listed))
      (fun name listed => free name (List.mem_append_right _ listed)) rounds all later
      (knows.right agree others.isSome_of_nestings)
    have collected : Knows (.bare depths values) rounds
        (inner.nestings.map fun found => (found.1, found.2 + 1))
        (.collect inner.boundSymbols (turns.map (·.2))) := by
      refine Knows.left knows fun symbol depth listed => ?_
      obtain ⟨⟨name, level⟩, there, same⟩ := List.mem_map.mp listed
      cases same
      rw [Assignment.isSome_collect, Pattern.mem_boundSymbols]
      exact Pattern.mem_occurrences_iff.mpr ⟨level, there⟩
    have known : ∀ name bound, name ∈ inner.template.symbols → depths.find? name = some bound →
        ∃ depth, (name, depth) ∈ inner.nestings := by
      intro name bound listed found
      rcases Pattern.mem_symbols_template inner first listed with occurs | literal
      · exact Pattern.mem_occurrences_iff.mp occurs
      · rw [free name (List.mem_append_left _ listed) literal] at found
        cases found
    have counts : (Setting.bare depths values).Counts rounds inner.template turns.length := by
      rintro name ⟨listed, bound, found, _⟩
      obtain ⟨depth, nested⟩ := known name bound listed found
      obtain ⟨items, selected, length, _⟩ := collected.walked each nested
      exact ⟨items, selected, length⟩
    have walked : ∃ name, (Setting.bare depths values).Walks rounds.length inner.template name := by
      obtain ⟨name, drives⟩ := List.exists_mem_of_ne_nil _ driven
      exact ⟨name, (Template.mem_driversAt inside).mp drives⟩
    let row : Nat → Term := fun index => (turns[index]?.map (·.1)).getD .hole
    have rounded : ∀ index < turns.length, Makes (.bare depths values) (rounds ++ [index])
        inner.template (.term (row index)) := by
      intro index below
      have here : row index = turns[index].1 := by
        simp only [row, List.getElem?_eq_getElem below]
        rfl
      rw [here]
      exact Matches.makes (each _ (List.getElem_mem below)) first
        (fun part listed => single part (List.mem_append_left _ listed))
        (fun name listed => free name (List.mem_append_left _ listed)) (rounds ++ [index]) body
        (by rwa [List.length_append, List.length_singleton]) (collected.round each below)
    have rows : (List.range turns.length).map row = turns.map (·.1) := by
      apply List.ext_getElem
      · simp
      · intro index below _
        simp only [List.length_map, List.length_range] at below
        simp [row, below]
    have makes := Template.makes_repeated (Setting.functional_bare depths values) walked counts
      rounded
    rw [rows] at makes
    refine ⟨.terms (turns.map (·.1)) :: parts, ?_, gather_cons_eq_some.mpr ⟨_, _, rfl, joined, rfl⟩⟩
    rw [Pattern.templateAll, Pattern.template]
    exact made.cons makes nofun

end

end Making

open Draft Matcher

theorem TopGives.weaken {language : Language} {prepared : Prepared}
    {expected other : Term → List Bindings → Prop} (gives : TopGives language prepared expected)
    (more : ∀ term found, term.Proper → expected term found → other term found) :
    TopGives language prepared other := by
  intro languages before apart listed sound
  obtain ⟨name, draft, yields, runs⟩ := gives languages before apart listed sound
  refine ⟨name, draft, yields, fun machine carries unlimited term proper => ?_⟩
  obtain ⟨enough, ends⟩ := runs machine carries unlimited term proper
  refine ⟨enough, fun fuel above => (ends fuel above).imp_left ?_⟩
  rintro ⟨place, found, after, called, lists, fits⟩
  exact ⟨place, found, after, called, lists, more term found proper fits⟩

namespace Language

variable {definition : LanguageDefinition} {span : Span} {pattern resolved : Pattern}
  {prepared : Prepared} {language : Language} {annotated : Annotated}

end Language

end Reduct
