import Reduct.Proofs.Compilations

/-!
# Literal variables

Which symbols of a pattern are literal variables depends on the names of the grammar only. A
language has collected those of its productions and of all patterns that were prepared for it, in
whatever order, when the forms of a specification have been gone through. The atoms of what is
prepared are those that were written.
-/

namespace Reduct

namespace Pattern

mutual

/-- The literal variables of a pattern, given the names of the grammar. -/
def literals (names : SymbolSet) : Pattern → List Symbol
  | .literal (.symbol name) => [name]
  | .unresolved symbol =>
    match Symbol.resolution names symbol with
    | .literal => [symbol]
    | _ => []
  | .sequence items => literalsAll names items
  | .repeated inner _ => inner.literals names
  | .inHole context contents _ => context.literals names ++ contents.literals names
  | _ => []

/-- The literal variables of a list of patterns. -/
def literalsAll (names : SymbolSet) : List Pattern → List Symbol
  | [] => []
  | item :: rest => item.literals names ++ literalsAll names rest

end

/-- A set has grown by the symbols of a list, one after another. -/
def Gains (before : SymbolSet) (gained : List Symbol) (after : SymbolSet) : Prop :=
  gained.foldl SymbolSet.insert before = after

theorem Gains.nil (set : SymbolSet) : Gains set [] set := rfl

theorem Gains.append {first second third : SymbolSet} {some more : List Symbol}
    (one : Gains first some second) (two : Gains second more third) :
    Gains first (some ++ more) third := by
  unfold Gains at one two ⊢
  rw [List.foldl_append, one, two]

theorem gains_insert (set : SymbolSet) (name : Symbol) : Gains set [name] (set.insert name) := rfl

/-- A literal variable is an atom that its pattern compares with. -/
theorem atoms_of_literal {names : SymbolSet} {symbol : Symbol}
    (found : Symbol.resolution names symbol = .literal) :
    (Pattern.unresolved symbol).atoms = [.symbol symbol] := by
  rw [atoms, if_neg]
  rintro rfl
  exact resolution_hole names found

/-- Resolving a symbol records it if it is a literal variable, and compares with nothing else. -/
theorem gains_ofSymbol {names before after : SymbolSet} {symbol : Symbol} {resolved : Pattern}
    (accepted : (ofSymbol names symbol).run before = (.ok resolved, after)) :
    Gains before ((Pattern.unresolved symbol).literals names) after ∧
      ∀ value ∈ resolved.atoms, value ∈ (Pattern.unresolved symbol).atoms := by
  unfold ofSymbol at accepted
  rw [literals]
  cases found : Symbol.resolution names symbol with
  | nonTerminal =>
    rw [found] at accepted
    obtain ⟨rfl, rfl⟩ := run_pure_eq_ok.mp accepted
    exact ⟨.nil _, List.forall_mem_nil _⟩
  | builtIn kind =>
    rw [found] at accepted
    obtain ⟨rfl, rfl⟩ := run_pure_eq_ok.mp accepted
    refine ⟨.nil _, ?_⟩
    -- no keyword alone stands for a list of excluded names
    have bare := List.mem_of_find?_eq_some (resolution_eq_builtIn found).2
    have plain : (Pattern.builtIn kind symbol).atoms = [] := by
      revert bare
      cases kind <;> simp [BuiltIn.bare, atoms]
    rw [plain]
    exact List.forall_mem_nil _
  | refused cause =>
    rw [found] at accepted
    cases accepted
  | literal =>
    rw [found] at accepted
    obtain ⟨_, _, recorded, last⟩ := run_bind_eq_ok.mp accepted
    obtain ⟨rfl, rfl⟩ := run_pure_eq_ok.mp last
    cases recorded
    rw [atoms_of_literal found]
    exact ⟨gains_insert before symbol, fun value => id⟩

mutual

/-- Resolving a pattern records its literal variables, and keeps the atoms that it compares with. -/
theorem gains_resolve {names : SymbolSet} : (pattern : Pattern) → {resolved : Pattern} →
    {before after : SymbolSet} → (pattern.resolve names).run before = (.ok resolved, after) →
    Gains before (pattern.literals names) after ∧ ∀ value ∈ resolved.atoms, value ∈ pattern.atoms
  | .unresolved symbol, _, _, _, accepted => by
    rw [resolve] at accepted
    exact gains_ofSymbol accepted
  | .literal (.symbol name), _, before, _, accepted => by
    cases accepted
    exact ⟨gains_insert before name, fun _ => id⟩
  | .literal (.integer _), _, _, _, accepted | .literal (.float _), _, _, _, accepted
  | .literal (.string _), _, _, _, accepted | .literal (.boolean _), _, _, _, accepted
  | .nonTerminal _ _, _, _, _, accepted | .builtIn _ _, _, _, _, accepted
  | .check _, _, _, _, accepted => by
    cases accepted
    exact ⟨.nil _, fun _ => id⟩
  | .sequence items, _, _, _, accepted => by
    rw [resolve] at accepted
    obtain ⟨all, middle, first, last⟩ := run_bind_eq_ok.mp accepted
    obtain ⟨rfl, rfl⟩ := run_pure_eq_ok.mp last
    exact gains_resolveAll items first
  | .repeated inner mode, _, _, _, accepted => by
    rw [resolve] at accepted
    obtain ⟨body, middle, first, last⟩ := run_bind_eq_ok.mp accepted
    obtain ⟨rfl, rfl⟩ := run_pure_eq_ok.mp last
    obtain ⟨gains, kept⟩ := gains_resolve inner first
    exact ⟨gains, kept⟩
  | .inHole context contents checks, _, _, _, accepted => by
    rw [resolve] at accepted
    obtain ⟨outer, middle, first, rest⟩ := run_bind_eq_ok.mp accepted
    obtain ⟨inner, later, second, last⟩ := run_bind_eq_ok.mp rest
    obtain ⟨rfl, rfl⟩ := run_pure_eq_ok.mp last
    obtain ⟨one, left⟩ := gains_resolve context first
    obtain ⟨two, right⟩ := gains_resolve contents second
    refine ⟨one.append two, fun value listed => ?_⟩
    exact List.mem_append.mpr ((List.mem_append.mp listed).imp (left value) (right value))

theorem gains_resolveAll {names : SymbolSet} : (items : List Pattern) →
    {resolved : List Pattern} → {before after : SymbolSet} →
    (resolveAll names items).run before = (.ok resolved, after) →
    Gains before (literalsAll names items) after ∧
      ∀ value ∈ atomsAll resolved, value ∈ atomsAll items
  | [], _, _, _, accepted => by
    obtain ⟨rfl, rfl⟩ := run_pure_eq_ok.mp accepted
    exact ⟨.nil _, fun _ => id⟩
  | item :: rest, _, _, _, accepted => by
    rw [resolveAll] at accepted
    obtain ⟨first, middle, here, others⟩ := run_bind_eq_ok.mp accepted
    obtain ⟨all, later, there, last⟩ := run_bind_eq_ok.mp others
    obtain ⟨rfl, rfl⟩ := run_pure_eq_ok.mp last
    obtain ⟨one, left⟩ := gains_resolve item here
    obtain ⟨two, right⟩ := gains_resolveAll rest there
    refine ⟨one.append two, fun value listed => ?_⟩
    exact List.mem_append.mpr ((List.mem_append.mp listed).imp (left value) (right value))

end

theorem mem_atomsAll {items : List Pattern} {value : Atom} :
    value ∈ atomsAll items ↔ ∃ item ∈ items, value ∈ item.atoms := by
  induction items with
  | nil => simp [atomsAll]
  | cons item rest ih => simp [atomsAll, ih]

theorem mem_literalsAll {names : SymbolSet} {items : List Pattern} {name : Symbol} :
    name ∈ literalsAll names items ↔ ∃ item ∈ items, name ∈ item.literals names := by
  induction items with
  | nil => simp [literalsAll]
  | cons item rest ih => simp [literalsAll, ih]

theorem literalsAll_append (names : SymbolSet) (items others : List Pattern) :
    literalsAll names (items ++ others) = literalsAll names items ++ literalsAll names others := by
  induction items with
  | nil => rfl
  | cons item rest ih => simp [literalsAll, ih]

/-- A literal variable is one of the atoms. -/
theorem atoms_of_literals {names : SymbolSet} {name : Symbol} (pattern : Pattern) :
    name ∈ pattern.literals names → Atom.symbol name ∈ pattern.atoms := by
  induction pattern using Pattern.induction with
  | literal value => cases value <;> simp [literals, atoms]
  | nonTerminal stem symbol => simp [literals]
  | builtIn kind symbol => simp [literals]
  | sequence items each rounds =>
    intro listed
    obtain ⟨item, among, inside⟩ := mem_literalsAll.mp listed
    exact mem_atomsAll.mpr ⟨item, among, each item among inside⟩
  | repeated inner mode ih => exact ih
  | inHole context contents checks around within =>
    intro listed
    exact List.mem_append.mpr ((List.mem_append.mp listed).imp around within)
  | check test => simp [literals]
  | unresolved symbol =>
    rw [literals]
    split
    · rename_i found
      rw [atoms_of_literal found]
      simp
    · nofun

end Pattern

open Pattern

/-- The names of the non-terminals that a definition introduces. -/
def LanguageDefinition.names (definition : LanguageDefinition) : SymbolSet :=
  .ofList (definition.rules.map (·.name))

namespace Language

/-- Resolving rules records the literal variables of their alternatives, and keeps their atoms. -/
theorem gains_resolveRules {names : SymbolSet} {rules : List RuleDefinition} :
    ∀ {before after : SymbolSet} {resolved : List (Symbol × List Pattern)},
      resolveRules names rules before = .ok (resolved, after) →
      Gains before (literalsAll names (rules.flatMap (·.alternatives))) after ∧
        ∀ entry ∈ resolved, ∀ alternative ∈ entry.2, ∀ value ∈ alternative.atoms,
          value ∈ atomsAll (rules.flatMap (·.alternatives)) := by
  induction rules with
  | nil =>
    intro before after resolved accepted
    cases accepted
    exact ⟨.nil _, nofun⟩
  | cons first rest ih =>
    intro before after resolved accepted
    rw [resolveRules] at accepted
    dsimp only at accepted
    obtain ⟨alternatives, here, last⟩ := Except.bind_eq_ok.mp accepted
    obtain ⟨⟨others, later⟩, there, made⟩ := Except.bind_eq_ok.mp last
    cases made
    have accepted : (Pattern.resolveAll names first.alternatives).run before =
        (.ok alternatives, ((Pattern.resolveAll names first.alternatives).run before).2) :=
      Prod.ext (locate_eq_ok.mp here) rfl
    obtain ⟨one, left⟩ := gains_resolveAll _ accepted
    obtain ⟨two, right⟩ := ih there
    rw [List.flatMap_cons]
    constructor
    · have both : literalsAll names (first.alternatives ++ rest.flatMap (·.alternatives)) =
          literalsAll names first.alternatives ++
            literalsAll names (rest.flatMap (·.alternatives)) := literalsAll_append ..
      rw [both]
      exact one.append two
    · intro entry listed alternative among value inside
      rw [mem_atomsAll]
      rcases List.mem_cons.mp listed with rfl | later
      · obtain ⟨item, known, same⟩ := mem_atomsAll.mp
          (left value (mem_atomsAll.mpr ⟨alternative, among, inside⟩))
        exact ⟨item, List.mem_append_left _ known, same⟩
      · obtain ⟨item, known, same⟩ := mem_atomsAll.mp (right entry later alternative among value inside)
        exact ⟨item, List.mem_append_right _ known, same⟩

/-- A language that is defined has the literal variables of its productions, and compares with
their atoms. -/
theorem gains_define {definition : LanguageDefinition} {span : Span} {language : Language}
    (accepted : define definition span = .ok language) :
    language.name = definition.name ∧ language.names = definition.names ∧
      Gains .empty (literalsAll definition.names (definition.rules.flatMap (·.alternatives)))
        language.mentioned ∧
      ∀ rule ∈ language.rules, ∀ alternative ∈ rule.alternatives,
        ∀ value ∈ alternative.pattern.atoms,
          value ∈ atomsAll (definition.rules.flatMap (·.alternatives)) := by
  unfold define at accepted
  obtain ⟨_, names, rest⟩ := Except.bind_eq_ok.mp accepted
  obtain ⟨⟨resolved, mentioned⟩, found, last⟩ := Except.bind_eq_ok.mp rest
  dsimp only at last
  cases cycle : (Grammar.ofRules resolved).aliasCycle? with
  | some way =>
    rw [cycle] at last
    cases last
  | none =>
    rw [cycle] at last
    obtain ⟨⟨rules, fresh⟩, finished, made⟩ := Except.bind_eq_ok.mp last
    cases made
    obtain ⟨gains, atoms⟩ := gains_resolveRules found
    refine ⟨rfl, rfl, gains, fun rule listed alternative among value inside => ?_⟩
    obtain ⟨_, _, _, source⟩ := (finishRules_eq_ok finished).2 rule listed
    have shapes := (finishAlternatives_eq_ok source).1
    have shape : alternative.pattern.skeleton ∈
        ((Grammar.ofRules resolved).alternativesOf rule.name).map (·.skeleton) := by
      rw [← shapes]
      exact List.mem_map_of_mem among
    obtain ⟨origin, known, same⟩ := List.mem_map.mp shape
    obtain ⟨entry, there, within⟩ := Grammar.exists_of_mem_ofRules known
    refine atoms entry there origin within value ?_
    rw [← atoms_skeleton origin, same, atoms_skeleton]
    exact inside

/-- Preparing a pattern that is accepted records its literal variables. -/
theorem gains_prepare {language : Language} {pattern : Pattern} {prepared : Prepared}
    (accepted : (language.prepare pattern).1 = .ok prepared) :
    Gains language.mentioned (pattern.literals language.names)
        (language.prepare pattern).2.mentioned ∧
      (language.prepare pattern).2.names = language.names ∧
      (language.prepare pattern).2.rules = language.rules ∧
      ∀ value ∈ prepared.pattern.atoms, value ∈ pattern.atoms := by
  obtain ⟨resolved, mentioned, found⟩ := Program.exists_resolve accepted
  obtain ⟨gains, kept⟩ := gains_resolve pattern found
  obtain ⟨_, _, _, same⟩ := language.prepare_snd pattern
  cases depths : resolved.depths with
  | error fault =>
    rw [prepare, found] at accepted
    simp only [depths] at accepted
    cases accepted
  | ok inner =>
    have recorded : (language.prepare pattern).2.mentioned = mentioned := by
      unfold prepare
      rw [found]
      simp only [depths]
    rw [prepare_fst found depths] at accepted
    obtain ⟨_, made, _⟩ := finish_eq_ok.mp accepted
    refine ⟨recorded ▸ gains, by rw [same], by rw [same], fun value listed => kept value ?_⟩
    rw [made, ← atoms_skeleton, skeleton_classify, skeleton_insertChecks, atoms_skeleton] at listed
    exact listed

end Language

end Reduct
