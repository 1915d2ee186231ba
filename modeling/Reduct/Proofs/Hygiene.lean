import Reduct.Proofs.TopMatches

/-!
# Fresh names and checks

The names that a language gives out are distinct, and carry a mark that no name has which is
written without it. A prepared pattern binds every symbol at one leaf, its checks compare what is
bound before them or on the two sides of their `in-hole`, and without checks and under its old
symbols it is the pattern that was resolved. A written symbol with the mark can meet a fresh name:
two leaves of one pattern then bind it.
-/

namespace Reduct

namespace Pattern

mutual

/-- All symbols of a pattern, those of its literals and checks included. -/
def symbols : Pattern → List Symbol
  | .literal (.symbol name) => [name]
  | .literal _ => []
  | .nonTerminal _ symbol => [symbol]
  | .builtIn (.variableExcept excluded) symbol => symbol :: excluded
  | .builtIn _ symbol => [symbol]
  | .sequence items => symbolsAll items
  | .repeated inner _ => inner.symbols
  | .inHole context contents checks =>
    context.symbols ++ contents.symbols ++ checks.flatMap fun test => [test.left, test.right]
  | .check test => [test.left, test.right]
  | .unresolved symbol => [symbol]

/-- All symbols of a list of patterns. -/
def symbolsAll : List Pattern → List Symbol
  | [] => []
  | item :: rest => item.symbols ++ symbolsAll rest

end

mutual

/-- The checks of every `in-hole` compare a symbol of its context with one of its contents. -/
def Straddled : Pattern → Prop
  | .sequence items => StraddledAll items
  | .repeated inner _ => inner.Straddled
  | .inHole context contents checks =>
    context.Straddled ∧ contents.Straddled ∧ ∀ test ∈ checks,
      test.left ∈ context.occurrences ∧ test.right ∈ contents.occurrences
  | _ => True

/-- The checks of every `in-hole` in the items compare its two sides. -/
def StraddledAll : List Pattern → Prop
  | [] => True
  | item :: rest => item.Straddled ∧ StraddledAll rest

end

mutual

/-- A pattern without its checks, under other symbols. -/
def restore (original : Symbol → Symbol) : Pattern → Pattern
  | .nonTerminal stem symbol => .nonTerminal stem (original symbol)
  | .builtIn kind symbol =>
    if kind.isBindable then .builtIn kind (original symbol) else .builtIn kind symbol
  | .sequence items => .sequence (restoreAll original items)
  | .repeated inner mode => .repeated (inner.restore original) mode
  | .inHole context contents _ => .inHole (context.restore original) (contents.restore original) []
  | leaf => leaf

/-- Items without the checks among and inside them, under other symbols. -/
def restoreAll (original : Symbol → Symbol) : List Pattern → List Pattern
  | [] => []
  | .check _ :: rest => restoreAll original rest
  | item :: rest => item.restore original :: restoreAll original rest

end

/-- The symbol that a name stands for: the one it was made for, or else itself. -/
def originalIn (synthetic : List (Symbol × Symbol)) (name : Symbol) : Symbol :=
  ((synthetic.find? fun entry => entry.1 = name).map (·.2)).getD name

theorem restoreAll_cons {original : Symbol → Symbol} {item : Pattern} (kept : item.isCheck = false)
    (rest : List Pattern) :
    restoreAll original (item :: rest) = item.restore original :: restoreAll original rest := by
  cases item <;> first | rfl | cases kept

theorem restoreAll_checks (original : Symbol → Symbol) (checks : List PlacedCheck)
    (items : List Pattern) :
    restoreAll original ((checks.map fun placed => .check placed.test) ++ items) =
      restoreAll original items := by
  induction checks with
  | nil => rfl
  | cons placed rest ih => exact ih

/-! ## Modes do not matter -/

mutual

theorem scoped_exhaustive : (pattern : Pattern) → (pattern.exhaustive.Scoped ↔ pattern.Scoped)
  | .sequence items => scopedAll_exhaustiveAll [] items
  | .repeated inner _ => scoped_exhaustive inner
  | .inHole context contents checks => by
    rw [exhaustive, Scoped, Scoped, scoped_exhaustive context, scoped_exhaustive contents,
      occurrences_exhaustive, occurrences_exhaustive]
  | .literal _ | .nonTerminal .. | .builtIn .. | .unresolved _ | .check _ => Iff.rfl

theorem scopedAll_exhaustiveAll (known : List Symbol) : (items : List Pattern) →
    (ScopedAll known (exhaustiveAll items) ↔ ScopedAll known items)
  | [] => Iff.rfl
  | item :: rest => by
    by_cases check : item.isCheck = true
    · cases item with
      | check test =>
        rw [exhaustiveAll_check, scopedAll_check, scopedAll_check,
          scopedAll_exhaustiveAll known rest]
      | _ => cases check
    · have kept : item.isCheck = false := Bool.eq_false_iff.mpr check
      have still : item.exhaustive.isCheck = false := by cases item <;> first | rfl | cases kept
      rw [exhaustiveAll, scopedAll_item kept, scopedAll_item still, scoped_exhaustive item,
        occurrences_exhaustive, scopedAll_exhaustiveAll _ rest]

end

mutual

theorem straddled_exhaustive : (pattern : Pattern) →
    (pattern.exhaustive.Straddled ↔ pattern.Straddled)
  | .sequence items => straddledAll_exhaustiveAll items
  | .repeated inner _ => straddled_exhaustive inner
  | .inHole context contents checks => by
    rw [exhaustive, Straddled, Straddled, straddled_exhaustive context,
      straddled_exhaustive contents, occurrences_exhaustive, occurrences_exhaustive]
  | .literal _ | .nonTerminal .. | .builtIn .. | .unresolved _ | .check _ => Iff.rfl

theorem straddledAll_exhaustiveAll : (items : List Pattern) →
    (StraddledAll (exhaustiveAll items) ↔ StraddledAll items)
  | [] => Iff.rfl
  | item :: rest => by
    rw [exhaustiveAll, StraddledAll, StraddledAll, straddled_exhaustive item,
      straddledAll_exhaustiveAll rest]

end

mutual

theorem exhaustive_restore (original : Symbol → Symbol) : (pattern : Pattern) →
    (pattern.restore original).exhaustive = pattern.exhaustive.restore original
  | .sequence items => by
    rw [restore, exhaustive, exhaustive, restore, exhaustiveAll_restoreAll original items]
  | .repeated inner _ => by
    rw [restore, exhaustive, exhaustive, restore, exhaustive_restore original inner]
  | .inHole context contents _ => by
    rw [restore, exhaustive, exhaustive, restore, exhaustive_restore original context,
      exhaustive_restore original contents]
  | .builtIn kind symbol => by
    cases bindable : kind.isBindable <;> simp [restore, exhaustive, bindable]
  | .literal _ | .nonTerminal .. | .unresolved _ | .check _ => rfl

theorem exhaustiveAll_restoreAll (original : Symbol → Symbol) : (items : List Pattern) →
    exhaustiveAll (restoreAll original items) = restoreAll original (exhaustiveAll items)
  | [] => rfl
  | item :: rest => by
    by_cases check : item.isCheck = true
    · cases item with
      | check test => exact exhaustiveAll_restoreAll original rest
      | _ => cases check
    · have kept : item.isCheck = false := Bool.eq_false_iff.mpr check
      have still : item.exhaustive.isCheck = false := by cases item <;> first | rfl | cases kept
      rw [restoreAll_cons kept, exhaustiveAll, exhaustiveAll, restoreAll_cons still,
        exhaustive_restore original item, exhaustiveAll_restoreAll original rest]

end

/-! ## What check insertion does to a pattern -/

section Rebuild

variable {root : Pattern} {plan : CheckPlan}

/-- A path where no symbol is bound has no new name. -/
theorem rename?_eq_none (fresh : FreshNames) {path : PatternPath}
    (unbound : ∀ symbol, (symbol, path) ∉ root.places) :
    (root.checkPlan fresh).1.rename? path = none := by
  cases renamed : (root.checkPlan fresh).1.rename? path with
  | none => rfl
  | some name =>
    obtain ⟨entry, found, _⟩ := Option.map_eq_some_iff.mp renamed
    have same : entry.1 = path := by simpa using List.find?_some found
    obtain ⟨symbol, listed⟩ := mem_renames.mp (List.mem_of_find?_eq_some found)
    have place := mem_placesOf.mp (List.mem_of_mem_tail (path_of_mem_symbolRenames listed))
    rw [same] at place
    exact absurd place (unbound symbol)

/-- The items of a sequence from a position on, each a part of a pattern. -/
def LocatedAll (root : Pattern) (path : PatternPath) (index : Nat) (items : List Pattern) : Prop :=
  ∀ (offset : Nat) (item : Pattern), items[offset]? = some item →
    root.Located (path ++ [.item (index + offset)]) item

theorem Located.items {path : PatternPath} {items : List Pattern}
    (located : root.Located path (.sequence items)) : root.LocatedAll path 0 items := by
  intro offset item there
  rw [Nat.zero_add]
  exact located.item there

theorem LocatedAll.head {path : PatternPath} {index : Nat} {item : Pattern} {rest : List Pattern}
    (located : root.LocatedAll path index (item :: rest)) :
    root.Located (path ++ [.item index]) item :=
  located 0 item rfl

theorem LocatedAll.tail {path : PatternPath} {index : Nat} {item : Pattern} {rest : List Pattern}
    (located : root.LocatedAll path index (item :: rest)) :
    root.LocatedAll path (index + 1) rest := by
  intro offset other there
  rw [Nat.add_assoc, Nat.add_comm 1]
  exact located (offset + 1) other there

mutual

/-- A part with its new names and checks is the part again under its old symbols, without the
checks. -/
theorem restore_rebuild {original : Symbol → Symbol}
    (back : ∀ found ∈ root.places, original (nameAt plan found.2 found.1) = found.1)
    (silent : ∀ path, (∀ symbol, (symbol, path) ∉ root.places) → plan.rename? path = none) :
    (part : Pattern) → (path : PatternPath) → root.Located path part → part.tests = [] →
      (part.rebuild plan path).restore original = part
  | .literal _, path, _, _ => by
    rw [rebuild_literal]
    rfl
  | .nonTerminal stem symbol, path, located, _ => by
    have here : (symbol, path ++ []) ∈ root.places :=
      located.mem_iff.mpr (by simp [places, bindingSymbol?])
    rw [List.append_nil] at here
    rw [rebuild_nonTerminal, restore, back _ here]
  | .builtIn kind symbol, path, located, _ => by
    rw [rebuild_builtIn]
    cases bindable : kind.isBindable with
    | true =>
      have here : (symbol, path ++ []) ∈ root.places :=
        located.mem_iff.mpr (by simp [places, bindingSymbol?, bindable])
      rw [List.append_nil] at here
      simp only [restore, bindable, if_true, back _ here]
    | false =>
      have none := silent path fun other listed => by
        rw [← List.append_nil path, located.mem_iff] at listed
        simp [places, bindingSymbol?, bindable] at listed
      simp [restore, bindable, nameAt, none]
  | .sequence items, path, located, free => by
    rw [rebuild, restore, restoreAll_rebuildFrom back silent items path 0 located.items free]
  | .repeated inner mode, path, located, free => by
    rw [rebuild, restore, restore_rebuild back silent inner _ located.inner free]
  | .inHole context contents checks, path, located, free => by
    obtain ⟨both, none⟩ := List.append_eq_nil_iff.mp free
    obtain ⟨left, right⟩ := List.append_eq_nil_iff.mp both
    rw [rebuild, restore, restore_rebuild back silent context _ located.context left,
      restore_rebuild back silent contents _ located.contents right, none]
  | .unresolved _, path, _, _ => by
    simp only [rebuild]
    split <;> rfl

theorem restoreAll_rebuildFrom {original : Symbol → Symbol}
    (back : ∀ found ∈ root.places, original (nameAt plan found.2 found.1) = found.1)
    (silent : ∀ path, (∀ symbol, (symbol, path) ∉ root.places) → plan.rename? path = none) :
    (items : List Pattern) → (path : PatternPath) → (index : Nat) →
      root.LocatedAll path index items → testsAll items = [] →
      restoreAll original (rebuildFrom plan path index items) = items
  | [], _, _, _, _ => rfl
  | item :: rest, path, index, located, free => by
    obtain ⟨here, others⟩ := List.append_eq_nil_iff.mp free
    have kept : (item.rebuild plan (path ++ [.item index])).isCheck = false := by
      rw [isCheck_rebuild]
      cases item <;> first | rfl | cases here
    rw [rebuildFrom, List.cons_append, restoreAll_cons kept, restoreAll_checks,
      restore_rebuild back silent item _ located.head here,
      restoreAll_rebuildFrom back silent rest path (index + 1) located.tail others]

end

theorem mem_places_inHole {context contents : Pattern} {checks : List Check} {symbol : Symbol}
    {path : PatternPath} : (symbol, path) ∈ (Pattern.inHole context contents checks).places ↔
      (∃ rest, path = .context :: rest ∧ (symbol, rest) ∈ context.places) ∨
        ∃ rest, path = .contents :: rest ∧ (symbol, rest) ∈ contents.places := by
  rw [places, List.mem_append, List.mem_map, List.mem_map]
  constructor
  · rintro (⟨⟨_, rest⟩, listed, same⟩ | ⟨⟨_, rest⟩, listed, same⟩)
    · cases same
      exact .inl ⟨rest, rfl, listed⟩
    · cases same
      exact .inr ⟨rest, rfl, listed⟩
  · rintro (⟨rest, rfl, listed⟩ | ⟨rest, rfl, listed⟩)
    · exact .inl ⟨_, listed, rfl⟩
    · exact .inr ⟨_, listed, rfl⟩

theorem straddledAll_checks (checks : List PlacedCheck) (items : List Pattern) :
    StraddledAll ((checks.map fun placed => .check placed.test) ++ items) ↔ StraddledAll items := by
  induction checks with
  | nil => rfl
  | cons placed rest ih => exact (and_iff_right trivial).trans ih

mutual

/-- The checks at an `in-hole` compare its two sides. -/
theorem Planned.straddled (planned : root.Planned plan) : (part : Pattern) →
    (path : PatternPath) → root.Located path part → part.tests = [] →
      (part.rebuild plan path).Straddled
  | .sequence items, path, located, free => planned.straddledAll items path 0 located.items free
  | .repeated inner _, path, located, free => planned.straddled inner _ located.inner free
  | .inHole context contents checks, path, located, free => by
    obtain ⟨both, none⟩ := List.append_eq_nil_iff.mp free
    obtain ⟨left, right⟩ := List.append_eq_nil_iff.mp both
    refine ⟨planned.straddled context _ located.context left,
      planned.straddled contents _ located.contents right, fun test listed => ?_⟩
    rw [none, List.nil_append] at listed
    obtain ⟨placed, there, rfl⟩ := List.mem_map.mp listed
    obtain ⟨symbol, earlier, later, next, first, second, apart, rfl⟩ :=
      (planned.mem_checksAt located).mp there
    rw [occurrences_rebuild, occurrences_rebuild, List.mem_map, List.mem_map]
    -- The places part here, and those of the context come first.
    rcases mem_places_inHole.mp first with ⟨outer, rfl, outside⟩ | ⟨outer, rfl, _⟩
    · rcases mem_places_inHole.mp second with ⟨inner, rfl, _⟩ | ⟨inner, rfl, inside⟩
      · simp [sharedSteps] at apart
      · exact ⟨⟨_, outside, nameOf_step ..⟩, ⟨_, inside, nameOf_step ..⟩⟩
    · rcases mem_places_inHole.mp second with ⟨inner, rfl, _⟩ | ⟨inner, rfl, _⟩
      · have order := next.ordered path _ _ _ _ rfl rfl
        cases order
      · simp [sharedSteps] at apart
  | .literal _, _, _, _ | .nonTerminal .., _, _, _ | .builtIn .., _, _, _
  | .unresolved _, _, _, _ => by
    simp only [rebuild]
    split <;> trivial

theorem Planned.straddledAll (planned : root.Planned plan) : (items : List Pattern) →
    (path : PatternPath) → (index : Nat) → root.LocatedAll path index items →
      testsAll items = [] → StraddledAll (rebuildFrom plan path index items)
  | [], _, _, _, _ => trivial
  | item :: rest, path, index, located, free => by
    obtain ⟨here, others⟩ := List.append_eq_nil_iff.mp free
    rw [rebuildFrom, List.cons_append, StraddledAll, straddledAll_checks]
    exact ⟨planned.straddled item _ located.head here,
      planned.straddledAll rest path (index + 1) located.tail others⟩

end

end Rebuild

/-! ## The names that are given out -/

theorem numbers_planSymbol (symbol : Symbol) (places : List PatternPath) :
    ∀ (previous : Symbol) (earlier : PatternPath) (plan : CheckPlan) (fresh : FreshNames),
      ∃ added, (planSymbol symbol previous earlier places plan fresh).1.synthetic.map (·.1) =
          plan.synthetic.map (·.1) ++ added ∧
        Numbers fresh (planSymbol symbol previous earlier places plan fresh).2 added := by
  induction places with
  | nil => exact fun _ _ _ fresh => ⟨[], (List.append_nil _).symm, .nil fresh⟩
  | cons later rest ih =>
    intro previous earlier plan fresh
    obtain ⟨added, listed, numbers⟩ := ih (fresh.next symbol).1 later
      { renames := plan.renames ++ [(later, (fresh.next symbol).1)]
        checks := plan.checks ++ [checkPlace earlier later ⟨previous, (fresh.next symbol).1⟩]
        synthetic := plan.synthetic ++ [((fresh.next symbol).1, symbol)] } (fresh.next symbol).2
    refine ⟨[(fresh.next symbol).1] ++ added, ?_, (numbers_next fresh symbol).append numbers⟩
    rw [List.map_append, List.append_assoc] at listed
    exact listed

theorem numbers_planSymbols (occurrences : List (Symbol × PatternPath)) (symbols : List Symbol) :
    ∀ (plan : CheckPlan) (fresh : FreshNames),
      ∃ added, (planSymbols occurrences symbols plan fresh).1.synthetic.map (·.1) =
          plan.synthetic.map (·.1) ++ added ∧
        Numbers fresh (planSymbols occurrences symbols plan fresh).2 added := by
  induction symbols with
  | nil => exact fun _ fresh => ⟨[], (List.append_nil _).symm, .nil fresh⟩
  | cons symbol rest ih =>
    intro plan fresh
    rw [planSymbols]
    cases placesOf symbol occurrences with
    | nil => exact ih plan fresh
    | cons first later =>
      obtain ⟨here, listed, numbers⟩ := numbers_planSymbol symbol later symbol first plan fresh
      obtain ⟨others, all, more⟩ := ih (planSymbol symbol symbol first later plan fresh).1
        (planSymbol symbol symbol first later plan fresh).2
      refine ⟨here ++ others, ?_, numbers.append more⟩
      rw [listed, List.append_assoc] at all
      exact all

/-- The names that check insertion takes are fresh and distinct. -/
theorem numbers_insertChecks (pattern : Pattern) (fresh : FreshNames) :
    Numbers fresh (pattern.insertChecks fresh).2
      ((pattern.insertChecks fresh).1.synthetic.map (·.1)) := by
  obtain ⟨added, listed, numbers⟩ :=
    numbers_planSymbols pattern.places pattern.boundSymbols ⟨[], [], []⟩ fresh
  have same : (pattern.insertChecks fresh).1.synthetic.map (·.1) = added := listed
  rw [same]
  exact numbers

theorem Numbers.marked {before after : FreshNames} {names : List Symbol}
    (numbers : Numbers before after names) :
    ∀ name ∈ names, Symbol.isSynthetic name = true := by
  intro name listed
  obtain ⟨base, number, rfl, _⟩ := numbers.numbered name listed
  exact Symbol.isSynthetic_numbered base number

section Names

variable {root : Pattern} (fresh : FreshNames)

variable (plain : ∀ symbol ∈ root.occurrences, Symbol.isSynthetic symbol = false)

include plain

/-- The name of every occurrence stands for its symbol. -/
theorem originalIn_nameAt {symbol : Symbol} {path : PatternPath}
    (listed : (symbol, path) ∈ root.places) :
    originalIn (root.insertChecks fresh).1.synthetic
      (nameAt (root.checkPlan fresh).1 path symbol) = symbol := by
  have numbers := numbers_insertChecks root fresh
  unfold originalIn
  rcases nameAt_cases fresh listed with ⟨_, kept⟩ | renamed
  · have bound : symbol ∈ root.occurrences := by
      rw [← map_fst_places]
      exact List.mem_map_of_mem listed
    have none : (root.insertChecks fresh).1.synthetic.find? (fun entry => entry.1 = symbol) =
        none := by
      refine List.find?_eq_none.mpr fun entry inside same => ?_
      have marked := numbers.marked entry.1 (List.mem_map_of_mem inside)
      rw [of_decide_eq_true same, plain symbol bound] at marked
      cases marked
    rw [kept, none]
    rfl
  · have inside : (_, symbol) ∈ (root.insertChecks fresh).1.synthetic :=
      (mem_synthetic_pair fresh).mpr ⟨path, renamed⟩
    cases found : (root.insertChecks fresh).1.synthetic.find? fun entry =>
        entry.1 = nameAt (root.checkPlan fresh).1 path symbol with
    | none =>
      have absent := List.find?_eq_none.mp found _ inside
      exact absurd (decide_eq_true rfl) absent
    | some entry =>
      have same := List.find?_some found
      rw [decide_eq_true_iff] at same
      have equal := eq_of_nodup_map numbers.distinct (List.mem_of_find?_eq_some found) inside same
      rw [equal]
      rfl

/-- The pattern with checks is the pattern again under its old symbols, without the checks. -/
theorem restore_insertChecks (free : root.tests = []) :
    (root.insertChecks fresh).1.pattern.restore
      (originalIn (root.insertChecks fresh).1.synthetic) = root :=
  restore_rebuild (fun _ listed => originalIn_nameAt fresh plain listed)
    (fun _ unbound => rename?_eq_none fresh unbound) root [] (.self root) free

/-- The pattern with checks binds the symbols of the pattern and the new names, each once. -/
theorem occurrences_insertChecks : (root.insertChecks fresh).1.pattern.occurrences.Perm
    (root.boundSymbols ++ (root.insertChecks fresh).1.synthetic.map (·.1)) := by
  have numbers := numbers_insertChecks root fresh
  have distinct : (root.boundSymbols ++ (root.insertChecks fresh).1.synthetic.map (·.1)).Nodup := by
    rw [List.nodup_append]
    refine ⟨nodup_boundSymbols root, numbers.distinct, ?_⟩
    rintro name bound _ given rfl
    have marked := numbers.marked name given
    rw [plain name (mem_boundSymbols.mp bound)] at marked
    cases marked
  refine (List.perm_ext_iff_of_nodup (nodup_insertChecks fresh plain) distinct).mpr fun name => ?_
  have names : (root.insertChecks fresh).1.pattern.occurrences =
      root.places.map fun found => nameAt (root.checkPlan fresh).1 found.2 found.1 :=
    occurrences_rebuild _ [] root
  rw [names, List.mem_map, List.mem_append, List.mem_map]
  constructor
  · rintro ⟨⟨symbol, path⟩, listed, rfl⟩
    rcases nameAt_cases fresh listed with ⟨_, kept⟩ | renamed
    · refine .inl ?_
      dsimp only
      rw [kept, mem_boundSymbols, ← map_fst_places]
      exact List.mem_map_of_mem listed
    · exact .inr ⟨(_, symbol), (mem_synthetic_pair fresh).mpr ⟨path, renamed⟩, rfl⟩
  · rintro (bound | ⟨entry, given, rfl⟩)
    · rw [mem_boundSymbols, ← map_fst_places] at bound
      obtain ⟨⟨symbol, path⟩, listed, rfl⟩ := List.mem_map.mp bound
      cases found : placesOf symbol root.places with
      | nil =>
        have place := mem_placesOf.mpr listed
        rw [found] at place
        cases place
      | cons first later =>
        exact ⟨(symbol, first), mem_placesOf.mp (found ▸ List.mem_cons_self), nameAt_first found⟩
    · obtain ⟨path, renamed⟩ := (mem_synthetic_pair fresh).mp given
      have place := mem_placesOf.mp (List.mem_of_mem_tail (path_of_mem_symbolRenames renamed))
      refine ⟨(entry.2, path), place, ?_⟩
      rw [nameAt, rename?_eq_some (mem_renames.mpr ⟨_, renamed⟩)]
      rfl

end Names

/-! ## Symbols of a resolved pattern -/

mutual

/-- Resolution keeps the symbols of a pattern. -/
theorem symbols_resolve {names : SymbolSet} : (pattern : Pattern) → {resolved : Pattern} →
    {before after : SymbolSet} → (pattern.resolve names).run before = (.ok resolved, after) →
    resolved.symbols = pattern.symbols
  | .unresolved symbol, resolved, before, after, accepted => by
    rw [resolve, ofSymbol] at accepted
    split at accepted
    · cases accepted
      rfl
    · rename_i kind found
      cases accepted
      have bare := List.mem_of_find?_eq_some (resolution_eq_builtIn found).2
      cases kind with
      | variableExcept => simp [BuiltIn.bare] at bare
      | _ => rfl
    · cases accepted
    · cases accepted
      rfl
  | .literal value, resolved, before, after, accepted => by
    cases value <;> (cases accepted; rfl)
  | .builtIn kind symbol, resolved, before, after, accepted => by
    cases accepted
    rfl
  | .nonTerminal stem symbol, resolved, before, after, accepted => by
    cases accepted
    rfl
  | .check test, resolved, before, after, accepted => by
    cases accepted
    rfl
  | .sequence items, resolved, before, after, accepted => by
    rw [resolve] at accepted
    obtain ⟨all, middle, first, last⟩ := run_bind_eq_ok.mp accepted
    obtain ⟨rfl, rfl⟩ := run_pure_eq_ok.mp last
    exact symbolsAll_resolveAll items first
  | .repeated inner mode, resolved, before, after, accepted => by
    rw [resolve] at accepted
    obtain ⟨part, middle, first, last⟩ := run_bind_eq_ok.mp accepted
    obtain ⟨rfl, rfl⟩ := run_pure_eq_ok.mp last
    rw [symbols, symbols, symbols_resolve inner first]
  | .inHole context contents checks, resolved, before, after, accepted => by
    rw [resolve] at accepted
    obtain ⟨outer, middle, first, rest⟩ := run_bind_eq_ok.mp accepted
    obtain ⟨inner, later, second, last⟩ := run_bind_eq_ok.mp rest
    obtain ⟨rfl, rfl⟩ := run_pure_eq_ok.mp last
    rw [symbols, symbols, symbols_resolve context first, symbols_resolve contents second]

theorem symbolsAll_resolveAll {names : SymbolSet} : (items : List Pattern) →
    {resolved : List Pattern} → {before after : SymbolSet} →
    (resolveAll names items).run before = (.ok resolved, after) →
    symbolsAll resolved = symbolsAll items
  | [], resolved, before, after, accepted => by
    cases accepted
    rfl
  | item :: rest, resolved, before, after, accepted => by
    rw [resolveAll] at accepted
    obtain ⟨first, middle, here, last⟩ := run_bind_eq_ok.mp accepted
    obtain ⟨others, later, second, all⟩ := run_bind_eq_ok.mp last
    obtain ⟨rfl, rfl⟩ := run_pure_eq_ok.mp all
    rw [symbolsAll, symbolsAll, symbols_resolve item here, symbolsAll_resolveAll rest second]

end

mutual

/-- What a pattern binds is among its symbols. -/
theorem occurrences_subset_symbols : (pattern : Pattern) → pattern.occurrences ⊆ pattern.symbols
  | .literal _ | .unresolved _ | .check _ => List.nil_subset _
  | .nonTerminal _ _ => List.Subset.refl _
  | .builtIn kind symbol => by
    cases kind <;> simp [occurrences, bindingSymbol?, symbols, BuiltIn.isBindable]
  | .sequence items => occurrencesAll_subset_symbolsAll items
  | .repeated inner _ => occurrences_subset_symbols inner
  | .inHole context contents _ =>
    List.append_subset.mpr
      ⟨List.Subset.trans (occurrences_subset_symbols context)
          (List.Subset.trans (List.subset_append_left _ _) (List.subset_append_left _ _)),
        List.Subset.trans (occurrences_subset_symbols contents)
          (List.Subset.trans (List.subset_append_right _ _) (List.subset_append_left _ _))⟩

theorem occurrencesAll_subset_symbolsAll : (items : List Pattern) →
    occurrencesAll items ⊆ symbolsAll items
  | [] => List.nil_subset _
  | item :: rest =>
    List.append_subset.mpr
      ⟨List.Subset.trans (occurrences_subset_symbols item) (List.subset_append_left _ _),
        List.Subset.trans (occurrencesAll_subset_symbolsAll rest) (List.subset_append_right _ _)⟩

end

end Pattern

namespace Language

/-- The names that an attempt to prepare a pattern takes. -/
def taken (language : Language) (pattern : Pattern) : List Symbol :=
  match ((pattern.resolve language.names).run language.mentioned).1 with
  | .error _ => []
  | .ok resolved =>
    match resolved.depths with
    | .error _ => []
    | .ok _ => (resolved.insertChecks language.fresh).1.synthetic.map (·.1)

/-- The names that the alternatives of a language bind. -/
def ruleNames (rules : List Rule) : List Symbol :=
  rules.flatMap fun rule => rule.alternatives.flatMap (·.pattern.occurrences)

/-- The states of an accepted language, with all names that were given out: first those of its
alternatives, then those of the patterns that were tried. -/
inductive Gives (definition : LanguageDefinition) (span : Span) : Language → List Symbol → Prop
  | define {language : Language} (accepted : define definition span = .ok language) :
      Gives definition span language (ruleNames language.rules)
  | prepare {language : Language} {names : List Symbol} (gives : Gives definition span language names)
      (pattern : Pattern) :
      Gives definition span (language.prepare pattern).2 (names ++ language.taken pattern)

theorem numbers_finishAlternatives {language : Language} {alternatives : List Pattern} :
    ∀ {before after : FreshNames} {finished : List Prepared},
      language.finishAlternatives alternatives before = .ok (finished, after) →
      Pattern.Numbers before after (finished.flatMap (·.pattern.occurrences)) := by
  induction alternatives with
  | nil =>
    intro before after finished accepted
    cases accepted
    exact .nil before
  | cons alternative rest ih =>
    intro before after finished accepted
    rw [finishAlternatives] at accepted
    obtain ⟨first, made, later⟩ := Except.bind_eq_ok.mp accepted
    obtain ⟨⟨others, last⟩, more, same⟩ := Except.bind_eq_ok.mp later
    cases same
    obtain ⟨_, shape, _⟩ := finish_eq_ok.mp made
    rw [List.flatMap_cons, shape, Pattern.occurrences_classify]
    exact (Pattern.numbers_anonymize alternative before).append (ih more)

theorem numbers_finishRules {language : Language} {grammar : Grammar}
    {rules : List RuleDefinition} :
    ∀ {before after : FreshNames} {finished : List Rule},
      language.finishRules grammar rules before = .ok (finished, after) →
      Pattern.Numbers before after (ruleNames finished) := by
  induction rules with
  | nil =>
    intro before after finished accepted
    cases accepted
    exact .nil before
  | cons rule rest ih =>
    intro before after finished accepted
    rw [finishRules] at accepted
    obtain ⟨⟨alternatives, middle⟩, made, later⟩ := Except.bind_eq_ok.mp accepted
    obtain ⟨⟨others, last⟩, more, same⟩ := Except.bind_eq_ok.mp later
    cases same
    exact (numbers_finishAlternatives (locate_eq_ok.mp made)).append (ih more)

/-- All names that a language gave out are distinct, and its counters are past them. -/
theorem Gives.numbers {definition : LanguageDefinition} {span : Span} {language : Language}
    {names : List Symbol} (gives : Gives definition span language names) :
    Pattern.Numbers .empty language.fresh names := by
  induction gives with
  | define accepted =>
    obtain ⟨_, _, rest⟩ := Except.bind_eq_ok.mp accepted
    obtain ⟨⟨resolved, mentioned⟩, _, last⟩ := Except.bind_eq_ok.mp rest
    dsimp only at last
    split at last
    · cases last
    · obtain ⟨⟨rules, fresh⟩, finished, made⟩ := Except.bind_eq_ok.mp last
      cases made
      exact numbers_finishRules finished
  | @prepare language names gives pattern ih =>
    refine ih.append ?_
    unfold taken Language.prepare
    rcases (pattern.resolve language.names).run language.mentioned with ⟨fault | resolved, mentioned⟩
    · exact .nil _
    · cases depths : resolved.depths with
      | error fault =>
        simp only [depths]
        exact .nil _
      | ok found =>
        simp only [depths]
        exact Pattern.numbers_insertChecks resolved language.fresh

/-- What is asked of a prepared pattern with fresh names for some symbols, when other names were
given out before. -/
structure Hygienic (earlier : List Symbol) (written resolved : Pattern)
    (originals : List (Symbol × Symbol)) (prepared : Prepared) : Prop where
  /-- The symbols of the pattern and the fresh names are bound. -/
  binds : prepared.pattern.occurrences.Perm (resolved.boundSymbols ++ prepared.synthetic)
  /-- Nothing is bound at two leaves. -/
  once : prepared.pattern.occurrences.Nodup
  /-- No name was given out twice. -/
  distinct : (earlier ++ prepared.synthetic).Nodup
  /-- No name that was given out is written in the pattern. -/
  apart : ∀ name ∈ earlier ++ prepared.synthetic, name ∉ written.symbols
  /-- Checks compare what is bound before them. -/
  ordered : prepared.pattern.Scoped
  /-- Checks of an `in-hole` compare its sides. -/
  straddled : prepared.pattern.Straddled
  synthetic : prepared.synthetic = originals.map (·.1)
  /-- Without checks, under the old symbols and up to modes, the pattern is what it was. -/
  restores : (prepared.pattern.restore (Pattern.originalIn originals)).exhaustive =
    resolved.exhaustive

/-- A pattern without marked symbols is prepared with fresh names that stand apart from all names
given out before, at whatever state of an accepted language. -/
theorem prepare_hygienic {definition : LanguageDefinition} {span : Span} {language : Language}
    {names : List Symbol} (gives : Gives definition span language names)
    {pattern resolved : Pattern} {mentioned : SymbolSet} (written : pattern.isWritten = true)
    (unmarked : ∀ symbol ∈ pattern.symbols, Symbol.isSynthetic symbol = false)
    (found : (pattern.resolve language.names).run language.mentioned = (.ok resolved, mentioned))
    {prepared : Prepared} (accepted : (language.prepare pattern).1 = .ok prepared) :
    Hygienic names pattern resolved (resolved.insertChecks language.fresh).1.synthetic prepared := by
  have free := resolved.tests_of_isResolved (Pattern.isResolved_resolve pattern written found)
  have plain : ∀ symbol ∈ resolved.occurrences, Symbol.isSynthetic symbol = false := by
    intro symbol bound
    have inside := Pattern.occurrences_subset_symbols resolved bound
    rw [Pattern.symbols_resolve pattern found] at inside
    exact unmarked symbol inside
  cases depths : resolved.depths with
  | error fault =>
    rw [Language.prepare, found] at accepted
    simp only [depths] at accepted
    cases accepted
  | ok inner =>
    rw [prepare_fst found depths] at accepted
    obtain ⟨_, made, _, synthetic⟩ := finish_eq_ok.mp accepted
    have shape : prepared.pattern.exhaustive =
        (resolved.insertChecks language.fresh).1.pattern.exhaustive := by
      rw [made, Pattern.exhaustive_classify]
    have occurrences : prepared.pattern.occurrences =
        (resolved.insertChecks language.fresh).1.pattern.occurrences := by
      rw [← Pattern.occurrences_exhaustive, shape, Pattern.occurrences_exhaustive]
    have numbers := gives.numbers.append (Pattern.numbers_insertChecks resolved language.fresh)
    rw [← synthetic] at numbers
    refine
      { binds := ?_
        once := ?_
        distinct := numbers.distinct
        apart := ?_
        ordered := ?_
        straddled := ?_
        synthetic := synthetic
        restores := ?_ }
    · rw [occurrences, synthetic]
      exact Pattern.occurrences_insertChecks language.fresh plain
    · rw [occurrences]
      exact Pattern.nodup_insertChecks language.fresh plain
    · intro name given inside
      have marked := numbers.marked name given
      rw [unmarked name inside] at marked
      cases marked
    · rw [← Pattern.scoped_exhaustive, shape, Pattern.scoped_exhaustive]
      exact Pattern.scoped_insertChecks language.fresh plain free
    · rw [← Pattern.straddled_exhaustive, shape, Pattern.straddled_exhaustive]
      exact (Pattern.planned_checkPlan language.fresh plain).straddled resolved [] (.self resolved)
        free
    · rw [Pattern.exhaustive_restore, shape, ← Pattern.exhaustive_restore,
        Pattern.restore_insertChecks language.fresh plain free]

end Language

/-- A language, the names it gave out, and what it prepares a pattern to, as a whole run finds
them. -/
theorem exists_gives {definition : LanguageDefinition} {pattern : Pattern}
    {test : Language → Pattern → Prepared → Bool}
    (tested : preparesTo definition pattern test = true) :
    ∃ language names resolved mentioned prepared,
      Language.Gives definition default language names ∧
      (pattern.resolve language.names).run language.mentioned = (.ok resolved, mentioned) ∧
      (language.prepare pattern).1 = .ok prepared ∧
      test (language.prepare pattern).2 resolved prepared = true := by
  unfold preparesTo at tested
  split at tested
  · rename_i language accepted
    split at tested
    · rename_i resolved prepared after resolves prepares
      exact ⟨language, _, resolved, _, prepared, .define accepted, Prod.ext resolves rfl,
        by rw [prepares], by rw [prepares]; exact tested⟩
    · cases tested
  · cases tested

theorem prepare_hygienic_sameEnds :
    ∃ language names resolved originals prepared,
      Language.Gives numberTrees default language names ∧
      (language.prepare sameEnds).1 = .ok prepared ∧
      Language.Hygienic names sameEnds resolved originals prepared := by
  obtain ⟨language, names, resolved, mentioned, prepared, gives, found, accepted, _⟩ :=
    exists_gives (by decide +kernel : preparesTo numberTrees sameEnds (fun _ _ _ => true) = true)
  exact ⟨language, names, resolved, _, prepared, gives, accepted,
    Language.prepare_hygienic gives (by decide) (by decide) found accepted⟩

/-- A number twice, and a third one under the fresh name of the second. -/
def namesakes : Pattern :=
  .sequence [.unresolved "e_1", .unresolved "e_1", .unresolved "e_1#0"]

/-- The pattern is accepted, and two of its leaves bind one symbol: the fresh name is one that the
pattern has. -/
theorem prepare_not_hygienic_namesakes :
    ∃ language names resolved mentioned prepared,
      Language.Gives numberTrees default language names ∧
      (namesakes.resolve language.names).run language.mentioned = (.ok resolved, mentioned) ∧
      (language.prepare namesakes).1 = .ok prepared ∧
      ¬ prepared.pattern.occurrences.Nodup ∧ ∃ name ∈ prepared.synthetic, name ∈ namesakes.symbols := by
  obtain ⟨language, names, resolved, mentioned, prepared, gives, found, accepted, tested⟩ :=
    exists_gives (by decide +kernel : preparesTo numberTrees namesakes (fun _ _ prepared =>
      !decide prepared.pattern.occurrences.Nodup &&
        prepared.synthetic.any fun name => decide (name ∈ namesakes.symbols)) = true)
  obtain ⟨twice, met⟩ := Bool.and_eq_true_iff.mp tested
  obtain ⟨name, given, inside⟩ := List.any_eq_true.mp met
  exact ⟨language, names, resolved, mentioned, prepared, gives, found, accepted,
    by simpa using twice, name, given, of_decide_eq_true inside⟩

end Reduct
