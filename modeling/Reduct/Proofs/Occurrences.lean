import Reduct.Proofs.Acceptance
import Reduct.Proofs.NumberedNames

/-!
# Occurrences of bound symbols

Every occurrence of a bound symbol has a place of its own. The plan of checks is written out
symbol by symbol: the first occurrence keeps the symbol, every later one gets a fresh name, and
consecutive occurrences are compared. As long as no symbol carries the mark of a generated name,
the pattern with its checks binds every name once, so its depths never disagree.
-/

namespace Reduct

namespace Pattern

theorem mem_foldl_addOnce {symbols start : List Symbol} {symbol : Symbol} :
    symbol ∈ symbols.foldl addOnce start ↔ symbol ∈ start ∨ symbol ∈ symbols := by
  induction symbols generalizing start with
  | nil => simp
  | cons first rest ih =>
    rw [List.foldl_cons, ih]
    unfold addOnce
    split
    · rename_i there
      constructor
      · rintro (here | later)
        · exact .inl here
        · exact .inr (List.mem_cons_of_mem _ later)
      · rintro (here | listed)
        · exact .inl here
        · rcases List.mem_cons.mp listed with rfl | later
          · exact .inl there
          · exact .inr later
    · simp only [List.mem_append, List.mem_cons, List.not_mem_nil, or_false, or_assoc]

theorem nodup_foldl_addOnce {symbols start : List Symbol} (distinct : start.Nodup) :
    (symbols.foldl addOnce start).Nodup := by
  induction symbols generalizing start with
  | nil => exact distinct
  | cons first rest ih =>
    refine ih ?_
    unfold addOnce
    split
    · exact distinct
    · rename_i absent
      rw [List.nodup_append]
      refine ⟨distinct, by simp, ?_⟩
      intro symbol listed other single same
      rw [List.mem_singleton.mp single] at same
      exact absent (same ▸ listed)

/-- The bound symbols are those that occur. -/
theorem mem_boundSymbols {pattern : Pattern} {symbol : Symbol} :
    symbol ∈ pattern.boundSymbols ↔ symbol ∈ pattern.occurrences := by
  unfold boundSymbols
  rw [mem_foldl_addOnce]
  simp

theorem nodup_boundSymbols (pattern : Pattern) : pattern.boundSymbols.Nodup :=
  nodup_foldl_addOnce List.nodup_nil

mutual

/-- The places list the occurrences. -/
theorem map_fst_places : (pattern : Pattern) → pattern.places.map (·.1) = pattern.occurrences
  | .literal _ | .nonTerminal .. | .check _ | .unresolved _ => rfl
  | .builtIn kind symbol => by
    rw [places, occurrences, List.map_map]
    · exact List.map_id' _
    all_goals nofun
  | .sequence items => map_fst_placesFrom 0 items
  | .repeated inner _ => by
    rw [places, occurrences, List.map_map]
    exact map_fst_places inner
  | .inHole context contents _ => by
    rw [places, occurrences, List.map_append, List.map_map, List.map_map]
    exact congr (congrArg _ (map_fst_places context)) (map_fst_places contents)

theorem map_fst_placesFrom (index : Nat) : (items : List Pattern) →
    (placesFrom index items).map (·.1) = occurrencesAll items
  | [] => rfl
  | item :: rest => by
    rw [placesFrom, occurrencesAll, List.map_append, List.map_map]
    exact congr (congrArg _ (map_fst_places item)) (map_fst_placesFrom (index + 1) rest)

end

/-- The places of later items do not start with an earlier position. -/
theorem placesFrom_step {index : Nat} {items : List Pattern} {found : Symbol × PatternPath}
    (listed : found ∈ placesFrom index items) :
    ∃ offset rest item, found.2 = .item (index + offset) :: rest ∧ items[offset]? = some item ∧
      (found.1, rest) ∈ item.places := by
  induction items generalizing index with
  | nil => cases listed
  | cons first others ih =>
    rw [placesFrom] at listed
    rcases List.mem_append.mp listed with here | later
    · obtain ⟨inner, there, rfl⟩ := List.mem_map.mp here
      exact ⟨0, inner.2, first, rfl, rfl, there⟩
    · obtain ⟨offset, rest, item, same, found, there⟩ := ih later
      refine ⟨offset + 1, rest, item, ?_, found, there⟩
      rw [same, Nat.add_assoc, Nat.add_comm 1]

/-- One more step in front keeps places apart. -/
theorem nodup_wrapped (step : PatternStep) {found : List (Symbol × PatternPath)}
    (distinct : (found.map (·.2)).Nodup) :
    ((found.map fun place => (place.1, step :: place.2)).map (·.2)).Nodup := by
  have paths : ((found.map (·.2)).map (step :: ·)).Nodup :=
    List.Pairwise.map _ (fun _ _ apart same => apart (List.cons.inj same).2) distinct
  rw [List.map_map] at paths ⊢
  exact paths

mutual

/-- Every occurrence has a place of its own. -/
theorem nodup_places : (pattern : Pattern) → (pattern.places.map (·.2)).Nodup
  | .literal _ | .check _ | .unresolved _ => List.nodup_nil
  | .nonTerminal .. => by simp [places, bindingSymbol?]
  | .builtIn kind symbol => by
    rw [places]
    · unfold bindingSymbol?
      dsimp only
      split <;> simp
    all_goals nofun
  | .sequence items => nodup_placesFrom 0 items
  | .repeated inner _ => nodup_wrapped .inner (nodup_places inner)
  | .inHole context contents _ => by
    rw [places, List.map_append, List.nodup_append]
    refine ⟨nodup_wrapped .context (nodup_places context),
      nodup_wrapped .contents (nodup_places contents), ?_⟩
    intro first left second right same
    rw [List.map_map] at left right
    obtain ⟨_, _, rfl⟩ := List.mem_map.mp left
    obtain ⟨_, _, rfl⟩ := List.mem_map.mp right
    cases same

theorem nodup_placesFrom (index : Nat) : (items : List Pattern) →
    ((placesFrom index items).map (·.2)).Nodup
  | [] => List.nodup_nil
  | item :: rest => by
    rw [placesFrom, List.map_append, List.nodup_append]
    refine ⟨nodup_wrapped (.item index) (nodup_places item),
      nodup_placesFrom (index + 1) rest, ?_⟩
    intro first left second right same
    rw [List.map_map] at left
    obtain ⟨_, _, rfl⟩ := List.mem_map.mp left
    obtain ⟨found, listed, rfl⟩ := List.mem_map.mp right
    obtain ⟨offset, path, _, steps, _, _⟩ := placesFrom_step listed
    rw [steps] at same
    have position := PatternStep.item.inj (List.cons.inj same).1
    omega

end

/-- Places with the fresh names of a base from a number on. -/
def freshPlaces (base : Symbol) (start : Nat) : List PatternPath → List (PatternPath × Symbol)
  | [] => []
  | path :: rest => (path, Symbol.numbered base start) :: freshPlaces base (start + 1) rest

/-- The checks that compare every named place with the one before it. -/
def chainChecks (previous : Symbol) (earlier : PatternPath) :
    List (PatternPath × Symbol) → List PlacedCheck
  | [] => []
  | (later, name) :: rest =>
    checkPlace earlier later ⟨previous, name⟩ :: chainChecks name later rest

theorem count_next (fresh : FreshNames) (base other : Symbol) :
    (fresh.next base).2.count other =
      if base = other then fresh.count base + 1 else fresh.count other := by
  unfold FreshNames.next FreshNames.count
  rw [Table.find?_insert]
  split <;> rfl

/-- The plan for one symbol, written out. -/
theorem planSymbol_eq (symbol : Symbol) (places : List PatternPath) :
    ∀ (previous : Symbol) (earlier : PatternPath) (plan : CheckPlan) (fresh : FreshNames),
      let named := freshPlaces symbol (fresh.count symbol) places
      let planned := planSymbol symbol previous earlier places plan fresh
      planned.1.renames = plan.renames ++ named ∧
        planned.1.checks = plan.checks ++ chainChecks previous earlier named ∧
        planned.1.synthetic = plan.synthetic ++ named.map (fun entry => (entry.2, symbol)) ∧
        ∀ other, other ≠ symbol → planned.2.count other = fresh.count other := by
  induction places with
  | nil =>
    intro previous earlier plan fresh
    simp [planSymbol, freshPlaces, chainChecks]
  | cons later rest ih =>
    intro previous earlier plan fresh
    have step := ih (Symbol.numbered symbol (fresh.count symbol)) later
      { renames := plan.renames ++ [(later, Symbol.numbered symbol (fresh.count symbol))]
        checks := plan.checks ++
          [checkPlace earlier later ⟨previous, Symbol.numbered symbol (fresh.count symbol)⟩]
        synthetic := plan.synthetic ++ [(Symbol.numbered symbol (fresh.count symbol), symbol)] }
      (fresh.next symbol).2
    rw [count_next, if_pos rfl] at step
    obtain ⟨renames, checks, synthetic, counts⟩ := step
    refine ⟨?_, ?_, ?_, ?_⟩
    · refine renames.trans ?_
      simp [freshPlaces]
    · refine checks.trans ?_
      simp [freshPlaces, chainChecks]
    · refine synthetic.trans ?_
      simp [freshPlaces]
    · intro other apart
      refine (counts other apart).trans ?_
      rw [count_next, if_neg (Ne.symm apart)]

/-- The new names of the occurrences of a symbol after the first. -/
def symbolRenames (occurrences : List (Symbol × PatternPath)) (fresh : FreshNames)
    (symbol : Symbol) : List (PatternPath × Symbol) :=
  freshPlaces symbol (fresh.count symbol) (placesOf symbol occurrences).tail

/-- The checks between consecutive occurrences of a symbol. -/
def symbolChecks (occurrences : List (Symbol × PatternPath)) (fresh : FreshNames)
    (symbol : Symbol) : List PlacedCheck :=
  match placesOf symbol occurrences with
  | [] => []
  | first :: later => chainChecks symbol first (freshPlaces symbol (fresh.count symbol) later)

theorem flatMap_congr_of_mem {α β : Type} {items : List α} {first second : α → List β}
    (same : ∀ item ∈ items, first item = second item) :
    items.flatMap first = items.flatMap second := by
  rw [List.flatMap_def, List.flatMap_def, List.map_congr_left same]

/-- The plan for distinct symbols, written out. -/
theorem planSymbols_eq (occurrences : List (Symbol × PatternPath)) (symbols : List Symbol) :
    ∀ (plan : CheckPlan) (fresh : FreshNames), symbols.Nodup →
      let planned := planSymbols occurrences symbols plan fresh
      planned.1.renames = plan.renames ++ symbols.flatMap (symbolRenames occurrences fresh) ∧
        planned.1.checks = plan.checks ++ symbols.flatMap (symbolChecks occurrences fresh) ∧
        planned.1.synthetic = plan.synthetic ++ symbols.flatMap fun symbol =>
          (symbolRenames occurrences fresh symbol).map fun entry => (entry.2, symbol) := by
  induction symbols with
  | nil =>
    intro plan fresh _
    simp [planSymbols]
  | cons first rest ih =>
    intro plan fresh distinct
    rw [List.nodup_cons] at distinct
    rw [planSymbols]
    cases found : placesOf first occurrences with
    | nil =>
      obtain ⟨renames, checks, synthetic⟩ := ih plan fresh distinct.2
      refine ⟨renames.trans ?_, checks.trans ?_, synthetic.trans ?_⟩
      · simp [symbolRenames, found, freshPlaces]
      · simp [symbolChecks, found]
      · simp [symbolRenames, found, freshPlaces]
    | cons place later =>
      dsimp only
      obtain ⟨renames, checks, synthetic, counts⟩ :=
        planSymbol_eq first later first place plan fresh
      generalize planSymbol first first place later plan fresh = planned at *
      obtain ⟨more, moreChecks, moreSynthetic⟩ := ih planned.1 planned.2 distinct.2
      -- The fresh names of the other symbols are still those of the start.
      have sameRenames : ∀ symbol ∈ rest,
          symbolRenames occurrences planned.2 symbol = symbolRenames occurrences fresh symbol := by
        intro symbol listed
        have apart : symbol ≠ first := fun same => distinct.1 (same ▸ listed)
        rw [symbolRenames, symbolRenames, counts symbol apart]
      have sameChecks : ∀ symbol ∈ rest,
          symbolChecks occurrences planned.2 symbol = symbolChecks occurrences fresh symbol := by
        intro symbol listed
        have apart : symbol ≠ first := fun same => distinct.1 (same ▸ listed)
        rw [symbolChecks, symbolChecks, counts symbol apart]
      refine ⟨more.trans ?_, moreChecks.trans ?_, moreSynthetic.trans ?_⟩
      · rw [renames, List.flatMap_cons, List.append_assoc, flatMap_congr_of_mem sameRenames]
        simp [symbolRenames, found]
      · rw [checks, List.flatMap_cons, List.append_assoc, flatMap_congr_of_mem sameChecks]
        simp [symbolChecks, found]
      · rw [synthetic, List.flatMap_cons, List.append_assoc,
          flatMap_congr_of_mem fun symbol listed => by rw [sameRenames symbol listed]]
        simp [symbolRenames, found]

theorem map_fst_freshPlaces (base : Symbol) (start : Nat) (paths : List PatternPath) :
    (freshPlaces base start paths).map (·.1) = paths := by
  induction paths generalizing start with
  | nil => rfl
  | cons path rest ih => rw [freshPlaces, List.map_cons, ih]

theorem exists_of_mem_freshPlaces {base : Symbol} {start : Nat} {paths : List PatternPath}
    {entry : PatternPath × Symbol} (listed : entry ∈ freshPlaces base start paths) :
    ∃ number, start ≤ number ∧ entry.2 = Symbol.numbered base number := by
  induction paths generalizing start with
  | nil => cases listed
  | cons path rest ih =>
    rcases List.mem_cons.mp listed with rfl | later
    · exact ⟨start, Nat.le_refl _, rfl⟩
    · obtain ⟨number, above, name⟩ := ih later
      exact ⟨number, by omega, name⟩

theorem nodup_snd_freshPlaces (base : Symbol) (start : Nat) (paths : List PatternPath) :
    ((freshPlaces base start paths).map (·.2)).Nodup := by
  induction paths generalizing start with
  | nil => exact List.nodup_nil
  | cons path rest ih =>
    rw [freshPlaces, List.map_cons, List.nodup_cons]
    refine ⟨?_, ih (start + 1)⟩
    intro listed
    obtain ⟨entry, there, same⟩ := List.mem_map.mp listed
    obtain ⟨number, above, name⟩ := exists_of_mem_freshPlaces there
    rw [name] at same
    have numbers := (Symbol.numbered_inj same).2
    omega

/-- Members of a list whose images are distinct are equal if their images are. -/
theorem eq_of_nodup_map {α β : Type} {items : List α} {image : α → β}
    (distinct : (items.map image).Nodup) {first second : α} (left : first ∈ items)
    (right : second ∈ items) (same : image first = image second) : first = second := by
  induction items with
  | nil => cases left
  | cons head rest ih =>
    rw [List.map_cons, List.nodup_cons] at distinct
    rcases List.mem_cons.mp left with rfl | here
    · rcases List.mem_cons.mp right with rfl | there
      · rfl
      · exact absurd (same ▸ List.mem_map_of_mem there) distinct.1
    · rcases List.mem_cons.mp right with rfl | there
      · exact absurd (same ▸ List.mem_map_of_mem here) distinct.1
      · exact ih distinct.2 here there

theorem mem_placesOf {symbol : Symbol} {occurrences : List (Symbol × PatternPath)}
    {path : PatternPath} :
    path ∈ placesOf symbol occurrences ↔ (symbol, path) ∈ occurrences := by
  unfold placesOf
  rw [List.mem_map]
  constructor
  · rintro ⟨found, listed, rfl⟩
    obtain ⟨there, same⟩ := List.mem_filter.mp listed
    rw [← of_decide_eq_true same]
    exact there
  · intro listed
    exact ⟨(symbol, path), List.mem_filter.mpr ⟨listed, decide_eq_true rfl⟩, rfl⟩

theorem nodup_placesOf (pattern : Pattern) (symbol : Symbol) :
    (placesOf symbol pattern.places).Nodup :=
  (nodup_places pattern).sublist (List.filter_sublist.map _)

section Plan

variable {pattern : Pattern} {fresh : FreshNames}

/-- The symbol of a place is determined. -/
theorem symbol_eq_of_places {first second : Symbol} {path : PatternPath}
    (left : (first, path) ∈ pattern.places) (right : (second, path) ∈ pattern.places) :
    first = second :=
  congrArg Prod.fst (eq_of_nodup_map (nodup_places pattern) left right rfl)

theorem mem_renames {entry : PatternPath × Symbol} :
    entry ∈ (pattern.checkPlan fresh).1.renames ↔
      ∃ symbol, entry ∈ symbolRenames pattern.places fresh symbol := by
  have planned := (planSymbols_eq pattern.places pattern.boundSymbols ⟨[], [], []⟩ fresh
    (nodup_boundSymbols pattern)).1
  rw [checkPlan, planned, List.nil_append, List.mem_flatMap]
  constructor
  · rintro ⟨symbol, _, listed⟩
    exact ⟨symbol, listed⟩
  · rintro ⟨symbol, listed⟩
    refine ⟨symbol, ?_, listed⟩
    have path : entry.1 ∈ (placesOf symbol pattern.places).tail := by
      rw [← map_fst_freshPlaces symbol (fresh.count symbol) (placesOf symbol pattern.places).tail]
      exact List.mem_map_of_mem listed
    rw [mem_boundSymbols, ← map_fst_places]
    exact List.mem_map_of_mem (mem_placesOf.mp (List.mem_of_mem_tail path))

theorem path_of_mem_symbolRenames {symbol : Symbol} {entry : PatternPath × Symbol}
    (listed : entry ∈ symbolRenames pattern.places fresh symbol) :
    entry.1 ∈ (placesOf symbol pattern.places).tail := by
  have image := List.mem_map_of_mem (f := Prod.fst) listed
  rwa [symbolRenames, map_fst_freshPlaces] at image

/-- The planned name of a place is found. -/
theorem rename?_eq_some {entry : PatternPath × Symbol}
    (listed : entry ∈ (pattern.checkPlan fresh).1.renames) :
    (pattern.checkPlan fresh).1.rename? entry.1 = some entry.2 := by
  unfold CheckPlan.rename?
  cases found : (pattern.checkPlan fresh).1.renames.find? fun planned => planned.1 = entry.1 with
  | none =>
    have absent := List.find?_eq_none.mp found entry listed
    exact absurd (decide_eq_true rfl) absent
  | some other =>
    have same := List.find?_some found
    simp only [decide_eq_true_eq] at same
    obtain ⟨left, leftListed⟩ := mem_renames.mp (List.mem_of_find?_eq_some found)
    obtain ⟨right, rightListed⟩ := mem_renames.mp listed
    have leftPath := path_of_mem_symbolRenames leftListed
    have rightPath := path_of_mem_symbolRenames rightListed
    have symbols : left = right := by
      refine symbol_eq_of_places (mem_placesOf.mp (List.mem_of_mem_tail leftPath)) ?_
      rw [same]
      exact mem_placesOf.mp (List.mem_of_mem_tail rightPath)
    subst symbols
    have distinct : ((symbolRenames pattern.places fresh left).map (·.1)).Nodup := by
      rw [symbolRenames, map_fst_freshPlaces]
      exact (nodup_placesOf pattern left).sublist (List.tail_sublist _)
    rw [eq_of_nodup_map distinct leftListed rightListed same]
    rfl

/-- The name that an occurrence has in the pattern with checks. -/
def nameAt (plan : CheckPlan) (path : PatternPath) (symbol : Symbol) : Symbol :=
  (plan.rename? path).getD symbol

/-- An occurrence keeps its symbol if it is the first, and else has a planned name. -/
theorem nameAt_cases (fresh : FreshNames) {symbol : Symbol} {path : PatternPath}
    (listed : (symbol, path) ∈ pattern.places) :
    ((placesOf symbol pattern.places).head? = some path ∧
      nameAt (pattern.checkPlan fresh).1 path symbol = symbol) ∨
    (path, nameAt (pattern.checkPlan fresh).1 path symbol) ∈
      symbolRenames pattern.places fresh symbol := by
  have place := mem_placesOf.mpr listed
  cases places : placesOf symbol pattern.places with
  | nil =>
    rw [places] at place
    cases place
  | cons first later =>
    rw [places] at place
    have distinct := nodup_placesOf pattern symbol
    rw [places, List.nodup_cons] at distinct
    rcases List.mem_cons.mp place with rfl | there
    · refine .inl ⟨rfl, ?_⟩
      unfold nameAt
      cases renamed : (pattern.checkPlan fresh).1.rename? path with
      | none => rfl
      | some name =>
        unfold CheckPlan.rename? at renamed
        obtain ⟨entry, found, _⟩ := Option.map_eq_some_iff.mp renamed
        have same := List.find?_some found
        simp only [decide_eq_true_eq] at same
        obtain ⟨other, inside⟩ := mem_renames.mp (List.mem_of_find?_eq_some found)
        have tail := path_of_mem_symbolRenames inside
        rw [same] at tail
        have symbols : other = symbol :=
          symbol_eq_of_places (mem_placesOf.mp (List.mem_of_mem_tail tail)) listed
        rw [symbols, places] at tail
        exact absurd tail distinct.1
    · refine .inr ?_
      have image : path ∈ (symbolRenames pattern.places fresh symbol).map (·.1) := by
        rw [symbolRenames, map_fst_freshPlaces, places]
        exact there
      obtain ⟨entry, inside, same⟩ := List.mem_map.mp image
      have found := rename?_eq_some (mem_renames.mpr ⟨symbol, inside⟩)
      rw [same] at found
      rw [nameAt, found, ← same]
      exact inside

/-- Where no symbol carries the mark of a generated name, occurrences get distinct names. -/
theorem nameAt_inj (plain : ∀ symbol ∈ pattern.occurrences, Symbol.isSynthetic symbol = false)
    {first second : Symbol × PatternPath} (left : first ∈ pattern.places)
    (right : second ∈ pattern.places)
    (same : nameAt (pattern.checkPlan fresh).1 first.2 first.1 =
      nameAt (pattern.checkPlan fresh).1 second.2 second.1) : first = second := by
  have marked : ∀ {symbol : Symbol} {entry : PatternPath × Symbol},
      entry ∈ symbolRenames pattern.places fresh symbol → Symbol.isSynthetic entry.2 = true := by
    intro symbol entry listed
    obtain ⟨number, _, name⟩ := exists_of_mem_freshPlaces listed
    rw [name]
    exact Symbol.isSynthetic_numbered _ _
  have unmarked : ∀ {place : Symbol × PatternPath}, place ∈ pattern.places →
      Symbol.isSynthetic place.1 = false := by
    intro place listed
    refine plain place.1 ?_
    rw [← map_fst_places]
    exact List.mem_map_of_mem listed
  refine eq_of_nodup_map (nodup_places pattern) left right ?_
  rcases nameAt_cases fresh left with ⟨firstHead, keeps⟩ | renamed
  · rcases nameAt_cases fresh right with ⟨secondHead, keepsToo⟩ | renamedToo
    · rw [keeps, keepsToo] at same
      rw [same] at firstHead
      exact Option.some.inj (firstHead.symm.trans secondHead)
    · have mark := marked renamedToo
      rw [← same, keeps, unmarked left] at mark
      cases mark
  · rcases nameAt_cases fresh right with ⟨_, keepsToo⟩ | renamedToo
    · have mark := marked renamed
      rw [same, keepsToo, unmarked right] at mark
      cases mark
    · obtain ⟨_, _, name⟩ := exists_of_mem_freshPlaces renamed
      obtain ⟨_, _, other⟩ := exists_of_mem_freshPlaces renamedToo
      have bases : first.1 = second.1 := (Symbol.numbered_inj (name.symm.trans (same.trans other))).1
      rw [bases] at renamed same
      rw [same] at renamed
      have entries := eq_of_nodup_map (nodup_snd_freshPlaces _ _ _) renamed renamedToo rfl
      exact congrArg Prod.fst entries

end Plan

theorem occurrencesAll_checks (checks : List PlacedCheck) (items : List Pattern) :
    occurrencesAll ((checks.map fun placed => .check placed.test) ++ items) =
      occurrencesAll items := by
  induction checks with
  | nil => rfl
  | cons placed rest ih => exact ih

theorem rebuild_literal (plan : CheckPlan) (path : PatternPath) (value : Atom) :
    (Pattern.literal value).rebuild plan path = .literal value := by
  simp only [rebuild]
  split <;> rfl

theorem rebuild_nonTerminal (plan : CheckPlan) (path : PatternPath) (stem symbol : Symbol) :
    (Pattern.nonTerminal stem symbol).rebuild plan path =
      .nonTerminal stem (nameAt plan path symbol) := by
  simp only [rebuild, nameAt]
  split <;> simp_all [withSymbol]

theorem rebuild_builtIn (plan : CheckPlan) (path : PatternPath) (kind : BuiltIn)
    (symbol : Symbol) :
    (Pattern.builtIn kind symbol).rebuild plan path = .builtIn kind (nameAt plan path symbol) := by
  simp only [rebuild, nameAt]
  split <;> simp_all [withSymbol]

mutual

/-- The pattern with checks has the occurrences of the pattern under their planned names. -/
theorem occurrences_rebuild (plan : CheckPlan) : (path : PatternPath) → (pattern : Pattern) →
    (pattern.rebuild plan path).occurrences =
      pattern.places.map fun found => nameAt plan (path ++ found.2) found.1
  | path, .sequence items => occurrencesAll_rebuildFrom plan path 0 items
  | path, .repeated inner mode => by
    rw [rebuild, occurrences, places, List.map_map, occurrences_rebuild plan _ inner]
    exact List.map_congr_left fun found _ => by simp
  | path, .inHole context contents checks => by
    rw [rebuild, occurrences, places, List.map_append, List.map_map, List.map_map,
      occurrences_rebuild plan _ context, occurrences_rebuild plan _ contents]
    congr 1
    · exact List.map_congr_left fun found _ => by simp
    · exact List.map_congr_left fun found _ => by simp
  | path, .literal value => by
    rw [rebuild_literal]
    rfl
  | path, .check test => by
    have leaf : ((Pattern.check test).rebuild plan path) = .check test := by
      simp only [rebuild]
      split <;> rfl
    rw [leaf]
    rfl
  | path, .unresolved symbol => by
    have leaf : ((Pattern.unresolved symbol).rebuild plan path) = .unresolved symbol := by
      simp only [rebuild]
      split <;> rfl
    rw [leaf]
    rfl
  | path, .nonTerminal stem symbol => by
    rw [rebuild_nonTerminal]
    simp [occurrences, places, bindingSymbol?]
  | path, .builtIn kind symbol => by
    rw [rebuild_builtIn]
    cases bindable : kind.isBindable <;> simp [occurrences, places, bindingSymbol?, bindable]

theorem occurrencesAll_rebuildFrom (plan : CheckPlan) : (path : PatternPath) → (index : Nat) →
    (items : List Pattern) → occurrencesAll (rebuildFrom plan path index items) =
      (placesFrom index items).map fun found => nameAt plan (path ++ found.2) found.1
  | _, _, [] => rfl
  | path, index, item :: rest => by
    rw [rebuildFrom, List.cons_append, occurrencesAll, occurrencesAll_checks, placesFrom,
      List.map_append, List.map_map, occurrences_rebuild plan _ item,
      occurrencesAll_rebuildFrom plan path (index + 1) rest]
    congr 1
    exact List.map_congr_left fun found _ => by simp

end

theorem nodup_map_of_inj {α β : Type} {items : List α} {image : α → β} (distinct : items.Nodup)
    (inj : ∀ first ∈ items, ∀ second ∈ items, image first = image second → first = second) :
    (items.map image).Nodup := by
  induction items with
  | nil => exact List.nodup_nil
  | cons head rest ih =>
    rw [List.nodup_cons] at distinct
    rw [List.map_cons, List.nodup_cons]
    refine ⟨?_, ih distinct.2 fun first left second right =>
      inj first (List.mem_cons_of_mem _ left) second (List.mem_cons_of_mem _ right)⟩
    intro listed
    obtain ⟨other, there, same⟩ := List.mem_map.mp listed
    have equal := inj other (List.mem_cons_of_mem _ there) head List.mem_cons_self same
    exact distinct.1 (equal ▸ there)

/-- Where no symbol carries the mark of a generated name, the pattern with checks binds every
name once. -/
theorem nodup_insertChecks {pattern : Pattern} (fresh : FreshNames)
    (plain : ∀ symbol ∈ pattern.occurrences, Symbol.isSynthetic symbol = false) :
    (pattern.insertChecks fresh).1.pattern.occurrences.Nodup := by
  change (pattern.rebuild (pattern.checkPlan fresh).1 []).occurrences.Nodup
  rw [occurrences_rebuild]
  have distinct : pattern.places.Nodup :=
    List.Pairwise.of_map _ (fun _ _ apart same => apart (congrArg Prod.snd same))
      (nodup_places pattern)
  exact nodup_map_of_inj distinct fun first left second right same =>
    nameAt_inj plain left right same

/-- Names of a list are fresh from one state of the counters to another, and distinct. -/
structure Numbers (before after : FreshNames) (names : List Symbol) : Prop where
  grows : ∀ base, before.count base ≤ after.count base
  numbered : ∀ name ∈ names, ∃ base number, name = Symbol.numbered base number ∧
    before.count base ≤ number ∧ number < after.count base
  distinct : names.Nodup

theorem Numbers.nil (fresh : FreshNames) : Numbers fresh fresh [] :=
  ⟨fun _ => Nat.le_refl _, nofun, List.nodup_nil⟩

theorem numbers_next (fresh : FreshNames) (base : Symbol) :
    Numbers fresh (fresh.next base).2 [(fresh.next base).1] where
  grows := by
    intro other
    rw [count_next]
    split
    · rename_i same
      rw [same]
      omega
    · omega
  numbered := by
    intro name listed
    refine ⟨base, fresh.count base, List.mem_singleton.mp listed, Nat.le_refl _, ?_⟩
    rw [count_next, if_pos rfl]
    omega
  distinct := by simp

theorem Numbers.append {before middle after : FreshNames} {first second : List Symbol}
    (left : Numbers before middle first) (right : Numbers middle after second) :
    Numbers before after (first ++ second) where
  grows := fun base => Nat.le_trans (left.grows base) (right.grows base)
  numbered := by
    intro name listed
    rcases List.mem_append.mp listed with here | there
    · obtain ⟨base, number, same, low, high⟩ := left.numbered name here
      exact ⟨base, number, same, low, Nat.lt_of_lt_of_le high (right.grows base)⟩
    · obtain ⟨base, number, same, low, high⟩ := right.numbered name there
      exact ⟨base, number, same, Nat.le_trans (left.grows base) low, high⟩
  distinct := by
    rw [List.nodup_append]
    refine ⟨left.distinct, right.distinct, ?_⟩
    rintro name here other there rfl
    obtain ⟨base, number, same, _, high⟩ := left.numbered name here
    obtain ⟨base', number', equal, low, _⟩ := right.numbered name there
    obtain ⟨rfl, rfl⟩ := Symbol.numbered_inj (same.symm.trans equal)
    omega

mutual

/-- An anonymous pattern binds fresh names, each once. -/
theorem numbers_anonymize : (pattern : Pattern) → (fresh : FreshNames) →
    Numbers fresh (pattern.anonymize fresh).2 (pattern.anonymize fresh).1.occurrences
  | .literal _, fresh | .check _, fresh | .unresolved _, fresh => .nil fresh
  | .nonTerminal stem symbol, fresh => numbers_next fresh symbol
  | .builtIn kind symbol, fresh => by
    rw [anonymize]
    split
    · rename_i bindable
      simp only [occurrences, bindingSymbol?, bindable, if_true]
      exact numbers_next fresh symbol
    · rename_i silent
      simp only [occurrences, bindingSymbol?, silent]
      exact .nil fresh
  | .sequence items, fresh => numbers_anonymizeAll items fresh
  | .repeated inner mode, fresh => numbers_anonymize inner fresh
  | .inHole context contents checks, fresh =>
    (numbers_anonymize context fresh).append (numbers_anonymize contents _)

theorem numbers_anonymizeAll : (items : List Pattern) → (fresh : FreshNames) →
    Numbers fresh (anonymizeAll items fresh).2 (occurrencesAll (anonymizeAll items fresh).1)
  | [], fresh => .nil fresh
  | item :: rest, fresh => (numbers_anonymize item fresh).append (numbers_anonymizeAll rest _)

end

mutual

/-- A pattern that binds every symbol once has depths. -/
theorem exists_depthsFrom : (pattern : Pattern) → (depth : Nat) → (depths : Depths) →
    pattern.occurrences.Nodup → (∀ symbol ∈ pattern.occurrences, depths.find? symbol = none) →
    ∃ found, pattern.depthsFrom depth depths = .ok found ∧
      ∀ symbol, symbol ∉ pattern.occurrences → found.find? symbol = depths.find? symbol
  | .literal _, _, depths, _, _ | .check _, _, depths, _, _ | .unresolved _, _, depths, _, _ =>
    ⟨depths, rfl, fun _ _ => rfl⟩
  | .nonTerminal stem symbol, depth, depths, _, unbound => by
    refine ⟨depths.insert symbol depth, ?_, ?_⟩
    · rw [depthsFrom, noteDepth, unbound symbol List.mem_cons_self]
    · intro other apart
      exact Table.find?_insert_ne _ _ fun same => apart (same ▸ List.mem_cons_self)
  | .builtIn kind symbol, depth, depths, _, unbound => by
    rw [depthsFrom]
    split
    · rename_i bindable
      have listed : (builtIn kind symbol).occurrences = [symbol] := by
        simp [occurrences, bindingSymbol?, bindable]
      rw [listed] at unbound ⊢
      refine ⟨depths.insert symbol depth, ?_, ?_⟩
      · rw [noteDepth, unbound symbol List.mem_cons_self]
      · intro other apart
        exact Table.find?_insert_ne _ _ fun same => apart (same ▸ List.mem_cons_self)
    · exact ⟨depths, rfl, fun _ _ => rfl⟩
  | .sequence items, depth, depths, distinct, unbound =>
    exists_depthsFromAll items depth depths distinct unbound
  | .repeated inner _, depth, depths, distinct, unbound =>
    exists_depthsFrom inner (depth + 1) depths distinct unbound
  | .inHole context contents _, depth, depths, distinct, unbound => by
    rw [occurrences, List.nodup_append] at distinct
    rw [occurrences] at unbound
    obtain ⟨middle, first, kept⟩ := exists_depthsFrom context depth depths distinct.1
      fun symbol listed => unbound symbol (List.mem_append_left _ listed)
    obtain ⟨found, second, same⟩ := exists_depthsFrom contents depth middle distinct.2.1 (by
      intro symbol listed
      rw [kept symbol fun there => distinct.2.2 symbol there symbol listed rfl]
      exact unbound symbol (List.mem_append_right _ listed))
    refine ⟨found, ?_, ?_⟩
    · rw [depthsFrom]
      exact Except.bind_eq_ok.mpr ⟨middle, first, second⟩
    · intro symbol apart
      rw [occurrences, List.mem_append, not_or] at apart
      rw [same symbol apart.2, kept symbol apart.1]

theorem exists_depthsFromAll : (items : List Pattern) → (depth : Nat) → (depths : Depths) →
    (occurrencesAll items).Nodup → (∀ symbol ∈ occurrencesAll items, depths.find? symbol = none) →
    ∃ found, depthsFromAll depth items depths = .ok found ∧
      ∀ symbol, symbol ∉ occurrencesAll items → found.find? symbol = depths.find? symbol
  | [], _, depths, _, _ => ⟨depths, rfl, fun _ _ => rfl⟩
  | item :: rest, depth, depths, distinct, unbound => by
    rw [occurrencesAll, List.nodup_append] at distinct
    rw [occurrencesAll] at unbound
    obtain ⟨middle, first, kept⟩ := exists_depthsFrom item depth depths distinct.1
      fun symbol listed => unbound symbol (List.mem_append_left _ listed)
    obtain ⟨found, second, same⟩ := exists_depthsFromAll rest depth middle distinct.2.1 (by
      intro symbol listed
      rw [kept symbol fun there => distinct.2.2 symbol there symbol listed rfl]
      exact unbound symbol (List.mem_append_right _ listed))
    refine ⟨found, ?_, ?_⟩
    · rw [depthsFromAll]
      exact Except.bind_eq_ok.mpr ⟨middle, first, second⟩
    · intro symbol apart
      rw [occurrencesAll, List.mem_append, not_or] at apart
      rw [same symbol apart.2, kept symbol apart.1]

end

/-- A pattern that binds every symbol once passes the check of depths. -/
theorem exists_depths {pattern : Pattern} (distinct : pattern.occurrences.Nodup) :
    ∃ depths, pattern.depths = .ok depths := by
  obtain ⟨depths, found, _⟩ := exists_depthsFrom pattern 0 .empty distinct fun _ _ => rfl
  exact ⟨depths, found⟩

end Pattern

end Reduct
