import Reduct.Proofs.TemplateMeaning
import Reduct.Proofs.TopMatches

/-!
# Depths of bound symbols

The depths of an accepted pattern are the numbers of repetitions around its occurrences. Checks do
not change them: an occurrence may get a fresh name, but it stays where it is. A match gives every
bound symbol a sequence that is nested as deep.
-/

namespace Reduct

namespace Pattern

mutual

/-- The occurrences of bound symbols, each with the number of repetitions around it. -/
def nestings : Pattern → List (Symbol × Nat)
  | .sequence items => nestingsAll items
  | .repeated inner _ => inner.nestings.map fun found => (found.1, found.2 + 1)
  | .inHole context contents _ => context.nestings ++ contents.nestings
  | leaf => leaf.bindingSymbol?.toList.map fun symbol => (symbol, 0)

/-- The occurrences of bound symbols of a list of patterns, with the repetitions around them. -/
def nestingsAll : List Pattern → List (Symbol × Nat)
  | [] => []
  | item :: rest => item.nestings ++ nestingsAll rest

end

/-- The number of repetitions on the way to a place. -/
def layers (path : PatternPath) : Nat := path.count .inner

@[simp] theorem layers_item (index : Nat) (path : PatternPath) :
    layers (.item index :: path) = layers path := by
  simp [layers]

@[simp] theorem layers_context (path : PatternPath) : layers (.context :: path) = layers path := by
  simp [layers]

@[simp] theorem layers_contents (path : PatternPath) : layers (.contents :: path) = layers path := by
  simp [layers]

@[simp] theorem layers_inner (path : PatternPath) : layers (.inner :: path) = layers path + 1 := by
  simp [layers]

theorem nestingsAll_checks (checks : List PlacedCheck) (items : List Pattern) :
    nestingsAll ((checks.map fun placed => .check placed.test) ++ items) = nestingsAll items := by
  induction checks with
  | nil => rfl
  | cons placed rest ih => exact ih

mutual

/-- The pattern with checks has the occurrences of the pattern at the same depths, under their
planned names. -/
theorem nestings_rebuild (plan : CheckPlan) : (path : PatternPath) → (pattern : Pattern) →
    (pattern.rebuild plan path).nestings =
      pattern.places.map fun found => (nameAt plan (path ++ found.2) found.1, layers found.2)
  | path, .sequence items => nestingsAll_rebuildFrom plan path 0 items
  | path, .repeated inner mode => by
    rw [rebuild, nestings, places, nestings_rebuild plan _ inner, List.map_map, List.map_map]
    exact List.map_congr_left fun found _ => by simp
  | path, .inHole context contents checks => by
    rw [rebuild, nestings, places, List.map_append, List.map_map, List.map_map,
      nestings_rebuild plan _ context, nestings_rebuild plan _ contents]
    congr 1
    · exact List.map_congr_left fun found _ => by simp
    · exact List.map_congr_left fun found _ => by simp
  | path, .literal value => by
    rw [rebuild_literal]
    rfl
  | path, .check test => by
    have leaf : ((Pattern.check test).rebuild plan path) = .check test := by
      simp only [rebuild]
      split <;> rfl
    rw [leaf]
    rfl
  | path, .unresolved symbol => by
    have leaf : ((Pattern.unresolved symbol).rebuild plan path) = .unresolved symbol := by
      simp only [rebuild]
      split <;> rfl
    rw [leaf]
    rfl
  | path, .nonTerminal stem symbol => by
    rw [rebuild_nonTerminal]
    simp [nestings, places, bindingSymbol?, layers]
  | path, .builtIn kind symbol => by
    rw [rebuild_builtIn]
    cases bindable : kind.isBindable <;> simp [nestings, places, bindingSymbol?, bindable, layers]

theorem nestingsAll_rebuildFrom (plan : CheckPlan) : (path : PatternPath) → (index : Nat) →
    (items : List Pattern) → nestingsAll (rebuildFrom plan path index items) =
      (placesFrom index items).map fun found =>
        (nameAt plan (path ++ found.2) found.1, layers found.2)
  | _, _, [] => rfl
  | path, index, item :: rest => by
    rw [rebuildFrom, List.cons_append, nestingsAll, nestingsAll_checks, placesFrom,
      List.map_append, List.map_map, nestings_rebuild plan _ item,
      nestingsAll_rebuildFrom plan path (index + 1) rest]
    congr 1
    exact List.map_congr_left fun found _ => by simp

end

mutual

/-- The depth of an occurrence is read off its place. -/
theorem nestings_eq_places : (pattern : Pattern) →
    pattern.nestings = pattern.places.map fun found => (found.1, layers found.2)
  | .sequence items => nestingsAll_eq_placesFrom 0 items
  | .repeated inner _ => by
    rw [nestings, places, nestings_eq_places inner, List.map_map, List.map_map]
    exact List.map_congr_left fun found _ => by simp
  | .inHole context contents _ => by
    rw [nestings, places, List.map_append, List.map_map, List.map_map,
      nestings_eq_places context, nestings_eq_places contents]
    simp [Function.comp_def]
  | .literal _ | .check _ | .unresolved _ => rfl
  | .nonTerminal stem symbol => rfl
  | .builtIn kind symbol => by
    cases bindable : kind.isBindable <;> simp [nestings, places, bindingSymbol?, bindable, layers]

theorem nestingsAll_eq_placesFrom (index : Nat) : (items : List Pattern) →
    nestingsAll items = (placesFrom index items).map fun found => (found.1, layers found.2)
  | [] => rfl
  | item :: rest => by
    rw [nestingsAll, placesFrom, List.map_append, List.map_map, nestings_eq_places item,
      nestingsAll_eq_placesFrom (index + 1) rest]
    simp [Function.comp_def]

end

theorem map_fst_nestings (pattern : Pattern) :
    pattern.nestings.map (·.1) = pattern.occurrences := by
  rw [nestings_eq_places, List.map_map, ← map_fst_places]
  rfl

theorem mem_occurrences_iff {pattern : Pattern} {symbol : Symbol} :
    symbol ∈ pattern.occurrences ↔ ∃ depth, (symbol, depth) ∈ pattern.nestings := by
  rw [← map_fst_nestings, List.mem_map]
  constructor
  · rintro ⟨⟨name, depth⟩, listed, rfl⟩
    exact ⟨depth, listed⟩
  · rintro ⟨depth, listed⟩
    exact ⟨(symbol, depth), listed, rfl⟩

/-- A table of depths has grown by some occurrences, and by nothing else. -/
structure Noted (before after : Depths) (found : List (Symbol × Nat)) : Prop where
  kept : ∀ symbol depth, before.find? symbol = some depth → after.find? symbol = some depth
  noted : ∀ symbol depth, (symbol, depth) ∈ found → after.find? symbol = some depth
  only : ∀ symbol depth, after.find? symbol = some depth →
    before.find? symbol = some depth ∨ (symbol, depth) ∈ found

theorem Noted.nil (depths : Depths) : Noted depths depths [] :=
  ⟨fun _ _ found => found, nofun, fun _ _ found => .inl found⟩

theorem Noted.append {before middle after : Depths} {first second : List (Symbol × Nat)}
    (one : Noted before middle first) (two : Noted middle after second) :
    Noted before after (first ++ second) where
  kept symbol depth found := two.kept symbol depth (one.kept symbol depth found)
  noted symbol depth listed := by
    rcases List.mem_append.mp listed with left | right
    · exact two.kept symbol depth (one.noted symbol depth left)
    · exact two.noted symbol depth right
  only symbol depth found := by
    rcases two.only symbol depth found with earlier | right
    · rcases one.only symbol depth earlier with before | left
      · exact .inl before
      · exact .inr (List.mem_append_left _ left)
    · exact .inr (List.mem_append_right _ right)

theorem noted_noteDepth {symbol : Symbol} {depth : Nat} {before after : Depths}
    (accepted : noteDepth symbol depth before = .ok after) :
    Noted before after [(symbol, depth)] := by
  unfold noteDepth at accepted
  split at accepted
  · rename_i unknown
    cases accepted
    refine ⟨fun other bound found => ?_, fun other bound listed => ?_, fun other bound found => ?_⟩
    · rw [Table.find?_insert_ne _ _ fun same => ?_]
      · exact found
      · rw [← same, unknown] at found
        cases found
    · cases List.mem_singleton.mp listed
      exact Table.find?_insert_self _ _ _
    · by_cases same : symbol = other
      · subst same
        rw [Table.find?_insert_self] at found
        cases found
        exact .inr List.mem_cons_self
      · rw [Table.find?_insert_ne _ _ same] at found
        exact .inl found
  · rename_i first known
    split at accepted
    · rename_i same
      cases accepted
      subst same
      refine ⟨fun _ _ found => found, fun other bound listed => ?_, fun _ _ found => .inl found⟩
      cases List.mem_singleton.mp listed
      exact known
    · cases accepted

mutual

/-- Noting the depths of a pattern notes its occurrences. -/
theorem noted_depthsFrom : (pattern : Pattern) → {depth : Nat} → {before after : Depths} →
    pattern.depthsFrom depth before = .ok after →
    Noted before after (pattern.nestings.map fun found => (found.1, depth + found.2))
  | .sequence items, depth, before, after, accepted => noted_depthsFromAll items accepted
  | .repeated inner _, depth, before, after, accepted => by
    have deeper := noted_depthsFrom inner accepted
    rw [nestings, List.map_map]
    refine cast (congrArg _ (List.map_congr_left fun found _ => ?_)) deeper
    rw [Function.comp, Nat.add_assoc, Nat.add_comm 1]
  | .inHole context contents _, depth, before, after, accepted => by
    obtain ⟨middle, first, second⟩ := Except.bind_eq_ok.mp accepted
    rw [nestings, List.map_append]
    exact (noted_depthsFrom context first).append (noted_depthsFrom contents second)
  | .nonTerminal stem symbol, depth, before, after, accepted => noted_noteDepth accepted
  | .builtIn kind symbol, depth, before, after, accepted => by
    rw [depthsFrom] at accepted
    cases bindable : kind.isBindable with
    | true =>
      rw [bindable, if_pos rfl] at accepted
      simpa [nestings, bindingSymbol?, bindable] using noted_noteDepth accepted
    | false =>
      rw [bindable, if_neg nofun] at accepted
      cases accepted
      simpa [nestings, bindingSymbol?, bindable] using Noted.nil before
  | .literal _, depth, before, after, accepted
  | .check _, depth, before, after, accepted
  | .unresolved _, depth, before, after, accepted => by
    cases accepted
    exact .nil before

theorem noted_depthsFromAll : (items : List Pattern) → {depth : Nat} → {before after : Depths} →
    depthsFromAll depth items before = .ok after →
    Noted before after ((nestingsAll items).map fun found => (found.1, depth + found.2))
  | [], depth, before, after, accepted => by
    cases accepted
    exact .nil before
  | item :: rest, depth, before, after, accepted => by
    obtain ⟨middle, first, second⟩ := Except.bind_eq_ok.mp accepted
    rw [nestingsAll, List.map_append]
    exact (noted_depthsFrom item first).append (noted_depthsFromAll rest second)

end

/-- The depths of a pattern are those of its occurrences. -/
theorem find?_depths {pattern : Pattern} {depths : Depths} (accepted : pattern.depths = .ok depths)
    {symbol : Symbol} {depth : Nat} :
    depths.find? symbol = some depth ↔ (symbol, depth) ∈ pattern.nestings := by
  have noted := noted_depthsFrom pattern accepted
  simp only [Nat.zero_add, List.map_id'] at noted
  constructor
  · intro found
    rcases noted.only symbol depth found with nowhere | listed
    · cases nowhere
    · exact listed
  · exact noted.noted symbol depth

/-- Checks leave the first occurrence of every symbol where it is, so no depth is lost. -/
theorem mem_nestings_insertChecks_of_mem {pattern : Pattern} {depths : Depths} (fresh : FreshNames)
    (accepted : pattern.depths = .ok depths) {symbol : Symbol} {depth : Nat}
    (listed : (symbol, depth) ∈ pattern.nestings) :
    (symbol, depth) ∈ (pattern.insertChecks fresh).1.pattern.nestings := by
  change (symbol, depth) ∈ (pattern.rebuild (pattern.checkPlan fresh).1 []).nestings
  rw [nestings_rebuild, List.mem_map]
  have place : symbol ∈ pattern.places.map (·.1) := by
    rw [map_fst_places]
    exact mem_occurrences_iff.mpr ⟨depth, listed⟩
  obtain ⟨⟨other, path⟩, there, rfl⟩ := List.mem_map.mp place
  cases places : placesOf other pattern.places with
  | nil =>
    have inside := mem_placesOf.mpr there
    rw [places] at inside
    cases inside
  | cons first later =>
    have inside : (other, first) ∈ pattern.places :=
      mem_placesOf.mp (places ▸ List.mem_cons_self)
    have known : (other, layers first) ∈ pattern.nestings := by
      rw [nestings_eq_places]
      exact List.mem_map_of_mem inside
    have one := (find?_depths accepted).mpr known
    have two := (find?_depths accepted).mpr listed
    rw [one] at two
    cases two
    exact ⟨_, inside, by rw [List.nil_append, nameAt_first places]⟩

/-- Checks leave the depths of the symbols that carry no mark as they are. -/
theorem mem_nestings_insertChecks {pattern : Pattern} {depths : Depths} (fresh : FreshNames)
    (accepted : pattern.depths = .ok depths) {symbol : Symbol}
    (plain : Symbol.isSynthetic symbol = false) {depth : Nat} :
    (symbol, depth) ∈ (pattern.insertChecks fresh).1.pattern.nestings ↔
      (symbol, depth) ∈ pattern.nestings := by
  refine ⟨fun listed => ?_, mem_nestings_insertChecks_of_mem fresh accepted⟩
  change (symbol, depth) ∈ (pattern.rebuild (pattern.checkPlan fresh).1 []).nestings at listed
  rw [nestings_rebuild, List.mem_map] at listed
  obtain ⟨⟨base, path⟩, listed, same⟩ := listed
  rw [List.nil_append, Prod.mk.injEq] at same
  obtain ⟨named, rfl⟩ := same
  rcases nameAt_cases fresh listed with ⟨_, kept⟩ | renamed
  · rw [kept] at named
    rw [nestings_eq_places, ← named]
    exact List.mem_map_of_mem listed
  · obtain ⟨number, _, marked⟩ := exists_of_mem_freshPlaces renamed
    have name : symbol = Symbol.numbered base number := named.symm.trans marked
    rw [name, Symbol.isSynthetic_numbered] at plain
    cases plain

end Pattern

/-- Where assignments agree, their union has the terms of the second. -/
theorem Assignment.union_of_agrees {first second : Assignment} (agree : first.Agrees second)
    {symbol : Symbol} {term : Term} (found : second symbol = some term) :
    first.union second symbol = some term := by
  cases known : first symbol with
  | none => rw [union_eq_right known, found]
  | some other =>
    have same := agree symbol other term known found
    rw [union_eq_left known, same]

section Values

variable {reading : Reading}

mutual

/-- A match of a proper term gives every bound symbol a proper term that is nested as deep as the
symbol. -/
theorem Matches.nested {pattern : Pattern} {term : Term} {assignment : Assignment} :
    Matches reading pattern term assignment → term.Proper →
    ∀ symbol depth, (symbol, depth) ∈ pattern.nestings →
      ∃ value, assignment symbol = some value ∧ value.NestedTo depth ∧ value.Proper
  | .literal, _, symbol, depth, listed => by
    simp [Pattern.nestings, Pattern.bindingSymbol?] at listed
  | @Matches.nonTerminal _ stem name _ _, proper, symbol, depth, listed => by
    simp only [Pattern.nestings, Pattern.bindingSymbol?, Option.toList_some, List.map_cons,
      List.map_nil, List.mem_singleton, Prod.mk.injEq] at listed
    obtain ⟨rfl, rfl⟩ := listed
    exact ⟨term, if_pos rfl, trivial, proper⟩
  | @Matches.builtIn _ kind name _ _, proper, symbol, depth, listed => by
    cases bindable : kind.isBindable with
    | true =>
      simp only [Pattern.nestings, Pattern.bindingSymbol?, bindable, if_true, Option.toList_some,
        List.map_cons, List.map_nil, List.mem_singleton, Prod.mk.injEq] at listed
      obtain ⟨rfl, rfl⟩ := listed
      exact ⟨term, if_pos rfl, trivial, proper⟩
    | false => simp [Pattern.nestings, Pattern.bindingSymbol?, bindable] at listed
  | .sequence all _, proper, symbol, depth, listed =>
    MatchesAll.nested all proper symbol depth listed
  | .inHole around within decomposed agree _, proper, symbol, depth, listed => by
    obtain ⟨path, reached, cut⟩ := decomposed
    rcases List.mem_append.mp listed with left | right
    · obtain ⟨value, found, rest⟩ :=
        Matches.nested around (proper.replace .hole cut) symbol depth left
      exact ⟨value, Assignment.union_eq_left found, rest⟩
    · obtain ⟨value, found, rest⟩ :=
        Matches.nested within (proper.subterm reached) symbol depth right
      exact ⟨value, Assignment.union_of_agrees agree found, rest⟩

theorem MatchesAll.nested {items : List Pattern} {terms : List Term} {assignment : Assignment} :
    MatchesAll reading items terms assignment → (Term.sequence terms).Proper →
    ∀ symbol depth, (symbol, depth) ∈ Pattern.nestingsAll items →
      ∃ value, assignment symbol = some value ∧ value.NestedTo depth ∧ value.Proper
  | .nil, _, symbol, depth, listed => by cases listed
  | .check others, proper, symbol, depth, listed =>
    MatchesAll.nested others proper symbol depth listed
  | @MatchesAll.item _ head rest one terms first second _ here others agree, proper, symbol, depth,
      listed => by
    have later : (Term.sequence terms).Proper :=
      .sequence (Nat.le_of_succ_le proper.counted)
        fun term among => proper.of_mem (List.mem_cons_of_mem _ among)
    rcases List.mem_append.mp listed with left | right
    · obtain ⟨value, found, others⟩ :=
        Matches.nested here (proper.of_mem List.mem_cons_self) symbol depth left
      exact ⟨value, Assignment.union_eq_left found, others⟩
    · obtain ⟨value, found, nests⟩ := MatchesAll.nested others later symbol depth right
      exact ⟨value, Assignment.union_of_agrees agree found, nests⟩
  | @MatchesAll.repeated _ inner mode rest terms second rounds each others agree, proper, symbol,
      depth, listed => by
    have counted := proper.counted
    rw [List.length_append, List.length_map] at counted
    rcases List.mem_append.mp listed with left | right
    · obtain ⟨⟨name, level⟩, inside, same⟩ := List.mem_map.mp left
      cases same
      have bound : name ∈ inner.boundSymbols :=
        Pattern.mem_boundSymbols.mpr (Pattern.mem_occurrences_iff.mpr ⟨level, inside⟩)
      have values : ∀ value ∈ (rounds.map (·.2)).filterMap fun round => round name,
          value.NestedTo level ∧ value.Proper := by
        intro value among
        obtain ⟨assignment, there, found⟩ := List.mem_filterMap.mp among
        obtain ⟨round, known, rfl⟩ := List.mem_map.mp there
        have proper : round.1.Proper :=
          proper.of_mem (List.mem_append_left _ (List.mem_map_of_mem known))
        obtain ⟨again, same, nests⟩ :=
          Matches.nested (each round known) proper name level inside
        rw [found] at same
        cases same
        exact nests
      have short : ((rounds.map (·.2)).filterMap fun round => round name).length ≤ mostCount := by
        have fewer := List.length_filterMap_le (fun round : Assignment => round name)
          (rounds.map (·.2))
        rw [List.length_map] at fewer
        omega
      exact ⟨_, Assignment.union_eq_left (Assignment.collect_of_mem bound _),
        ⟨_, rfl, short, fun value among => (values value among).1⟩,
        .sequence short fun value among => (values value among).2⟩
    · have later : (Term.sequence terms).Proper :=
        .sequence (by omega) fun term among => proper.of_mem (List.mem_append_right _ among)
      obtain ⟨value, found, nests⟩ := MatchesAll.nested others later symbol depth right
      exact ⟨value, Assignment.union_of_agrees agree found, nests⟩

end

end Values

namespace Language

variable {definition : LanguageDefinition} {span : Span} {pattern resolved : Pattern}
  {prepared : Prepared} {language : Language}

/-- The depths of a prepared pattern are those of the pattern as it is written, for the symbols
that carry no mark. -/
theorem Prepares.find?_depths
    (prepares : Prepares definition span pattern resolved prepared language) {symbol : Symbol}
    (plain : Symbol.isSynthetic symbol = false) {depth : Nat} :
    prepared.depths.find? symbol = some depth ↔ (symbol, depth) ∈ resolved.nestings := by
  obtain ⟨fresh, inner, depths, known, _⟩ := prepares.exists_depths
  exact (Pattern.find?_depths known).trans (Pattern.mem_nestings_insertChecks fresh depths plain)

end Language

end Reduct
