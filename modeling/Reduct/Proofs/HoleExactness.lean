import Reduct.Proofs.Acceptance

/-!
# Exactness of hole ranges

The range of a rule spans the holes of every term that the rule derives, since every context that
is filled has exactly one hole. Both ends of the range are attained as long as every context can be
matched at all: the ranges look through a context to its contents, so a context that nothing
matches goes unnoticed.
-/

namespace Reduct

theorem HoleRange.sum_zero (range : HoleRange) : range.sum .zero = range := by
  obtain ⟨least, greatest⟩ := range
  cases least <;> cases greatest <;> rfl

namespace Pattern

mutual

/-- The contexts of all `in-hole` patterns inside a pattern. -/
def contexts : Pattern → List Pattern
  | .sequence items => contextsAll items
  | .repeated inner _ => inner.contexts
  | .inHole context contents _ => context :: (context.contexts ++ contents.contexts)
  | _ => []

/-- The contexts of all `in-hole` patterns inside items. -/
def contextsAll : List Pattern → List Pattern
  | [] => []
  | item :: rest => item.contexts ++ contextsAll rest

end

theorem mem_contextsAll {items : List Pattern} {item context : Pattern} (listed : item ∈ items)
    (inside : context ∈ item.contexts) : context ∈ contextsAll items := by
  induction items with
  | nil => cases listed
  | cons first rest ih =>
    rcases List.mem_cons.mp listed with rfl | later
    · exact List.mem_append_left _ inside
    · exact List.mem_append_right _ (ih later)

theorem exists_of_mem_contextsAll {items : List Pattern} {context : Pattern}
    (listed : context ∈ contextsAll items) : ∃ item ∈ items, context ∈ item.contexts := by
  induction items with
  | nil => cases listed
  | cons first rest ih =>
    rcases List.mem_append.mp listed with here | later
    · exact ⟨first, List.mem_cons_self, here⟩
    · obtain ⟨item, there, inside⟩ := ih later
      exact ⟨item, List.mem_cons_of_mem _ there, inside⟩

mutual

/-- The contexts inside a context of a pattern are contexts of the pattern. -/
theorem contexts_trans {context other : Pattern} : {pattern : Pattern} →
    context ∈ pattern.contexts → other ∈ context.contexts → other ∈ pattern.contexts
  | .literal _, listed, _ | .nonTerminal .., listed, _ | .builtIn .., listed, _
  | .check _, listed, _ | .unresolved _, listed, _ => nomatch listed
  | .sequence items, listed, inside => by
    rw [contexts] at listed ⊢
    exact contextsAll_trans listed inside
  | .repeated inner _, listed, inside => by
    rw [contexts] at listed ⊢
    exact contexts_trans listed inside
  | .inHole outer contents _, listed, inside => by
    rw [contexts] at listed ⊢
    rcases List.mem_cons.mp listed with rfl | deeper
    · exact List.mem_cons_of_mem _ (List.mem_append_left _ inside)
    · rcases List.mem_append.mp deeper with left | right
      · exact List.mem_cons_of_mem _ (List.mem_append_left _ (contexts_trans left inside))
      · exact List.mem_cons_of_mem _ (List.mem_append_right _ (contexts_trans right inside))

theorem contextsAll_trans {context other : Pattern} : {items : List Pattern} →
    context ∈ contextsAll items → other ∈ context.contexts → other ∈ contextsAll items
  | [], listed, _ => nomatch listed
  | first :: rest, listed, inside => by
    rw [contextsAll] at listed ⊢
    rcases List.mem_append.mp listed with here | later
    · exact List.mem_append_left _ (contexts_trans here inside)
    · exact List.mem_append_right _ (contextsAll_trans later inside)

end

mutual

/-- A skeleton keeps the contexts. -/
theorem contexts_skeleton : (pattern : Pattern) →
    pattern.skeleton.contexts = pattern.contexts.map skeleton
  | .literal _ | .nonTerminal .. | .builtIn .. | .check _ | .unresolved _ => rfl
  | .sequence items => contextsAll_skeletonAll items
  | .repeated inner _ => contexts_skeleton inner
  | .inHole context contents _ => by
    rw [skeleton, contexts, contexts, contexts_skeleton context, contexts_skeleton contents,
      List.map_cons, List.map_append]

theorem contextsAll_skeletonAll : (items : List Pattern) →
    contextsAll (skeletonAll items) = (contextsAll items).map skeleton
  | [] => rfl
  | item :: rest => by
    have others := contextsAll_skeletonAll rest
    by_cases test : item.isCheck = true
    · cases item with
      | check test => exact others
      | _ => cases test
    · rw [skeletonAll_cons (by simpa using test), contextsAll, contextsAll, others,
        contexts_skeleton item, List.map_append]

end

mutual

/-- A skeleton keeps the range of holes. -/
theorem holes_skeleton (table : HoleTable) : (pattern : Pattern) →
    pattern.skeleton.holes table = pattern.holes table
  | .literal _ | .nonTerminal .. | .check _ | .unresolved _ => rfl
  | .builtIn kind _ => by cases kind <;> rfl
  | .sequence items => holesFrom_skeletonAll table .zero items
  | .repeated inner _ => by rw [skeleton, holes, holes, holes_skeleton table inner]
  | .inHole _ contents _ => holes_skeleton table contents

theorem holesFrom_skeletonAll (table : HoleTable) (range : HoleRange) : (items : List Pattern) →
    holesFrom table range (skeletonAll items) = holesFrom table range items
  | [] => rfl
  | item :: rest => by
    by_cases test : item.isCheck = true
    · cases item with
      | check test =>
        rw [skeletonAll, holesFrom_skeletonAll table range rest]
        change _ = holesFrom table (range.sum .zero) rest
        rw [HoleRange.sum_zero]
      | _ => cases test
    · rw [skeletonAll_cons (by simpa using test), holesFrom, holesFrom, holes_skeleton table item]
      cases item.holes table with
      | none => rfl
      | some found => exact holesFrom_skeletonAll table (range.sum found) rest

end

theorem arePlaced_cons {item : Pattern} (fixed : item.isFixedWidth = true) (rest : List Pattern) :
    arePlaced (item :: rest) = (item.isPlaced && arePlaced rest) := by
  cases item <;> first | rfl | cases fixed

mutual

/-- A skeleton keeps whether repetitions stand in sequences. -/
theorem isPlaced_skeleton : (pattern : Pattern) → pattern.skeleton.isPlaced = pattern.isPlaced
  | .literal _ | .nonTerminal .. | .builtIn .. | .check _ | .unresolved _ | .repeated .. => rfl
  | .sequence items => arePlaced_skeletonAll items
  | .inHole context contents _ => by
    rw [skeleton, isPlaced, isPlaced, isPlaced_skeleton context, isPlaced_skeleton contents]

theorem arePlaced_skeletonAll : (items : List Pattern) →
    arePlaced (skeletonAll items) = arePlaced items
  | [] => rfl
  | .check _ :: rest => arePlaced_skeletonAll rest
  | .repeated inner _ :: rest => by
    rw [skeletonAll_cons rfl, skeleton, arePlaced, arePlaced, isPlaced_skeleton inner,
      arePlaced_skeletonAll rest]
  | .literal _ :: rest | .nonTerminal .. :: rest | .builtIn .. :: rest | .sequence _ :: rest
  | .inHole .. :: rest | .unresolved _ :: rest => by
    rw [skeletonAll_cons rfl, arePlaced_cons (by rw [isFixedWidth_skeleton]; rfl),
      arePlaced_cons rfl, isPlaced_skeleton, arePlaced_skeletonAll rest]

end

end Pattern

namespace Language

mutual

/-- Contexts pass exactly when each of them matches terms with one hole as far as the table
tells. -/
theorem checkContexts_eq_ok {table : HoleTable} : (pattern : Pattern) →
    (checkContexts table pattern = .ok () ↔
      ∀ context ∈ pattern.contexts, context.holes table = some .one)
  | .literal _ | .nonTerminal .. | .builtIn .. | .check _ | .unresolved _ =>
    ⟨fun _ => nofun, fun _ => rfl⟩
  | .sequence items => checkContextsAll_eq_ok items
  | .repeated inner _ => checkContexts_eq_ok inner
  | .inHole context contents _ => by
    have around : checkContexts table context = .ok () ↔ _ := checkContexts_eq_ok context
    have within : checkContexts table contents = .ok () ↔ _ := checkContexts_eq_ok contents
    rw [checkContexts, Pattern.contexts]
    split
    · rename_i single
      constructor
      · intro passed
        obtain ⟨_, first, second⟩ := Except.bind_eq_ok.mp passed
        intro other listed
        rcases List.mem_cons.mp listed with rfl | inside
        · exact single
        · rcases List.mem_append.mp inside with left | right
          · exact around.mp first other left
          · exact within.mp second other right
      · intro each
        have first := around.mpr fun other listed =>
          each other (List.mem_cons_of_mem _ (List.mem_append_left _ listed))
        have second := within.mpr fun other listed =>
          each other (List.mem_cons_of_mem _ (List.mem_append_right _ listed))
        exact Except.bind_eq_ok.mpr ⟨(), first, second⟩
    · rename_i other
      exact ⟨nofun, fun each => absurd (each context List.mem_cons_self) other⟩

theorem checkContextsAll_eq_ok {table : HoleTable} : (items : List Pattern) →
    (checkContextsAll table items = .ok () ↔
      ∀ context ∈ Pattern.contextsAll items, context.holes table = some .one)
  | [] => ⟨fun _ => nofun, fun _ => rfl⟩
  | item :: rest => by
    have here : checkContexts table item = .ok () ↔ _ := checkContexts_eq_ok item
    have later : checkContextsAll table rest = .ok () ↔ _ := checkContextsAll_eq_ok rest
    rw [checkContextsAll, Pattern.contextsAll]
    constructor
    · intro passed
      obtain ⟨_, first, second⟩ := Except.bind_eq_ok.mp passed
      intro other listed
      rcases List.mem_append.mp listed with left | right
      · exact here.mp first other left
      · exact later.mp second other right
    · intro each
      have first := here.mpr fun other listed => each other (List.mem_append_left _ listed)
      have second := later.mpr fun other listed => each other (List.mem_append_right _ listed)
      exact Except.bind_eq_ok.mpr ⟨(), first, second⟩

end

mutual

/-- A context that does not pass is the reason that is given. -/
theorem code_checkContexts {table : HoleTable} : (pattern : Pattern) → {fault : Fault} →
    checkContexts table pattern = .error fault → fault.cause.code = .contextHoles
  | .literal _, _, failed | .nonTerminal .., _, failed | .builtIn .., _, failed
  | .check _, _, failed | .unresolved _, _, failed => nomatch failed
  | .sequence items, _, failed => code_checkContextsAll items failed
  | .repeated inner _, _, failed => code_checkContexts inner failed
  | .inHole context contents _, fault, failed => by
    rw [checkContexts] at failed
    split at failed
    · rcases Except.bind_eq_error.mp failed with first | ⟨_, _, second⟩
      · exact code_checkContexts context first
      · exact code_checkContexts contents second
    · cases failed
      rfl

theorem code_checkContextsAll {table : HoleTable} : (items : List Pattern) → {fault : Fault} →
    checkContextsAll table items = .error fault → fault.cause.code = .contextHoles
  | [], _, failed => nomatch failed
  | item :: rest, fault, failed => by
    rw [checkContextsAll] at failed
    rcases Except.bind_eq_error.mp failed with first | ⟨_, _, second⟩
    · exact code_checkContexts item first
    · exact code_checkContextsAll rest second

end

end Language

/-- The terms that the rules of a grammar derive, where the literal variables are given. -/
def Grammar.reading (grammar : Grammar) (mentioned : SymbolSet) : Reading :=
  ⟨grammar.alternativesOf, mentioned⟩

/-- Every context of a list matches terms with one hole as far as the table tells. -/
def Single (table : HoleTable) (contexts : List Pattern) : Prop :=
  ∀ context ∈ contexts, context.holes table = some .one

theorem Single.mono {table : HoleTable} {fewer more : List Pattern} (single : Single table more)
    (subset : ∀ context ∈ fewer, context ∈ more) : Single table fewer :=
  fun context listed => single context (subset context listed)

/-- A grammar whose contexts were checked against its own table. -/
structure Grammar.Checked (grammar : Grammar) : Prop where
  absent : ∀ name, name ∉ grammar.order → grammar.alternativesOf name = []
  single : ∀ name, ∀ alternative ∈ grammar.alternativesOf name,
    Single grammar.holeTable alternative.contexts

/-- A number of rounds spans what repetitions may, if every round spans its range. -/
theorem HoleRange.spans_repeated {range : HoleRange} {terms : List Term}
    (each : ∀ term ∈ terms, range.Spans term.holes) : range.repeated.Spans (Term.holesAll terms) := by
  refine ⟨Nat.zero_le _, ?_⟩
  rw [rank_greatest_repeated]
  split
  · rename_i empty
    have none : Term.holesAll terms = 0 := by
      induction terms with
      | nil => rfl
      | cons first rest ih =>
        have here := (each first List.mem_cons_self).2
        have later := ih fun term listed => each term (List.mem_cons_of_mem _ listed)
        rw [Term.holesAll]
        omega
    omega
  · omega

section Soundness

variable {grammar : Grammar} {mentioned : SymbolSet}

mutual

/-- The range of a rule spans the holes of every term that it derives. -/
theorem Derives.spans (checked : grammar.Checked) {name : Symbol} {term : Term} :
    Derives (grammar.reading mentioned) name term →
    ∃ range, HoleTable.range grammar.holeTable name = some range ∧ range.Spans term.holes
  | @Derives.rule _ _ alternative _ listed fits => by
    obtain ⟨part, found, spans⟩ := Fits.spans checked fits (checked.single name _ listed)
    have known : name ∈ grammar.order := by
      apply Classical.byContradiction
      intro unknown
      have none : alternative ∈ grammar.alternativesOf name := listed
      rw [checked.absent name unknown] at none
      cases none
    rw [← Grammar.ruleHoles_holeTable known]
    have inside : part ∈ (grammar.alternativesOf name).filterMap (·.holes grammar.holeTable) :=
      List.mem_filterMap.mpr ⟨_, listed, found⟩
    cases hull : grammar.ruleHoles grammar.holeTable name with
    | none =>
      rw [Grammar.ruleHoles, Grammar.hullAll_eq_none] at hull
      rw [hull] at inside
      cases inside
    | some range => exact ⟨range, rfl, spans.within ((Grammar.hullAll_eq_some hull).1 part inside)⟩

/-- The range of a pattern whose contexts were checked spans the holes of every term that it
describes. -/
theorem Fits.spans (checked : grammar.Checked) {pattern : Pattern} {term : Term} :
    Fits (grammar.reading mentioned) pattern term →
    Single grammar.holeTable pattern.contexts →
    ∃ range, pattern.holes grammar.holeTable = some range ∧ range.Spans term.holes
  | .literal, _ => ⟨_, rfl, HoleRange.spans_zero⟩
  | .nonTerminal derived, _ => Derives.spans checked derived
  | @Fits.builtIn _ kind _ term passed, _ => by
    cases kind with
    | hole =>
      cases term with
      | hole => exact ⟨_, rfl, HoleRange.spans_one_iff.mpr rfl⟩
      | atom value => cases value <;> cases passed
      | sequence items => cases passed
    | _ =>
      cases term with
      | atom value => exact ⟨_, rfl, HoleRange.spans_zero⟩
      | hole => cases passed
      | sequence items => cases passed
  | .sequence all, single => by
    obtain ⟨range, found, spans⟩ := FitsAll.spans checked all single .zero 0 HoleRange.spans_zero
    rw [Nat.zero_add] at spans
    exact ⟨range, found, spans⟩
  | .inHole around within decomposed, single => by
    obtain ⟨outer, first, holed⟩ := Fits.spans checked around
      (single.mono fun other listed =>
        List.mem_cons_of_mem _ (List.mem_append_left _ listed))
    rw [single _ List.mem_cons_self] at first
    cases first
    have one := HoleRange.spans_one_iff.mp holed
    obtain ⟨inner, second, spans⟩ := Fits.spans checked within
      (single.mono fun other listed =>
        List.mem_cons_of_mem _ (List.mem_append_right _ listed))
    have count := decomposed.holes
    rw [one, Nat.add_comm 1] at count
    exact ⟨inner, second, by rw [Nat.succ.inj count]; exact spans⟩

theorem FitsAll.spans (checked : grammar.Checked) {items : List Pattern} {terms : List Term} :
    FitsAll (grammar.reading mentioned) items terms →
    Single grammar.holeTable (Pattern.contextsAll items) →
    ∀ (start : HoleRange) (count : Nat), start.Spans count →
    ∃ range, Pattern.holesFrom grammar.holeTable start items = some range ∧
      range.Spans (count + Term.holesAll terms)
  | .nil, _, start, count, spans => ⟨start, rfl, spans⟩
  | .check others, single, start, count, spans => by
    rw [Pattern.holesFrom, Pattern.holes]
    exact FitsAll.spans checked others single _ count (spans.sum HoleRange.spans_zero)
  | .item fixed fits others, single, start, count, spans => by
    obtain ⟨here, found, inside⟩ := Fits.spans checked fits
      (single.mono fun other listed => List.mem_append_left _ listed)
    rw [Pattern.holesFrom, found, Term.holesAll, ← Nat.add_assoc]
    exact FitsAll.spans checked others
      (single.mono fun other listed => List.mem_append_right _ listed) _ _ (spans.sum inside)
  | @FitsAll.repeated _ inner _ _ taken _ each others, single, start, count, spans => by
    have within : Single grammar.holeTable inner.contexts :=
      single.mono fun other listed => List.mem_append_left _ listed
    have round : (((inner.holes grammar.holeTable).map HoleRange.repeated).getD .zero).Spans
        (Term.holesAll taken) := by
      have rounds : ∀ term ∈ taken, ∃ range, inner.holes grammar.holeTable = some range ∧
          range.Spans term.holes := fun term listed => Fits.spans checked (each term listed) within
      cases found : inner.holes grammar.holeTable with
      | none =>
        cases taken with
        | nil => exact HoleRange.spans_zero
        | cons first rest =>
          obtain ⟨range, some, _⟩ := rounds first List.mem_cons_self
          rw [found] at some
          cases some
      | some range =>
        refine HoleRange.spans_repeated ?_
        intro term listed
        obtain ⟨other, same, spans⟩ := rounds term listed
        rw [found] at same
        cases same
        exact spans
    rw [Pattern.holesFrom, Pattern.holes, Term.holesAll_append, ← Nat.add_assoc]
    exact FitsAll.spans checked others
      (single.mono fun other listed => List.mem_append_right _ listed) _ _ (spans.sum round)

end

end Soundness

/-- Both ends of a range are hole counts of terms. -/
def HoleRange.Attained (range : HoleRange) (terms : Term → Prop) : Prop :=
  (∃ term, terms term ∧ HoleCount.ofHoles term.holes = range.least) ∧
    ∃ term, terms term ∧ HoleCount.ofHoles term.holes = range.greatest

theorem HoleRange.attained_exactly {terms : Term → Prop} {term : Term} (there : terms term) :
    (HoleRange.exactly (.ofHoles term.holes)).Attained terms :=
  ⟨⟨term, there, rfl⟩, term, there, rfl⟩

/-- There is always one more name. -/
theorem exists_not_mem (names : List Symbol) : ∃ name : Symbol, name ∉ names := by
  have longer : ∀ name ∈ names, name.length ≤ (names.map String.length).sum := by
    intro name listed
    induction names with
    | nil => cases listed
    | cons first rest ih =>
      rw [List.map_cons, List.sum_cons]
      rcases List.mem_cons.mp listed with rfl | later
      · omega
      · have bound := ih later
        omega
  refine ⟨String.ofList (List.replicate ((names.map String.length).sum + 1) 'x'), ?_⟩
  intro listed
  have bound := longer _ listed
  rw [String.length_ofList, List.length_replicate] at bound
  omega

/-- Every kind has a term, with a hole only for the hole. -/
theorem BuiltIn.exists_holdsOf (mentioned : SymbolSet) (kind : BuiltIn) :
    ∃ term : Term, kind.holdsOf mentioned term = true ∧
      term.holes = if kind = .hole then 1 else 0 := by
  cases kind with
  | number => exact ⟨.atom (.integer 0), rfl, rfl⟩
  | integer => exact ⟨.atom (.integer 0), rfl, rfl⟩
  | natural => exact ⟨.atom (.integer 0), by simp [holdsOf, Term.isNatural], rfl⟩
  | real => exact ⟨.atom (.float default), rfl, rfl⟩
  | string => exact ⟨.atom (.string ""), rfl, rfl⟩
  | boolean => exact ⟨.atom (.boolean true), rfl, rfl⟩
  | hole => exact ⟨.hole, rfl, rfl⟩
  | variableNotOtherwiseMentioned =>
    obtain ⟨name, apart⟩ := exists_not_mem mentioned.members
    refine ⟨.atom (.symbol name), ?_, rfl⟩
    simp [holdsOf, SymbolSet.contains, apart]
  | variableExcept excluded =>
    obtain ⟨name, apart⟩ := exists_not_mem excluded
    refine ⟨.atom (.symbol name), ?_, rfl⟩
    simp [holdsOf, apart]

section Tightness

variable {reading : Reading} {table : HoleTable}

/-- Every range of a table is attained by terms that the rule derives. -/
def HoleTable.Tight (reading : Reading) (table : HoleTable) : Prop :=
  ∀ name range, HoleTable.range table name = some range → range.Attained (Derives reading name)

/-- Every context of a list describes a term with one hole. -/
def Fillable (reading : Reading) (contexts : List Pattern) : Prop :=
  ∀ context ∈ contexts, ∃ term, Fits reading context term ∧ term.holes = 1

theorem Fillable.mono {fewer more : List Pattern} (fillable : Fillable reading more)
    (subset : ∀ context ∈ fewer, context ∈ more) : Fillable reading fewer :=
  fun context listed => fillable context (subset context listed)

theorem HoleCount.add_assoc (first second third : HoleCount) :
    (first.add second).add third = first.add (second.add third) := by
  cases first <;> cases second <;> cases third <;> rfl

/-- The greatest count of a repetition is attained by two rounds, or by none. -/
theorem HoleRange.exists_rounds {range : HoleRange} {terms : Term → Prop}
    (attained : range.Attained terms) :
    ∃ taken : List Term, (∀ term ∈ taken, terms term) ∧
      HoleCount.ofHoles (Term.holesAll taken) = range.repeated.greatest := by
  obtain ⟨_, term, there, most⟩ := attained
  by_cases empty : range.greatest = .zero
  · exact ⟨[], List.forall_mem_nil _, by simp [HoleRange.repeated, empty, Term.holesAll, HoleCount.ofHoles]⟩
  · refine ⟨[term, term], by simpa using there, ?_⟩
    rw [← most] at empty
    simp only [Term.holesAll, HoleRange.repeated, ← most, empty, if_false]
    cases count : term.holes with
    | zero =>
      rw [count] at empty
      exact absurd rfl empty
    | succ more =>
      have many : more + 1 + (more + 1 + 0) = 2 * more + 2 := by omega
      rw [many]
      rfl

/-- The counts that a table gives to items are attained, if those of every item are. -/
theorem FitsAll.attained {items : List Pattern}
    (each : ∀ item ∈ items, item.isFixedWidth = true →
      ∀ range, item.holes table = some range → range.Attained (Fits reading item))
    (rounds : ∀ inner mode, .repeated inner mode ∈ items →
      ∀ range, inner.holes table = some range → range.Attained (Fits reading inner)) :
    ∀ start range, Pattern.holesFrom table start items = some range →
      (∃ terms, FitsAll reading items terms ∧
        start.least.add (.ofHoles (Term.holesAll terms)) = range.least) ∧
      ∃ terms, FitsAll reading items terms ∧
        start.greatest.add (.ofHoles (Term.holesAll terms)) = range.greatest := by
  induction items with
  | nil =>
    rintro start range ⟨⟩
    have unit : ∀ count : HoleCount, count.add (.ofHoles 0) = count := by
      intro count
      cases count <;> rfl
    exact ⟨⟨[], .nil, unit _⟩, [], .nil, unit _⟩
  | cons first rest ih =>
    intro start range found
    have later := ih (fun item listed => each item (List.mem_cons_of_mem _ listed))
      fun inner mode listed => rounds inner mode (List.mem_cons_of_mem _ listed)
    rw [Pattern.holesFrom] at found
    cases here : first.holes table with
    | none =>
      rw [here] at found
      cases found
    | some part =>
      rw [here] at found
      obtain ⟨⟨lows, lowFits, least⟩, highs, highFits, greatest⟩ := later _ _ found
      rw [HoleRange.sum, HoleCount.add_assoc] at least greatest
      by_cases fixed : first.isFixedWidth = true
      · obtain ⟨⟨low, lowHere, lowest⟩, high, highHere, highest⟩ :=
          each first List.mem_cons_self fixed part here
        refine ⟨⟨low :: lows, .item fixed lowHere lowFits, ?_⟩,
          high :: highs, .item fixed highHere highFits, ?_⟩
        · rw [Term.holesAll, HoleCount.ofHoles_add, lowest, least]
        · rw [Term.holesAll, HoleCount.ofHoles_add, highest, greatest]
      · cases first with
        | check test =>
          cases here
          exact ⟨⟨lows, .check lowFits, least⟩, highs, .check highFits, greatest⟩
        | repeated inner mode =>
          rw [Pattern.holes] at here
          cases within : inner.holes table with
          | none =>
            rw [within] at here
            cases here
            exact ⟨⟨lows, fitsAll_repeated.mpr ⟨[], _, rfl, nofun, lowFits⟩, least⟩,
              highs, fitsAll_repeated.mpr ⟨[], _, rfl, nofun, highFits⟩, greatest⟩
          | some round =>
            rw [within] at here
            cases here
            obtain ⟨taken, fits, most⟩ :=
              HoleRange.exists_rounds (rounds inner mode List.mem_cons_self round within)
            refine ⟨⟨lows, fitsAll_repeated.mpr ⟨[], _, rfl, nofun, lowFits⟩, least⟩,
              taken ++ highs, .repeated fits highFits, ?_⟩
            rw [Term.holesAll_append, HoleCount.ofHoles_add, most]
            exact greatest
        | _ => exact absurd rfl fixed

/-- The range that a table gives to a pattern is attained, if its contexts can be filled. -/
theorem Fits.attained (tight : table.Tight reading) {pattern : Pattern}
    (placed : pattern.isPlaced = true) : Fillable reading pattern.contexts →
    ∀ range, pattern.holes table = some range → range.Attained (Fits reading pattern) := by
  refine Pattern.placedInduction (motive := fun pattern => Fillable reading pattern.contexts →
    ∀ range, pattern.holes table = some range → range.Attained (Fits reading pattern))
    ?_ ?_ ?_ ?_ ?_ pattern placed
  · rintro value _ _ ⟨⟩
    exact ⟨⟨_, .literal, rfl⟩, _, .literal, rfl⟩
  · intro stem symbol _ range found
    obtain ⟨⟨low, first, least⟩, high, second, greatest⟩ := tight stem range found
    exact ⟨⟨low, .nonTerminal first, least⟩, high, .nonTerminal second, greatest⟩
  · intro kind symbol _ range found
    obtain ⟨term, passed, count⟩ := BuiltIn.exists_holdsOf reading.mentioned kind
    have exact : range = .exactly (.ofHoles term.holes) := by
      rw [count]
      cases kind <;> (cases found; rfl)
    rw [exact]
    exact HoleRange.attained_exactly (Fits.builtIn passed)
  · intro items each rounds fillable range found
    obtain ⟨⟨lows, lowFits, least⟩, highs, highFits, greatest⟩ := FitsAll.attained
      (fun item listed fixed => each item listed fixed
        (fillable.mono fun context inside => Pattern.mem_contextsAll listed inside))
      (fun inner mode listed => rounds inner mode listed
        (fillable.mono fun context inside => Pattern.mem_contextsAll listed inside))
      .zero range found
    exact ⟨⟨_, .sequence lowFits, least⟩, _, .sequence highFits, greatest⟩
  · intro context contents checks _ within fillable range found
    obtain ⟨outer, around, single⟩ := fillable context List.mem_cons_self
    obtain ⟨⟨low, lowFits, least⟩, high, highFits, greatest⟩ := within
      (fillable.mono fun other listed =>
        List.mem_cons_of_mem _ (List.mem_append_right _ listed)) range found
    have filled : ∀ inner, Fits reading contents inner →
        ∃ term, Fits reading (.inHole context contents checks) term ∧ term.holes = inner.holes := by
      intro inner fits
      obtain ⟨term, decomposed⟩ := Term.exists_decomposes (by omega : 0 < outer.holes) inner
      have count := decomposed.holes
      exact ⟨term, .inHole around fits decomposed, by omega⟩
    obtain ⟨first, fits, same⟩ := filled low lowFits
    obtain ⟨second, others, equal⟩ := filled high highFits
    exact ⟨⟨first, fits, by rw [same, least]⟩, second, others, by rw [equal, greatest]⟩

end Tightness

/-- A range is what the hole counts of some terms come to: none if there are no terms, and else
the least and the greatest count, both of them attained. -/
def HoleRange.Exact (value : Option HoleRange) (terms : Term → Prop) : Prop :=
  match value with
  | none => ∀ term, ¬ terms term
  | some range => (∀ term, terms term → range.Spans term.holes) ∧ range.Attained terms

namespace Grammar

variable {grammar : Grammar} {mentioned : SymbolSet}

/-- A rule without alternatives has no range. -/
theorem range_holeTable_of_not_mem {name : Symbol} (unknown : name ∉ grammar.order) :
    HoleTable.range grammar.holeTable name = none := by
  refine holeTable_induction (motive := fun table => HoleTable.range table name = none)
    (range_startHoles name) ?_
  intro table none other known
  rw [range_updateHoles]
  split
  · rename_i same
    rw [same] at known
    exact absurd known unknown
  · exact none

/-- The ranges of the rules are attained, if all contexts can be filled. -/
theorem tight_holeTable
    (placed : ∀ name, ∀ alternative ∈ grammar.alternativesOf name, alternative.isPlaced = true)
    (fillable : ∀ name, ∀ alternative ∈ grammar.alternativesOf name,
      Fillable (grammar.reading mentioned) alternative.contexts) :
    HoleTable.Tight (grammar.reading mentioned) grammar.holeTable := by
  refine holeTable_induction (motive := HoleTable.Tight (grammar.reading mentioned)) ?_ ?_
  · intro name range found
    rw [range_startHoles] at found
    cases found
  · intro table tight rule _ name range found
    rw [range_updateHoles] at found
    split at found
    · rename_i same
      subst same
      obtain ⟨_, ⟨low, lowListed, least⟩, high, highListed, greatest⟩ := hullAll_eq_some found
      obtain ⟨lower, lowKnown, lowRange⟩ := List.mem_filterMap.mp lowListed
      obtain ⟨upper, highKnown, highRange⟩ := List.mem_filterMap.mp highListed
      obtain ⟨⟨lowTerm, lowFits, lowCount⟩, _⟩ := Fits.attained tight (placed _ _ lowKnown)
        (fillable _ _ lowKnown) low lowRange
      obtain ⟨_, highTerm, highFits, highCount⟩ := Fits.attained tight (placed _ _ highKnown)
        (fillable _ _ highKnown) high highRange
      exact ⟨⟨lowTerm, .rule lowKnown lowFits, by rw [lowCount, least]⟩,
        highTerm, .rule highKnown highFits, by rw [highCount, greatest]⟩
    · exact tight name range found

/-- Where all ranges of rules are attained, every context that was checked can be filled. -/
theorem fillable_of_tight {table : HoleTable} {reading : Reading} (tight : table.Tight reading)
    {pattern : Pattern} (placed : pattern.isPlaced = true) :
    Single table pattern.contexts → Fillable reading pattern.contexts := by
  refine Pattern.placedInduction (motive := fun pattern => pattern.isPlaced = true →
    Single table pattern.contexts → Fillable reading pattern.contexts)
    ?_ ?_ ?_ ?_ ?_ pattern placed placed
  · exact fun _ _ _ => nofun
  · exact fun _ _ _ _ => nofun
  · exact fun _ _ _ _ => nofun
  · intro items each rounds placed single context listed
    obtain ⟨fixed, inner⟩ := Pattern.arePlaced_iff.mp placed
    obtain ⟨item, there, inside⟩ := Pattern.exists_of_mem_contextsAll listed
    have within : Single table item.contexts :=
      single.mono fun other here => Pattern.mem_contextsAll there here
    cases item with
    | repeated body mode => exact rounds body mode there (inner body mode there) within context inside
    | check test => cases inside
    | literal _ | nonTerminal _ _ | builtIn _ _ | sequence _ | inHole _ _ _ | unresolved _ =>
      exact each _ there rfl (fixed _ there rfl) within context inside
  · intro context contents checks around within placed single other listed
    simp only [Pattern.isPlaced, Bool.and_eq_true] at placed
    have outer := around placed.1 (single.mono fun other there =>
      List.mem_cons_of_mem _ (List.mem_append_left _ there))
    have inner := within placed.2 (single.mono fun other there =>
      List.mem_cons_of_mem _ (List.mem_append_right _ there))
    rcases List.mem_cons.mp listed with rfl | there
    · obtain ⟨⟨term, fits, count⟩, _⟩ := Fits.attained tight placed.1 outer _
        (single _ List.mem_cons_self)
      refine ⟨term, fits, ?_⟩
      match holes : term.holes with
      | 0 =>
        rw [holes] at count
        cases count
      | 1 => rfl
      | more + 2 =>
        rw [holes] at count
        cases count
    · rcases List.mem_append.mp there with left | right
      · exact outer other left
      · exact inner other right

/-- The ranges of the rules are exact if and only if every context describes some term. -/
theorem exact_iff_inhabited (checked : grammar.Checked)
    (placed : ∀ name, ∀ alternative ∈ grammar.alternativesOf name, alternative.isPlaced = true) :
    (∀ name ∈ grammar.order, HoleRange.Exact (HoleTable.range grammar.holeTable name)
      (Derives (grammar.reading mentioned) name)) ↔
    ∀ name ∈ grammar.order, ∀ alternative ∈ grammar.alternativesOf name,
      ∀ context ∈ alternative.contexts, ∃ term, Fits (grammar.reading mentioned) context term := by
  constructor
  · intro exact name _ alternative listed context inside
    have tight : HoleTable.Tight (grammar.reading mentioned) grammar.holeTable := by
      intro rule range found
      by_cases known : rule ∈ grammar.order
      · have bounds := exact rule known
        rw [found] at bounds
        exact bounds.2
      · rw [range_holeTable_of_not_mem known] at found
        cases found
    obtain ⟨term, fits, _⟩ := fillable_of_tight tight (placed name alternative listed)
      (checked.single name alternative listed) context inside
    exact ⟨term, fits⟩
  · intro inhabited
    have fillable : ∀ name, ∀ alternative ∈ grammar.alternativesOf name,
        Fillable (grammar.reading mentioned) alternative.contexts := by
      intro name alternative listed context inside
      have known : name ∈ grammar.order := by
        apply Classical.byContradiction
        intro unknown
        rw [checked.absent name unknown] at listed
        cases listed
      obtain ⟨term, fits⟩ := inhabited name known alternative listed context inside
      obtain ⟨range, found, spans⟩ := fits.spans checked
        ((checked.single name alternative listed).mono fun other there =>
          Pattern.contexts_trans inside there)
      rw [checked.single name alternative listed context inside] at found
      cases found
      exact ⟨term, fits, HoleRange.spans_one_iff.mp spans⟩
    have tight := tight_holeTable placed fillable
    intro name _
    cases found : HoleTable.range grammar.holeTable name with
    | none =>
      intro term derived
      obtain ⟨range, other, _⟩ := derived.spans checked
      rw [found] at other
      cases other
    | some range =>
      refine ⟨?_, tight name range found⟩
      intro term derived
      obtain ⟨other, same, spans⟩ := derived.spans checked
      rw [found] at same
      cases same
      exact spans

end Grammar

namespace Language

/-- The patterns of the alternatives of a rule, none when there is no such rule. -/
def alternativesOf (language : Language) (name : Symbol) : List Pattern :=
  match language.rule? name with
  | some rule => rule.alternatives.map (·.pattern)
  | none => []

/-- The terms that the rules of a language derive. -/
def reading (language : Language) : Reading := ⟨language.alternativesOf, language.mentioned⟩

variable {language : Language} {grammar : Grammar}

/-- The rule of a name is the only one of that name. -/
theorem Defined.rule?_eq (defined : language.Defined grammar) {rule : Rule}
    (listed : rule ∈ language.rules) : language.rule? rule.name = some rule := by
  unfold rule?
  have distinct : (language.rules.map (·.name)).Nodup := by
    rw [defined.order]
    exact defined.distinct
  revert listed distinct
  induction language.rules with
  | nil => nofun
  | cons first rest ih =>
    intro listed distinct
    rw [List.map_cons, List.nodup_cons] at distinct
    rcases List.mem_cons.mp listed with rfl | later
    · rw [List.find?_cons_of_pos (by simp)]
    · have apart : first.name ≠ rule.name := by
        intro same
        exact distinct.1 (same ▸ List.mem_map_of_mem later)
      rw [List.find?_cons_of_neg (by simpa using apart)]
      exact ih later distinct.2

/-- A name is that of a rule if and only if the grammar has it. -/
theorem Defined.exists_rule (defined : language.Defined grammar) {name : Symbol} :
    name ∈ grammar.order ↔ ∃ rule ∈ language.rules, rule.name = name := by
  rw [← defined.order]
  exact List.mem_map

/-- The alternatives of a language have the skeletons of those of its grammar. -/
theorem Defined.skeletons_alternativesOf (defined : language.Defined grammar) (name : Symbol) :
    (language.alternativesOf name).map (·.skeleton) =
      (grammar.alternativesOf name).map (·.skeleton) := by
  by_cases known : name ∈ grammar.order
  · obtain ⟨rule, listed, rfl⟩ := defined.exists_rule.mp known
    rw [alternativesOf, defined.rule?_eq listed]
    change (rule.alternatives.map (·.pattern)).map (·.skeleton) = _
    rw [List.map_map]
    exact defined.skeletons rule listed
  · rw [defined.absent name known]
    unfold alternativesOf
    split
    · rename_i rule found
      have listed := List.mem_of_find?_eq_some found
      have same := List.find?_some found
      simp only [decide_eq_true_eq] at same
      exact absurd (defined.exists_rule.mpr ⟨rule, listed, same⟩) known
    · rfl

theorem exists_of_map_eq {first second : List Pattern}
    (same : first.map (·.skeleton) = second.map (·.skeleton)) {pattern : Pattern}
    (listed : pattern ∈ first) : ∃ other ∈ second, other.skeleton = pattern.skeleton := by
  have image : pattern.skeleton ∈ second.map (·.skeleton) := by
    rw [← same]
    exact List.mem_map_of_mem listed
  exact List.mem_map.mp image

theorem Defined.covers (defined : language.Defined grammar) :
    (grammar.reading language.mentioned).Covers language.reading where
  alternatives := by
    intro name alternative listed
    exact exists_of_map_eq (defined.skeletons_alternativesOf name) listed
  mentioned := fun _ listed => listed

theorem Defined.covered (defined : language.Defined grammar) :
    language.reading.Covers (grammar.reading language.mentioned) where
  alternatives := by
    intro name alternative listed
    exact exists_of_map_eq (defined.skeletons_alternativesOf name).symm listed
  mentioned := fun _ listed => listed

/-- A language reads as its grammar does. -/
theorem Defined.fits_iff (defined : language.Defined grammar) {pattern : Pattern} {term : Term} :
    Fits language.reading pattern term ↔
      Fits (grammar.reading language.mentioned) pattern term :=
  ⟨Fits.mono defined.covers, Fits.mono defined.covered⟩

theorem Defined.derives_eq (defined : language.Defined grammar) :
    Derives language.reading = Derives (grammar.reading language.mentioned) := by
  funext name term
  exact propext ⟨Derives.mono defined.covers, Derives.mono defined.covered⟩

/-- Contexts of patterns with one skeleton have the skeletons of each other. -/
theorem exists_context_of_skeleton {first second context : Pattern}
    (same : first.skeleton = second.skeleton) (inside : context ∈ first.contexts) :
    ∃ other ∈ second.contexts, other.skeleton = context.skeleton := by
  refine exists_of_map_eq ?_ inside
  rw [← Pattern.contexts_skeleton, ← Pattern.contexts_skeleton, same]

/-- The grammar of a language was checked. -/
theorem Defined.checked (defined : language.Defined grammar) : grammar.Checked where
  absent := defined.absent
  single := by
    intro name alternative listed context inside
    by_cases known : name ∈ grammar.order
    · obtain ⟨rule, there, rfl⟩ := defined.exists_rule.mp known
      obtain ⟨pattern, finished, same⟩ :=
        exists_of_map_eq (defined.skeletons_alternativesOf rule.name).symm listed
      rw [alternativesOf, defined.rule?_eq there] at finished
      obtain ⟨prepared, known, rfl⟩ := List.mem_map.mp finished
      obtain ⟨_, _, _, _, _, made⟩ := defined.finished rule there prepared known
      obtain ⟨_, _, passed, _⟩ := finish_eq_ok.mp made
      obtain ⟨other, found, equal⟩ := exists_context_of_skeleton same.symm inside
      rw [← Pattern.holes_skeleton, ← equal, Pattern.holes_skeleton, ← defined.table]
      exact (checkContexts_eq_ok prepared.pattern).mp passed other found
    · rw [defined.absent name known] at listed
      cases listed

theorem Defined.placed (defined : language.Defined grammar) (name : Symbol) :
    ∀ alternative ∈ grammar.alternativesOf name, alternative.isPlaced = true :=
  fun alternative listed => Pattern.isPlaced_of_isResolved _ (defined.resolved name alternative listed)

/-- Every context in the rules of the language describes some term. -/
def ContextsInhabited (language : Language) : Prop :=
  ∀ rule ∈ language.rules, ∀ prepared ∈ rule.alternatives,
    ∀ context ∈ prepared.pattern.contexts, ∃ term, Fits language.reading context term

/-- The ranges of all rules are exact. -/
def HolesExact (language : Language) : Prop :=
  ∀ rule ∈ language.rules, HoleRange.Exact rule.holes (Derives language.reading rule.name)

theorem Defined.contextsInhabited_iff (defined : language.Defined grammar) :
    language.ContextsInhabited ↔ ∀ name ∈ grammar.order,
      ∀ alternative ∈ grammar.alternativesOf name, ∀ context ∈ alternative.contexts,
        ∃ term, Fits (grammar.reading language.mentioned) context term := by
  constructor
  · intro inhabited name known alternative listed context inside
    obtain ⟨rule, there, rfl⟩ := defined.exists_rule.mp known
    obtain ⟨pattern, finished, same⟩ :=
      exists_of_map_eq (defined.skeletons_alternativesOf rule.name).symm listed
    rw [alternativesOf, defined.rule?_eq there] at finished
    obtain ⟨prepared, known, rfl⟩ := List.mem_map.mp finished
    obtain ⟨other, found, equal⟩ := exists_context_of_skeleton same.symm inside
    obtain ⟨term, fits⟩ := inhabited rule there prepared known other found
    exact ⟨term, (defined.fits_iff.mp fits).of_skeleton equal⟩
  · intro inhabited rule there prepared known context inside
    have finished : prepared.pattern ∈ language.alternativesOf rule.name := by
      rw [alternativesOf, defined.rule?_eq there]
      exact List.mem_map_of_mem known
    obtain ⟨alternative, listed, same⟩ :=
      exists_of_map_eq (defined.skeletons_alternativesOf rule.name) finished
    obtain ⟨other, found, equal⟩ := exists_context_of_skeleton same.symm inside
    obtain ⟨term, fits⟩ := inhabited rule.name (defined.exists_rule.mpr ⟨rule, there, rfl⟩)
      alternative listed other found
    exact ⟨term, defined.fits_iff.mpr (fits.of_skeleton equal)⟩

/-- The ranges of an accepted language are exact if and only if all its contexts describe some
term. -/
theorem Defined.holesExact_iff (defined : language.Defined grammar) :
    language.HolesExact ↔ language.ContextsInhabited := by
  rw [defined.contextsInhabited_iff, ← Grammar.exact_iff_inhabited defined.checked defined.placed]
  constructor
  · intro exact name known
    obtain ⟨rule, there, rfl⟩ := defined.exists_rule.mp known
    have here := exact rule there
    rw [defined.holes rule there, defined.table] at here
    rw [defined.derives_eq] at here
    exact here
  · intro exact rule there
    have here := exact rule.name (defined.exists_rule.mpr ⟨rule, there, rfl⟩)
    rw [defined.holes rule there, defined.table, defined.derives_eq]
    exact here

end Language

end Reduct
