import Reduct.Proofs.AliasOrder
import Reduct.Proofs.Frontier
import Reduct.Proofs.HoleExactness

/-!
# Provable difference

Every term that a non-terminal derives has one of the shapes of the non-terminal, and shapes that
do not overlap share no term. So patterns that are told apart by their shapes describe no common
term, whatever literal variables are met after they were told apart.
-/

namespace Reduct

namespace BuiltIn

/-- The kinds of the terms that pass a test. -/
def kinds : BuiltIn → List Term.Kind
  | number => [.integer, .float]
  | integer => [.integer]
  | natural => [.integer]
  | real => [.float]
  | string => [.string]
  | boolean => [.boolean]
  | hole => [.hole]
  | variableNotOtherwiseMentioned => [.symbol]
  | variableExcept _ => [.symbol]

theorem kind_mem_of_holdsOf {mentioned : SymbolSet} {kind : BuiltIn} {term : Term}
    (passed : kind.holdsOf mentioned term = true) : term.kind ∈ kind.kinds := by
  cases kind with
  | number =>
    cases term with
    | atom value =>
      cases value with
      | integer _ => exact List.mem_cons_self
      | float _ => exact List.mem_cons_of_mem _ List.mem_cons_self
      | string _ | boolean _ | symbol _ => cases passed
    | hole | sequence _ => cases passed
  | natural =>
    cases term with
    | atom value =>
      cases value with
      | integer _ => exact List.mem_cons_self
      | float _ | string _ | boolean _ | symbol _ => cases passed
    | hole | sequence _ => cases passed
  | integer | real | string | boolean | hole =>
    rw [holdsOf, decide_eq_true_eq] at passed
    rw [passed]
    exact List.mem_cons_self
  | variableNotOtherwiseMentioned | variableExcept _ =>
    cases term with
    | atom value =>
      cases value with
      | symbol _ => exact List.mem_cons_self
      | integer _ | float _ | string _ | boolean _ => cases passed
    | hole | sequence _ => cases passed

/-- Tests that one kind of terms may pass overlap. -/
theorem overlaps_of_mem_kinds {left right : BuiltIn} {kind : Term.Kind}
    (first : kind ∈ left.kinds) (second : kind ∈ right.kinds) : left.overlaps right = true := by
  cases left <;> cases right <;> first | rfl | simp_all [kinds]

/-- A kind admits the literals that pass it, as far as literal variables are known. -/
theorem admits_of_holdsOf {earlier later : SymbolSet} (grows : earlier.Subset later)
    {kind : BuiltIn} {value : Atom} (passed : kind.holdsOf later (.atom value) = true) :
    kind.admits earlier value = true := by
  cases kind with
  | variableNotOtherwiseMentioned =>
    cases value with
    | symbol name =>
      rw [holdsOf, Bool.not_eq_true'] at passed
      rw [admits, Bool.not_eq_true', Bool.eq_false_iff]
      intro known
      have there : later.contains name = true := grows name known
      rw [there] at passed
      cases passed
    | _ => cases passed
  | _ => cases value <;> exact passed

end BuiltIn

/-- A term has a shape. -/
def Shape.Describes (reading : Reading) : Shape → Term → Prop
  | .builtIn kind _, term => kind.holdsOf reading.mentioned term = true
  | .literal value, term => term = .atom value
  | .sequence items, term => Fits reading (.sequence items) term
  | .any, _ => True

/-- A term of a pattern other than a non-terminal has one of its shapes. -/
theorem exists_leafShape {reading : Reading} {pattern : Pattern} {term : Term}
    (fits : Fits reading pattern term) (other : ∀ stem symbol, pattern ≠ .nonTerminal stem symbol) :
    ∃ shape ∈ pattern.leafShapes, shape.Describes reading term := by
  cases fits with
  | literal => exact ⟨_, List.mem_cons_self, rfl⟩
  | nonTerminal derived => exact absurd rfl (other _ _)
  | builtIn passed => exact ⟨_, List.mem_cons_self, passed⟩
  | sequence all => exact ⟨_, List.mem_cons_self, Fits.sequence all⟩
  | inHole _ _ _ => exact ⟨.any, List.mem_cons_self, trivial⟩

section Collection

variable {grammar : Grammar}

theorem mem_addShape {shapes : List Shape} {shape other : Shape} :
    other ∈ Grammar.addShape shapes shape ↔ other ∈ shapes ∨ other = shape := by
  unfold Grammar.addShape
  split
  · rename_i known
    constructor
    · exact .inl
    · rintro (there | rfl)
      · exact there
      · exact known
  · rw [List.mem_append, List.mem_singleton]

theorem mem_foldl_addShape {added shapes : List Shape} {other : Shape} :
    other ∈ added.foldl Grammar.addShape shapes ↔ other ∈ shapes ∨ other ∈ added := by
  induction added generalizing shapes with
  | nil => simp
  | cons first rest ih =>
    rw [List.foldl_cons, ih, mem_addShape, List.mem_cons, or_assoc]

/-- A fold that only adds keeps what it had, and holds what one of its steps adds. -/
theorem exists_mem_foldl {α : Type} {step : List Shape → α → List Shape} {items : List α}
    (grows : ∀ item ∈ items, ∀ shapes, ∀ shape ∈ shapes, shape ∈ step shapes item)
    (good : Shape → Prop) (start : List Shape) :
    (∀ shape ∈ start, shape ∈ items.foldl step start) ∧
      ∀ item ∈ items, (∀ shapes, ∃ shape ∈ step shapes item, good shape) →
        ∃ shape ∈ items.foldl step start, good shape := by
  induction items generalizing start with
  | nil => exact ⟨fun _ listed => listed, nofun⟩
  | cons first rest ih =>
    have later := ih (fun item listed => grows item (List.mem_cons_of_mem _ listed))
      (step start first)
    refine ⟨fun shape listed => later.1 shape (grows first List.mem_cons_self start shape listed),
      ?_⟩
    intro item listed adds
    rcases List.mem_cons.mp listed with rfl | there
    · obtain ⟨shape, inside, holds⟩ := adds start
      exact ⟨shape, later.1 shape inside, holds⟩
    · exact later.2 item there adds

/-- Collecting the shapes of a rule keeps those collected before. -/
theorem mem_collectShapes (fuel : Nat) : ∀ (visiting : List Symbol) (shapes : List Shape)
    (name : Symbol), ∀ shape ∈ shapes,
      shape ∈ grammar.collectShapes fuel visiting shapes name := by
  induction fuel with
  | zero => exact fun _ _ _ _ listed => listed
  | succ fuel ih =>
    intro visiting shapes name shape listed
    rw [Grammar.collectShapes]
    split
    · exact listed
    · refine (exists_mem_foldl ?_ (fun _ => True) shapes).1 shape listed
      intro alternative _ collected other there
      split
      · exact ih _ _ _ other there
      · exact mem_foldl_addShape.mpr (.inl there)

/-- Every term that a rule derives has a shape that is collected for the rule. Aliases have lower
ranks, so no rule on the way is met again and the fuel does not run out. -/
theorem exists_collectShapes {rank : Symbol → Nat} {mentioned : SymbolSet}
    (lower : ∀ name, ∀ stem ∈ grammar.aliases name, rank stem < rank name) {term : Term}
    (fuel : Nat) : ∀ (visiting : List Symbol) (shapes : List Shape) (name : Symbol),
      rank name < fuel → (∀ other ∈ visiting, rank name < rank other) →
      Derives (grammar.reading mentioned) name term →
      ∃ shape ∈ grammar.collectShapes fuel visiting shapes name,
        shape.Describes (grammar.reading mentioned) term := by
  induction fuel with
  | zero => exact fun _ _ _ bound => absurd bound (Nat.not_lt_zero _)
  | succ fuel ih =>
    intro visiting shapes name bound below derived
    obtain ⟨alternative, listed, fits⟩ := derives_iff.mp derived
    have new : name ∉ visiting := fun there => Nat.lt_irrefl _ (below name there)
    rw [Grammar.collectShapes, if_neg new]
    refine (exists_mem_foldl ?_ _ shapes).2 alternative listed ?_
    · intro other _ collected shape there
      split
      · exact mem_collectShapes _ _ _ _ shape there
      · exact mem_foldl_addShape.mpr (.inl there)
    · intro collected
      split
      · rename_i stem symbol
        have leads : stem ∈ grammar.aliases name :=
          List.mem_filterMap.mpr ⟨.nonTerminal stem symbol, listed, rfl⟩
        refine ih (name :: visiting) collected stem ?_ ?_ (fits_nonTerminal.mp fits)
        · exact Nat.lt_of_lt_of_le (lower name stem leads) (Nat.le_of_lt_succ bound)
        · intro other inside
          rcases List.mem_cons.mp inside with rfl | there
          · exact lower other stem leads
          · exact Nat.lt_trans (lower name stem leads) (below other there)
      · rename_i leaf
        obtain ⟨shape, inside, described⟩ := exists_leafShape fits leaf
        exact ⟨shape, mem_foldl_addShape.mpr (.inr inside), described⟩

end Collection

section Overlap

variable {reading : Reading}

/-- Items describe the terms of two parts of them one after the other. -/
theorem fitsAll_append {first second : List Pattern} {terms : List Term} :
    FitsAll reading (first ++ second) terms ↔
      ∃ left right, terms = left ++ right ∧ FitsAll reading first left ∧
        FitsAll reading second right := by
  induction first generalizing terms with
  | nil =>
    constructor
    · exact fun all => ⟨[], terms, rfl, .nil, all⟩
    · rintro ⟨left, right, rfl, none, all⟩
      rw [fitsAll_nil.mp none]
      exact all
  | cons head rest ih =>
    rw [List.cons_append]
    cases head using Pattern.itemCases with
    | check test =>
      simp only [fitsAll_check]
      exact ih
    | repeated inner mode =>
      constructor
      · intro all
        obtain ⟨taken, others, rfl, each, later⟩ := fitsAll_repeated.mp all
        obtain ⟨left, right, rfl, before, after⟩ := ih.mp later
        exact ⟨taken ++ left, right, (List.append_assoc _ _ _).symm,
          fitsAll_repeated.mpr ⟨taken, left, rfl, each, before⟩, after⟩
      · rintro ⟨left, right, rfl, before, after⟩
        obtain ⟨taken, others, rfl, each, later⟩ := fitsAll_repeated.mp before
        exact fitsAll_repeated.mpr ⟨taken, others ++ right, List.append_assoc _ _ _, each,
          ih.mpr ⟨others, right, rfl, later, after⟩⟩
    | fixed item one =>
      constructor
      · intro all
        obtain ⟨term, others, rfl, fits, later⟩ := (fitsAll_item one).mp all
        obtain ⟨left, right, rfl, before, after⟩ := ih.mp later
        exact ⟨term :: left, right, rfl, .item one fits before, after⟩
      · rintro ⟨left, right, rfl, before, after⟩
        obtain ⟨term, others, rfl, fits, later⟩ := (fitsAll_item one).mp before
        exact .item one fits (ih.mpr ⟨others, right, rfl, later, after⟩)

/-- Items in reverse describe the terms in reverse. -/
theorem FitsAll.reverse {items : List Pattern} {terms : List Term}
    (all : FitsAll reading items terms) : FitsAll reading items.reverse terms.reverse := by
  induction items generalizing terms with
  | nil =>
    rw [fitsAll_nil.mp all]
    exact .nil
  | cons head rest ih =>
    rw [List.reverse_cons]
    cases head using Pattern.itemCases with
    | check test =>
      exact fitsAll_append.mpr ⟨_, [], (List.append_nil _).symm, ih (fitsAll_check.mp all),
        .check .nil⟩
    | repeated inner mode =>
      obtain ⟨taken, others, rfl, each, later⟩ := fitsAll_repeated.mp all
      rw [List.reverse_append]
      refine fitsAll_append.mpr ⟨_, _, rfl, ih later, fitsAll_repeated.mpr ⟨taken.reverse, [],
        (List.append_nil _).symm, fun term listed => each term (List.mem_reverse.mp listed), .nil⟩⟩
    | fixed item one =>
      obtain ⟨term, others, rfl, fits, later⟩ := (fitsAll_item one).mp all
      rw [List.reverse_cons]
      exact fitsAll_append.mpr ⟨_, _, rfl, ih later, .item one fits .nil⟩

/-- Checks do not matter for the terms that items describe. -/
theorem FitsAll.filter {items : List Pattern} {terms : List Term}
    (all : FitsAll reading items terms) :
    FitsAll reading (items.filter fun item => !item.isCheck) terms := by
  induction items generalizing terms with
  | nil => exact all
  | cons head rest ih =>
    cases head using Pattern.itemCases with
    | check test =>
      rw [List.filter_cons, if_neg (by nofun)]
      exact ih (fitsAll_check.mp all)
    | repeated inner mode =>
      rw [List.filter_cons, if_pos (show (!(Pattern.repeated inner mode).isCheck) = true from rfl)]
      obtain ⟨taken, others, rfl, each, later⟩ := fitsAll_repeated.mp all
      exact fitsAll_repeated.mpr ⟨taken, others, rfl, each, ih later⟩
    | fixed _ one =>
      rw [List.filter_cons, Pattern.isCheck_of_isFixedWidth one, if_pos (show (!false) = true from rfl)]
      obtain ⟨term, others, rfl, fits, later⟩ := (fitsAll_item one).mp all
      exact .item one fits (ih later)

/-- Items have a term for each that takes exactly one, and no other if all of them do. -/
theorem FitsAll.length {items : List Pattern} {terms : List Term}
    (all : FitsAll reading items terms) :
    (items.filter (·.isFixedWidth)).length ≤ terms.length ∧
      ((items.filter (·.isFixedWidth)).length = items.length → terms.length = items.length) := by
  induction items generalizing terms with
  | nil =>
    rw [fitsAll_nil.mp all]
    exact ⟨Nat.le_refl _, fun _ => rfl⟩
  | cons head rest ih =>
    have most := List.length_filter_le (fun item : Pattern => item.isFixedWidth) rest
    cases head using Pattern.itemCases with
    | check test =>
      obtain ⟨least, _⟩ := ih (fitsAll_check.mp all)
      rw [List.filter_cons, if_neg (by nofun), List.length_cons]
      exact ⟨least, fun same => by omega⟩
    | repeated inner mode =>
      obtain ⟨taken, others, rfl, _, later⟩ := fitsAll_repeated.mp all
      obtain ⟨least, _⟩ := ih later
      rw [List.filter_cons, if_neg (by nofun), List.length_cons, List.length_append]
      exact ⟨by omega, fun same => by omega⟩
    | fixed _ one =>
      obtain ⟨term, others, rfl, _, later⟩ := (fitsAll_item one).mp all
      obtain ⟨least, exact⟩ := ih later
      rw [List.filter_cons, if_pos one, List.length_cons, List.length_cons, List.length_cons]
      exact ⟨by omega, fun same => by omega⟩

/-- The fixed items at the start of two lists that describe the same terms line up. -/
theorem aligned_of_fitsAll {different : Pattern → Pattern → Bool}
    (apart : ∀ left right term, different left right = true → Fits reading left term →
      ¬ Fits reading right term) {first second : List Pattern} {terms : List Term}
    (one : FitsAll reading first terms) (two : FitsAll reading second terms) :
    (((first.zip second).takeWhile fun pair =>
      pair.1.isFixedWidth && pair.2.isFixedWidth).all fun pair =>
        !different pair.1 pair.2) = true := by
  induction first generalizing second terms with
  | nil => rfl
  | cons head rest ih =>
    cases second with
    | nil => rfl
    | cons other others =>
      rw [List.zip_cons_cons, List.takeWhile_cons]
      split
      · rename_i both
        obtain ⟨left, right⟩ := Bool.and_eq_true_iff.mp both
        obtain ⟨term, later, rfl, fits, all⟩ := (fitsAll_item left).mp one
        obtain ⟨same, rest, equal, matched, more⟩ := (fitsAll_item right).mp two
        cases equal
        rw [List.all_cons, Bool.and_eq_true]
        refine ⟨?_, ih all more⟩
        rw [Bool.not_eq_true', Bool.eq_false_iff]
        exact fun told => apart head other term told fits matched
      · rfl

/-- Lists of items that describe the same terms overlap. -/
theorem sequencesOverlap_of_fitsAll {different : Pattern → Pattern → Bool}
    (apart : ∀ left right term, different left right = true → Fits reading left term →
      ¬ Fits reading right term) {left right : List Pattern} {terms : List Term}
    (one : FitsAll reading left terms) (two : FitsAll reading right terms) :
    Closures.sequencesOverlap different left right = true := by
  unfold Closures.sequencesOverlap
  have first := one.filter
  have second := two.filter
  generalize left.filter (fun item => !item.isCheck) = front at first
  generalize right.filter (fun item => !item.isCheck) = back at second
  obtain ⟨least, exact⟩ := first.length
  obtain ⟨fewest, total⟩ := second.length
  have most := List.length_filter_le (fun item : Pattern => item.isFixedWidth) front
  have bound := List.length_filter_le (fun item : Pattern => item.isFixedWidth) back
  simp only [Bool.and_eq_true]
  refine ⟨⟨?_, aligned_of_fitsAll apart first second⟩,
    aligned_of_fitsAll apart first.reverse second.reverse⟩
  split
  · rename_i closed ended
    rw [decide_eq_false_iff_not] at closed ended
    rw [decide_eq_true_eq]
    omega
  · rename_i closed _
    rw [decide_eq_false_iff_not] at closed
    rw [decide_eq_true_eq]
    omega
  · rename_i _ ended
    rw [decide_eq_false_iff_not] at ended
    rw [decide_eq_true_eq]
    omega
  · rfl

/-- No sequence passes the test of a kind. -/
theorem not_holdsOf_of_fits_sequence {mentioned : SymbolSet} {kind : BuiltIn}
    {items : List Pattern} {term : Term} (fits : Fits reading (.sequence items) term) :
    ¬ kind.holdsOf mentioned term = true := by
  intro passed
  obtain ⟨terms, rfl, _⟩ := fits_sequence.mp fits
  have listed : Term.Kind.sequence ∈ kind.kinds := BuiltIn.kind_mem_of_holdsOf passed
  cases kind <;> simp [BuiltIn.kinds] at listed

/-- Shapes of one term overlap, if sequences of one term do. -/
theorem shapesOverlap_of_sequences {closures : Closures} {earlier : SymbolSet} {fuel : Nat}
    (grows : earlier.Subset reading.mentioned)
    (sequences : ∀ left right terms, FitsAll reading left terms → FitsAll reading right terms →
      closures.shapesOverlap earlier fuel (.sequence left) (.sequence right) = true)
    {left right : Shape} {term : Term} (one : left.Describes reading term)
    (two : right.Describes reading term) :
    closures.shapesOverlap earlier fuel left right = true := by
  cases left with
  | any => rw [Closures.shapesOverlap]
  | builtIn kind symbol =>
    cases right with
    | any =>
      rw [Closures.shapesOverlap]
      nofun
    | builtIn other name =>
      rw [Closures.shapesOverlap]
      exact BuiltIn.overlaps_of_mem_kinds (BuiltIn.kind_mem_of_holdsOf one)
        (BuiltIn.kind_mem_of_holdsOf two)
    | literal value =>
      cases two
      rw [Closures.shapesOverlap]
      exact BuiltIn.admits_of_holdsOf grows one
    | sequence items => exact absurd one (not_holdsOf_of_fits_sequence two)
  | literal value =>
    cases right with
    | any =>
      rw [Closures.shapesOverlap]
      nofun
    | builtIn kind symbol =>
      cases one
      rw [Closures.shapesOverlap]
      exact BuiltIn.admits_of_holdsOf grows two
    | literal other =>
      cases one
      cases two
      rw [Closures.shapesOverlap]
      exact decide_eq_true rfl
    | sequence items =>
      cases one
      obtain ⟨terms, same, _⟩ := fits_sequence.mp two
      cases same
  | sequence items =>
    cases right with
    | any =>
      rw [Closures.shapesOverlap]
      nofun
    | builtIn kind symbol => exact absurd two (not_holdsOf_of_fits_sequence one)
    | literal value =>
      cases two
      obtain ⟨terms, same, _⟩ := fits_sequence.mp one
      cases same
    | sequence others =>
      obtain ⟨terms, rfl, first⟩ := fits_sequence.mp one
      obtain ⟨same, equal, second⟩ := fits_sequence.mp two
      cases equal
      exact sequences items others terms first second

/-- Shapes of one term overlap. -/
theorem shapesOverlap_of_describes {closures : Closures} {earlier : SymbolSet}
    (grows : earlier.Subset reading.mentioned)
    (shapes : ∀ (pattern : Pattern) term, Fits reading pattern term →
      ∃ shape ∈ closures.patternShapes pattern, shape.Describes reading term) (fuel : Nat) :
    ∀ {left right : Shape} {term : Term}, left.Describes reading term →
      right.Describes reading term → closures.shapesOverlap earlier fuel left right = true := by
  induction fuel with
  | zero =>
    intro left right term
    refine shapesOverlap_of_sequences grows ?_
    intro first second terms _ _
    rw [Closures.shapesOverlap]
  | succ fuel ih =>
    intro left right term
    refine shapesOverlap_of_sequences grows ?_
    intro first second terms one two
    rw [Closures.shapesOverlap]
    refine sequencesOverlap_of_fitsAll ?_ one two
    intro pattern other part different fits also
    obtain ⟨shape, listed, described⟩ := shapes pattern part fits
    obtain ⟨another, there, more⟩ := shapes other part also
    have disjoint :=
      List.all_eq_true.mp (List.all_eq_true.mp different shape listed) another there
    rw [ih described more] at disjoint
    cases disjoint

/-- Patterns that are told apart by their shapes describe no common term. -/
theorem Closures.not_fits_of_different {closures : Closures} {earlier : SymbolSet}
    (grows : earlier.Subset reading.mentioned)
    (shapes : ∀ (pattern : Pattern) term, Fits reading pattern term →
      ∃ shape ∈ closures.patternShapes pattern, shape.Describes reading term)
    {left right : Pattern} (different : closures.provablyDifferent earlier left right = true)
    {term : Term} (fits : Fits reading left term) : ¬ Fits reading right term := by
  intro also
  obtain ⟨shape, listed, described⟩ := shapes left term fits
  obtain ⟨other, there, more⟩ := shapes right term also
  have disjoint := List.all_eq_true.mp (List.all_eq_true.mp different shape listed) other there
  rw [shapesOverlap_of_describes grows shapes _ described more] at disjoint
  cases disjoint

end Overlap

/-- The shapes of a rule are those that are collected for it. -/
theorem Closures.shapesOf_ofGrammar {grammar : Grammar} {name : Symbol}
    (known : name ∈ grammar.alternatives.keys) :
    (Closures.ofGrammar grammar).shapesOf name = grammar.shapes name := by
  unfold shapesOf ofGrammar
  have listed : (name, grammar.shapes name) ∈
      grammar.alternatives.keys.map fun name => (name, grammar.shapes name) :=
    List.mem_map.mpr ⟨name, known, rfl⟩
  obtain ⟨shapes, found⟩ := Table.exists_find?_ofList listed
  obtain ⟨other, _, same⟩ := List.mem_map.mp (Table.mem_of_find?_ofList found)
  cases same
  rw [found]
  rfl

namespace Language

variable {language : Language} {grammar : Grammar}

/-- The aliases of the rules of a language are names of its rules. -/
theorem Defined.mem_order_of_alias (defined : language.Defined grammar) {name stem : Symbol}
    (leads : stem ∈ grammar.aliases name) : stem ∈ grammar.order := by
  obtain ⟨alternative, listed, same⟩ := List.mem_filterMap.mp leads
  have resolved := defined.resolved name alternative listed
  cases alternative with
  | nonTerminal found symbol =>
    cases same
    simp only [Pattern.isResolved, Bool.and_eq_true] at resolved
    exact (defined.names stem).mp resolved.1
  | _ => cases same

/-- The rules of a language have ranks above those of their aliases. -/
theorem Defined.exists_rank (defined : language.Defined grammar) :
    ∃ rank : Symbol → Nat, (∀ name, rank name ≤ grammar.order.length) ∧
      ∀ name, ∀ stem ∈ grammar.aliases name, rank stem < rank name := by
  refine Grammar.exists_rank defined.acyclic (fun _ _ => defined.mem_order_of_alias) ?_
  intro name outside
  unfold Grammar.aliases
  rw [defined.absent name outside]
  rfl

/-- Every term that a rule of a language derives has one of its shapes. -/
theorem Defined.exists_shape (defined : language.Defined grammar) {name : Symbol} {term : Term}
    {mentioned : SymbolSet} (derived : Derives (grammar.reading mentioned) name term) :
    ∃ shape ∈ language.closures.shapesOf name,
      shape.Describes (grammar.reading mentioned) term := by
  have known : name ∈ grammar.order := by
    apply Classical.byContradiction
    intro outside
    obtain ⟨alternative, listed, _⟩ := derives_iff.mp derived
    change alternative ∈ grammar.alternativesOf name at listed
    rw [defined.absent name outside] at listed
    cases listed
  obtain ⟨rank, bound, lower⟩ := defined.exists_rank
  have enough : rank name < grammar.alternatives.size + 1 := by
    have count := (List.subperm_of_subset defined.distinct defined.present).length_le
    unfold Table.keys at count
    rw [List.length_map] at count
    exact Nat.lt_succ_of_le (Nat.le_trans (bound name) count)
  rw [defined.closures, Closures.shapesOf_ofGrammar (defined.present name known)]
  exact exists_collectShapes lower _ [] [] name enough nofun derived

/-- Patterns that are told apart describe no common term, also when more literal variables are
met later. -/
theorem Defined.not_fits_of_provablyDifferent (defined : language.Defined grammar)
    {earlier : SymbolSet} (grows : earlier.Subset language.mentioned) {left right : Pattern}
    (different : language.closures.provablyDifferent earlier left right = true) {term : Term}
    (fits : Fits language.reading left term) : ¬ Fits language.reading right term := by
  intro also
  have shapes : ∀ (pattern : Pattern) term,
      Fits (grammar.reading language.mentioned) pattern term →
      ∃ shape ∈ language.closures.patternShapes pattern,
        shape.Describes (grammar.reading language.mentioned) term := by
    intro pattern term fits
    cases pattern with
    | nonTerminal stem symbol => exact defined.exists_shape (fits_nonTerminal.mp fits)
    | _ => exact exists_leafShape fits nofun
  exact Closures.not_fits_of_different grows shapes different (defined.fits_iff.mp fits)
    (defined.fits_iff.mp also)

end Language

end Reduct
