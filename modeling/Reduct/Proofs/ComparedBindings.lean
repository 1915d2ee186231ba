import Reduct.Proofs.Levels
import Reduct.Proofs.WrittenForms

/-!
# Comparing bindings

Expected bindings are built by adding terms to symbols, one symbol after another, and this is
possible exactly if no symbol is named twice. They are compared with the bindings of matches as the
terms that they give to symbols, whether these were bound in an ellipsis or outside of it.
-/

namespace Reduct

namespace Bindings

/-! ## Bindings outside of ellipses -/

/-- Every bound symbol has one level, which holds a term. -/
def Scalar (bindings : Bindings) : Prop :=
  ∀ symbol stack, bindings.bound.find? symbol = some stack → ∃ term, stack = [.scalar term]

theorem scalar_empty : Scalar .empty := nofun

theorem Scalar.finished {bindings : Bindings} (scalar : bindings.Scalar) : bindings.Finished :=
  fun symbol stack found =>
    let ⟨term, same⟩ := scalar symbol stack found
    ⟨.scalar term, same⟩

/-- What is added to scalar bindings is a new symbol. -/
theorem Scalar.toOption_add {bindings after : Bindings} (scalar : bindings.Scalar)
    {symbol : Symbol} {term : Term} : (bindings.add symbol term).toOption = some after ↔
      bindings.lookup symbol = none ∧ after = bindings.withLevels symbol [.scalar term] := by
  cases found : bindings.bound.find? symbol with
  | some stack =>
    obtain ⟨previous, rfl⟩ := scalar symbol stack found
    simp [Bindings.add, levels, lookup, found, Except.toOption]
  | none => simp [Bindings.add, levels, lookup, found, Except.toOption, eq_comm]

theorem lookup_withLevels (bindings : Bindings) (symbol other : Symbol) (term : Term) :
    (bindings.withLevels symbol [.scalar term]).lookup other =
      if symbol = other then some term else bindings.lookup other := by
  rw [lookup, withLevels, Table.find?_insert]
  by_cases same : symbol = other
  · rw [if_pos same, if_pos same]
    rfl
  · rw [if_neg same, if_neg same, lookup]

theorem Scalar.withLevels {bindings : Bindings} (scalar : bindings.Scalar) (symbol : Symbol)
    (term : Term) : (bindings.withLevels symbol [.scalar term]).Scalar := by
  intro other stack found
  unfold Bindings.withLevels at found
  rw [Table.find?_insert] at found
  split at found
  · cases found
    exact ⟨term, rfl⟩
  · exact scalar other stack found

/-! ## Expected bindings -/

/-- Terms bound to symbols one after another. There is no outcome if a symbol cannot be bound. -/
def addAll? (bindings : Bindings) (pairs : List (Symbol × Term)) : Option Bindings :=
  pairs.foldlM (fun known pair => (known.add pair.1 pair.2).toOption) bindings

theorem addAll?_cons (bindings : Bindings) (pair : Symbol × Term) (rest : List (Symbol × Term)) :
    bindings.addAll? (pair :: rest) =
      (bindings.add pair.1 pair.2).toOption.bind fun known => known.addAll? rest := rfl

/-- Terms that are added to scalar bindings are those of the symbols that were unbound. -/
theorem Scalar.addAll? {pairs : List (Symbol × Term)} :
    ∀ {bindings after : Bindings}, bindings.Scalar → bindings.WellFormed →
      bindings.addAll? pairs = some after → after.Scalar ∧ after.WellFormed ∧
        ∀ symbol, after.lookup symbol = (bindings.lookup symbol).or (pairs.lookup symbol) := by
  induction pairs with
  | nil =>
    intro bindings after scalar wellFormed added
    cases added
    exact ⟨scalar, wellFormed, fun symbol => (Option.or_none).symm⟩
  | cons pair rest ih =>
    intro bindings after scalar wellFormed added
    obtain ⟨name, term⟩ := pair
    rw [addAll?_cons] at added
    obtain ⟨middle, here, later⟩ := Option.bind_eq_some_iff.mp added
    obtain ⟨unbound, rfl⟩ := scalar.toOption_add.mp here
    obtain ⟨last, formed, values⟩ :=
      ih (scalar.withLevels name term) (wellFormed.withLevels name (List.cons_ne_nil _ _)) later
    refine ⟨last, formed, fun symbol => ?_⟩
    rw [values, lookup_withLevels, List.lookup_cons]
    by_cases same : name = symbol
    · subst same
      simp [unbound]
    · have apart : (symbol == name) = false := beq_false_of_ne (Ne.symm same)
      rw [if_neg same, apart]

/-- Terms can be added to scalar bindings if every symbol is new and named once. -/
theorem Scalar.exists_addAll? {pairs : List (Symbol × Term)} :
    ∀ {bindings : Bindings}, bindings.Scalar → (pairs.map (·.1)).Nodup →
      (∀ pair ∈ pairs, bindings.lookup pair.1 = none) → (bindings.addAll? pairs).isSome = true := by
  induction pairs with
  | nil => exact fun _ _ _ => rfl
  | cons pair rest ih =>
    intro bindings scalar distinct unbound
    obtain ⟨here, later⟩ := List.forall_mem_cons.mp unbound
    rw [List.map_cons, List.nodup_cons] at distinct
    rw [addAll?_cons, scalar.toOption_add.mpr ⟨here, rfl⟩]
    refine ih (scalar.withLevels _ _) distinct.2 fun other listed => ?_
    have apart : pair.1 ≠ other.1 := fun same =>
      distinct.1 (same ▸ List.mem_map_of_mem listed)
    rw [lookup_withLevels, if_neg apart, later other listed]

/-- Expected bindings are finished. -/
theorem finished_addAll? {expected : List (List (Symbol × Term))} {results : List Bindings}
    (built : expected.mapM (fun pairs => empty.addAll? pairs) = some results) :
    ∀ bindings ∈ results, bindings.Finished ∧ bindings.WellFormed := by
  intro bindings listed
  obtain ⟨pairs, _, here⟩ := exists_of_mem_right (mapM_eq_some.mp built) listed
  obtain ⟨scalar, wellFormed, _⟩ := scalar_empty.addAll? wellFormed_empty here
  exact ⟨scalar.finished, wellFormed⟩

/-! ## Equal bindings -/

/-- The terms of finished bindings, in the order of the symbols. -/
theorem Finished.exists_toList {bindings : Bindings} (finished : bindings.Finished)
    (sorted : bindings.bound.Sorted) : ∃ table : Table Term,
      bindings.toList = .ok table.entries ∧ table.Sorted ∧
        ∀ symbol, table.find? symbol = bindings.lookup symbol := by
  have single : ∀ entry ∈ bindings.bound.entries, ∃ level, entry.2 = [level] ∧
      bindings.lookup entry.1 = some level.toTerm := by
    intro entry listed
    have found := sorted.find?_of_mem listed
    obtain ⟨level, same⟩ := finished entry.1 entry.2 found
    exact ⟨level, same, by rw [lookup, found, same]⟩
  let term : Symbol × List Level → Symbol × Term := fun entry =>
    (entry.1, (bindings.lookup entry.1).getD (.sequence []))
  let table : Table Term := ⟨bindings.bound.entries.map term⟩
  have ordered : table.Sorted := List.pairwise_map.mpr sorted
  refine ⟨table, ?_, ordered, fun symbol => ?_⟩
  · rw [toList, Table.keys, mapM_eq_ok, List.forall₂_map_left_iff, List.forall₂_map_right_iff,
      List.forall₂_same]
    intro entry listed
    obtain ⟨level, _, known⟩ := single entry listed
    simp only [get, known, term, Option.getD_some]
    rfl
  · cases found : bindings.bound.find? symbol with
    | some stack =>
      have listed := Table.mem_of_find? found
      obtain ⟨level, _, known⟩ := single _ listed
      rw [known]
      refine ordered.find?_of_mem (List.mem_map.mpr ⟨_, listed, ?_⟩)
      simp only [term, known, Option.getD_some]
    | none =>
      rw [lookup, found]
      refine Option.eq_none_iff_forall_ne_some.mpr fun value there => ?_
      obtain ⟨entry, listed, same⟩ := List.mem_map.mp (Table.mem_of_find? there)
      obtain rfl : entry.1 = symbol := congrArg Prod.fst same
      rw [sorted.find?_of_mem listed] at found
      cases found

/-- Finished bindings are listed as the same terms exactly if they give the same terms. -/
theorem toList_inj {one two : Bindings} (finished : one.Finished) (other : two.Finished)
    (sorted : one.bound.Sorted) (ordered : two.bound.Sorted)
    {left right : List (Symbol × Term)} (first : one.toList = .ok left)
    (second : two.toList = .ok right) : left = right ↔ one.lookup = two.lookup := by
  obtain ⟨table, listed, sorted, found⟩ := finished.exists_toList sorted
  obtain ⟨table', listed', sorted', found'⟩ := other.exists_toList ordered
  rw [listed] at first
  rw [listed'] at second
  cases first
  cases second
  constructor
  · intro same
    have equal : table = table' := by
      cases table
      exact congrArg Table.mk same
    funext symbol
    rw [← found, ← found', equal]
  · intro same
    have equal := sorted.eq_of_find? sorted' fun symbol => by rw [found, found', same]
    rw [equal]

/-- Finished bindings can be compared. They are the same exactly if they give the same terms, in
any order and number. -/
theorem exists_sameMatches {left right : List Bindings}
    (one : ∀ bindings ∈ left, bindings.Finished ∧ bindings.WellFormed)
    (two : ∀ bindings ∈ right, bindings.Finished ∧ bindings.WellFormed) :
    ∃ same, sameMatches left right = .ok same ∧
      (same = true ↔ ∀ assignment : Assignment, (∃ bindings ∈ left, bindings.lookup = assignment) ↔
        ∃ bindings ∈ right, bindings.lookup = assignment) := by
  have listing : ∀ {all : List Bindings},
      (∀ bindings ∈ all, bindings.Finished ∧ bindings.WellFormed) →
      ∃ lists, all.mapM toList = .ok lists ∧
        List.Forall₂ (fun bindings listed => bindings.toList = .ok listed) all lists := by
    intro all fine
    induction all with
    | nil => exact ⟨[], rfl, .nil⟩
    | cons first rest ih =>
      obtain ⟨here, later⟩ := List.forall_mem_cons.mp fine
      obtain ⟨table, listed, _⟩ := here.1.exists_toList here.2.sorted
      obtain ⟨lists, _, each⟩ := ih later
      exact ⟨_, mapM_eq_ok.mpr (.cons listed each), .cons listed each⟩
  obtain ⟨firsts, listed, each⟩ := listing one
  obtain ⟨seconds, listed', each'⟩ := listing two
  refine ⟨sameMembers firsts seconds, ?_, ?_⟩
  · rw [sameMatches, listed, listed']
    rfl
  -- Every list of the one side is on the other side if its assignment is.
  have covered : ∀ {some others : List Bindings} {lists rest : List (List (Symbol × Term))},
      (∀ bindings ∈ some, bindings.Finished ∧ bindings.WellFormed) →
      (∀ bindings ∈ others, bindings.Finished ∧ bindings.WellFormed) →
      List.Forall₂ (fun bindings listed => bindings.toList = .ok listed) some lists →
      List.Forall₂ (fun bindings listed => bindings.toList = .ok listed) others rest →
      ((∀ item ∈ lists, item ∈ rest) ↔
        ∀ bindings ∈ some, ∃ other ∈ others, other.lookup = bindings.lookup) := by
    intro some others lists rest fine also all each
    constructor
    · intro within bindings listed
      obtain ⟨item, there, shown⟩ := exists_of_mem_left all listed
      obtain ⟨other, among, equal⟩ := exists_of_mem_right each (within item there)
      refine ⟨other, among, ?_⟩
      exact (toList_inj (also _ among).1 (fine _ listed).1 (also _ among).2.sorted
        (fine _ listed).2.sorted equal shown).mp rfl
    · intro within item listed
      obtain ⟨bindings, there, shown⟩ := exists_of_mem_right all listed
      obtain ⟨other, among, equal⟩ := within bindings there
      obtain ⟨result, inside, written⟩ := exists_of_mem_left each among
      rwa [← (toList_inj (also _ among).1 (fine _ there).1 (also _ among).2.sorted
        (fine _ there).2.sorted written shown).mpr equal]
  rw [sameMembers, Bool.and_eq_true, List.all_eq_true, List.all_eq_true]
  simp only [decide_eq_true_eq]
  rw [covered one two each each', covered two one each' each]
  constructor
  · rintro ⟨here, there⟩ assignment
    constructor
    · rintro ⟨bindings, listed, rfl⟩
      exact here bindings listed
    · rintro ⟨bindings, listed, rfl⟩
      exact there bindings listed
  · intro same
    exact ⟨fun bindings listed => (same _).mp ⟨bindings, listed, rfl⟩,
      fun bindings listed => (same _).mpr ⟨bindings, listed, rfl⟩⟩

end Bindings

end Reduct
