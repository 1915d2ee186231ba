import Mathlib.Data.List.Sort
import Reduct.Table

/-!
# Tables in order

Tables built by insertion list their keys in increasing order. In such a table every key stands
once, so binding a key to the value it has changes nothing, and two tables with the same bindings
are equal.
-/

namespace Reduct.Table

variable {α : Type}

/-- The keys of a table increase. -/
def Sorted (table : Table α) : Prop :=
  table.entries.Pairwise fun earlier later => earlier.1 < later.1

theorem sorted_empty : (empty : Table α).Sorted := List.Pairwise.nil

/-- What an insertion lists was listed before or is the new binding. -/
theorem mem_insertIn {key : Symbol} {value : α} {entry : Symbol × α}
    {entries : List (Symbol × α)} (listed : entry ∈ insertIn key value entries) :
    entry = (key, value) ∨ entry ∈ entries := by
  induction entries with
  | nil => exact .inl (by simpa [insertIn] using listed)
  | cons first rest ih =>
    obtain ⟨name, old⟩ := first
    rw [insertIn] at listed
    split at listed
    · rcases List.mem_cons.mp listed with same | there
      · exact .inl same
      · exact .inr (List.mem_cons_of_mem _ there)
    · split at listed
      · exact (List.mem_cons.mp listed)
      · rcases List.mem_cons.mp listed with same | there
        · exact .inr (by rw [same]; exact List.mem_cons_self)
        · exact (ih there).imp_right (List.mem_cons_of_mem _)

/-- Inserting keeps the keys in order. -/
theorem Sorted.insert {table : Table α} (sorted : table.Sorted) (key : Symbol) (value : α) :
    (table.insert key value).Sorted := by
  obtain ⟨entries⟩ := table
  change (insertIn key value entries).Pairwise _
  change entries.Pairwise _ at sorted
  induction entries with
  | nil => simp [insertIn]
  | cons first rest ih =>
    obtain ⟨name, old⟩ := first
    obtain ⟨head, tail⟩ := List.pairwise_cons.mp sorted
    rw [insertIn]
    split
    · rename_i same
      subst same
      exact List.pairwise_cons.mpr ⟨head, tail⟩
    · rename_i apart
      split
      · rename_i before
        refine List.pairwise_cons.mpr ⟨?_, sorted⟩
        intro entry listed
        rcases List.mem_cons.mp listed with rfl | there
        · exact before
        · exact String.lt_trans before (head entry there)
      · rename_i notBefore
        refine List.pairwise_cons.mpr ⟨?_, ih tail⟩
        intro entry listed
        rcases mem_insertIn listed with rfl | there
        · exact Std.lt_of_le_of_ne (String.not_lt.mp notBefore) apart
        · exact head entry there

/-- A table made of a list of bindings is in order. -/
theorem sorted_ofList (bindings : List (Symbol × α)) : (ofList bindings).Sorted := by
  have each : ∀ (rest : List (Symbol × α)) (table : Table α), table.Sorted →
      (rest.foldl (fun table binding => table.insert binding.1 binding.2) table).Sorted := by
    intro rest
    induction rest with
    | nil => exact fun _ sorted => sorted
    | cons first rest ih => exact fun table sorted => ih _ (sorted.insert _ _)
  exact each bindings empty sorted_empty

/-- A key that comes before every listed one is unbound. -/
theorem findIn_eq_none_of_before {key : Symbol} {entries : List (Symbol × α)}
    (before : ∀ entry ∈ entries, key < entry.1) : findIn key entries = none := by
  induction entries with
  | nil => rfl
  | cons first rest ih =>
    obtain ⟨name, value⟩ := first
    have apart : name ≠ key := (String.ne_of_lt (before _ List.mem_cons_self)).symm
    rw [findIn, if_neg apart]
    exact ih fun entry listed => before entry (List.mem_cons_of_mem _ listed)

/-- Binding a key to the value it has changes nothing. -/
theorem Sorted.insert_self {table : Table α} (sorted : table.Sorted) {key : Symbol} {value : α}
    (found : table.find? key = some value) : table.insert key value = table := by
  obtain ⟨entries⟩ := table
  change entries.Pairwise _ at sorted
  change findIn key entries = some value at found
  change (⟨insertIn key value entries⟩ : Table α) = ⟨entries⟩
  congr 1
  induction entries with
  | nil => cases found
  | cons first rest ih =>
    obtain ⟨name, old⟩ := first
    obtain ⟨head, tail⟩ := List.pairwise_cons.mp sorted
    rw [findIn] at found
    rw [insertIn]
    split at found
    · rename_i same
      rw [if_pos same, same, Option.some.inj found]
    · rename_i apart
      have notBefore : ¬ key < name := by
        intro before
        rw [findIn_eq_none_of_before fun entry listed =>
          String.lt_trans before (head entry listed)] at found
        cases found
      rw [if_neg apart, if_neg notBefore, ih tail found]

/-- A listed binding is the one that is found. -/
theorem Sorted.find?_of_mem {table : Table α} (sorted : table.Sorted) {key : Symbol} {value : α}
    (listed : (key, value) ∈ table.entries) : table.find? key = some value := by
  obtain ⟨entries⟩ := table
  change entries.Pairwise _ at sorted
  change findIn key entries = some value
  induction entries with
  | nil => cases listed
  | cons first rest ih =>
    obtain ⟨name, old⟩ := first
    obtain ⟨head, tail⟩ := List.pairwise_cons.mp sorted
    rw [findIn]
    rcases List.mem_cons.mp listed with same | there
    · obtain ⟨rfl, rfl⟩ := Prod.mk.inj same
      rw [if_pos rfl]
    · have apart : name ≠ key := String.ne_of_lt (head _ there)
      rw [if_neg apart, ih there tail]

/-- A binding that is found is listed. -/
theorem mem_of_find? {table : Table α} {key : Symbol} {value : α}
    (found : table.find? key = some value) : (key, value) ∈ table.entries := by
  obtain ⟨entries⟩ := table
  change findIn key entries = some value at found
  induction entries with
  | nil => cases found
  | cons first rest ih =>
    obtain ⟨name, old⟩ := first
    rw [findIn] at found
    split at found
    · rename_i same
      rw [Option.some.inj found, same]
      exact List.mem_cons_self
    · exact List.mem_cons_of_mem _ (ih found)

/-- Tables in order that find the same are equal. -/
theorem Sorted.eq_of_find? {one two : Table α} (sorted : one.Sorted) (ordered : two.Sorted)
    (same : ∀ key, one.find? key = two.find? key) : one = two := by
  have irreflexive : Std.Irrefl fun earlier later : Symbol × α => earlier.1 < later.1 :=
    ⟨fun entry => String.lt_irrefl entry.1⟩
  have entries : one.entries = two.entries := by
    refine List.Pairwise.eq_of_mem_iff sorted ordered fun entry => ?_
    constructor
    · intro listed
      exact mem_of_find? (by rw [← same, sorted.find?_of_mem listed])
    · intro listed
      exact mem_of_find? (by rw [same, ordered.find?_of_mem listed])
  cases one
  cases two
  exact congrArg Table.mk entries

theorem find?_empty (key : Symbol) : (empty : Table α).find? key = none := rfl

theorem find?_insert_self (table : Table α) (key : Symbol) (value : α) :
    (table.insert key value).find? key = some value := by
  rw [find?_insert, if_pos rfl]

theorem find?_insert_ne (table : Table α) {key other : Symbol} (value : α)
    (apart : key ≠ other) : (table.insert key value).find? other = table.find? other := by
  rw [find?_insert, if_neg apart]

/-- What a table made of a list finds is a binding of the list. -/
theorem mem_of_find?_ofList {bindings : List (Symbol × α)} {key : Symbol} {value : α}
    (found : (ofList bindings).find? key = some value) : (key, value) ∈ bindings := by
  have each : ∀ (rest : List (Symbol × α)) (table : Table α),
      (rest.foldl (fun table binding => table.insert binding.1 binding.2) table).find? key =
        some value → (key, value) ∈ rest ∨ table.find? key = some value := by
    intro rest
    induction rest with
    | nil => exact fun _ found => .inr found
    | cons first rest ih =>
      intro table found
      rcases ih _ found with later | here
      · exact .inl (List.mem_cons_of_mem _ later)
      · rw [find?_insert] at here
        split at here
        · rename_i same
          have value' := Option.some.inj here
          rw [← same, ← value']
          exact .inl List.mem_cons_self
        · exact .inr here
  rcases each bindings empty found with listed | nowhere
  · exact listed
  · cases nowhere

/-- A table made of a list binds every key of the list. -/
theorem exists_find?_ofList {bindings : List (Symbol × α)} {key : Symbol} {value : α}
    (listed : (key, value) ∈ bindings) : ∃ found, (ofList bindings).find? key = some found := by
  have each : ∀ (rest : List (Symbol × α)) (table : Table α),
      ((key, value) ∈ rest ∨ ∃ found, table.find? key = some found) →
      ∃ found, (rest.foldl (fun table binding => table.insert binding.1 binding.2) table).find?
        key = some found := by
    intro rest
    induction rest with
    | nil =>
      rintro table (nowhere | there)
      · cases nowhere
      · exact there
    | cons first rest ih =>
      rintro table (here | ⟨found, there⟩)
      · rcases List.mem_cons.mp here with rfl | later
        · exact ih _ (.inr ⟨value, find?_insert_self _ _ _⟩)
        · exact ih _ (.inl later)
      · refine ih _ (.inr ?_)
        rw [find?_insert]
        split
        · exact ⟨_, rfl⟩
        · exact ⟨found, there⟩
  exact each bindings empty (.inl listed)

/-- With distinct keys, a table made of a list finds every binding of the list. -/
theorem find?_ofList_of_mem {bindings : List (Symbol × α)} {key : Symbol} {value : α}
    (distinct : (bindings.map (·.1)).Nodup) (listed : (key, value) ∈ bindings) :
    (ofList bindings).find? key = some value := by
  have each : ∀ (rest : List (Symbol × α)) (table : Table α), (rest.map (·.1)).Nodup →
      ((key, value) ∈ rest ∨ (table.find? key = some value ∧ key ∉ rest.map (·.1))) →
      (rest.foldl (fun table binding => table.insert binding.1 binding.2) table).find? key =
        some value := by
    intro rest
    induction rest with
    | nil =>
      rintro table _ (there | ⟨found, _⟩)
      · cases there
      · exact found
    | cons first rest ih =>
      rintro table distinct given
      obtain ⟨fresh, others⟩ := List.nodup_cons.mp distinct
      refine ih _ others ?_
      rcases given with there | ⟨found, absent⟩
      · rcases List.mem_cons.mp there with same | later
        · refine .inr ⟨?_, ?_⟩
          · rw [← same, find?_insert_self]
          · rw [← same] at fresh
            exact fresh
        · exact .inl later
      · rw [List.map_cons, List.mem_cons, not_or] at absent
        refine .inr ⟨?_, absent.2⟩
        rw [find?_insert_ne _ _ (Ne.symm absent.1), found]
  exact each bindings empty distinct (.inl listed)

/-- A key that no binding of a list has is unbound in its table. -/
theorem find?_ofList_eq_none {bindings : List (Symbol × α)} {key : Symbol}
    (absent : key ∉ bindings.map (·.1)) : (ofList bindings).find? key = none := by
  have each : ∀ (rest : List (Symbol × α)) (table : Table α), key ∉ rest.map (·.1) →
      table.find? key = none →
      (rest.foldl (fun table binding => table.insert binding.1 binding.2) table).find? key =
        none := by
    intro rest
    induction rest with
    | nil => exact fun _ _ unbound => unbound
    | cons first rest ih =>
      intro table absent unbound
      rw [List.map_cons, List.mem_cons, not_or] at absent
      refine ih _ absent.2 ?_
      rw [find?_insert_ne _ _ (Ne.symm absent.1), unbound]
  exact each bindings empty absent (find?_empty key)

end Reduct.Table

namespace Reduct.SymbolSet

/-- Every member of one set is a member of the other. -/
def Subset (smaller larger : SymbolSet) : Prop :=
  ∀ name, smaller.contains name = true → larger.contains name = true

theorem Subset.refl (set : SymbolSet) : set.Subset set := fun _ listed => listed

theorem Subset.trans {first second third : SymbolSet} (left : first.Subset second)
    (right : second.Subset third) : first.Subset third :=
  fun name listed => right name (left name listed)

/-- A set made of a list has its members. -/
theorem contains_ofList (symbols : List Symbol) (name : Symbol) :
    (ofList symbols).contains name = true ↔ name ∈ symbols := by
  have each : ∀ (rest : List Symbol) (set : SymbolSet),
      (rest.foldl insert set).contains name = true ↔ name ∈ rest ∨ set.contains name = true := by
    intro rest
    induction rest with
    | nil => simp
    | cons first rest ih =>
      intro set
      rw [List.foldl_cons, ih, contains_insert, List.mem_cons]
      constructor
      · rintro (later | same | before)
        · exact .inl (.inr later)
        · exact .inl (.inl same)
        · exact .inr before
      · rintro ((same | later) | before)
        · exact .inr (.inl same)
        · exact .inl later
        · exact .inr (.inr before)
  rw [ofList, each]
  simp [contains, empty]

/-- The members stand in increasing order. -/
def Sorted (set : SymbolSet) : Prop := set.members.Pairwise (· < ·)

theorem Sorted.insert {set : SymbolSet} (sorted : set.Sorted) (symbol : Symbol) :
    (set.insert symbol).Sorted := by
  obtain ⟨members⟩ := set
  change (insertIn symbol members).Pairwise _
  change members.Pairwise _ at sorted
  induction members with
  | nil => simp [insertIn]
  | cons head rest ih =>
    obtain ⟨above, ordered⟩ := List.pairwise_cons.mp sorted
    rw [insertIn]
    split
    · exact sorted
    · rename_i apart
      split
      · rename_i before
        refine List.pairwise_cons.mpr ⟨List.forall_mem_cons.mpr ⟨before, fun other listed => ?_⟩,
          sorted⟩
        exact String.lt_trans before (above other listed)
      · rename_i notBefore
        refine List.pairwise_cons.mpr ⟨fun other listed => ?_, ih ordered⟩
        rcases (mem_insertIn symbol other rest).mp listed with rfl | there
        · exact Std.lt_of_le_of_ne (String.not_lt.mp notBefore) apart
        · exact above other there

/-- A set made of a list is in order. -/
theorem sorted_ofList (symbols : List Symbol) : (ofList symbols).Sorted := by
  have each : ∀ (rest : List Symbol) (set : SymbolSet), set.Sorted →
      (rest.foldl insert set).Sorted := by
    intro rest
    induction rest with
    | nil => exact fun _ => id
    | cons first rest ih => exact fun set sorted => ih _ (sorted.insert first)
  exact each symbols empty .nil

/-- Lists with the same members make one set. -/
theorem ofList_congr {one two : List Symbol} (same : ∀ name, name ∈ one ↔ name ∈ two) :
    ofList one = ofList two := by
  have irreflexive : Std.Irrefl fun earlier later : Symbol => earlier < later :=
    ⟨fun name => String.lt_irrefl name⟩
  have members : (ofList one).members = (ofList two).members := by
    refine List.Pairwise.eq_of_mem_iff (sorted_ofList one) (sorted_ofList two) fun name => ?_
    have left := contains_ofList one name
    have right := contains_ofList two name
    rw [contains, decide_eq_true_iff] at left right
    exact left.trans ((same name).trans right.symm)
  cases first : ofList one
  cases second : ofList two
  rw [first, second] at members
  exact congrArg SymbolSet.mk members

end Reduct.SymbolSet
