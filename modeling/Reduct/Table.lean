/-!
# Tables keyed by symbols

A table keeps its entries in increasing order of their keys, so two tables with the same
bindings are the same value and every listing of a table is sorted. A set of symbols is kept
the same way. Symbols are ordered by their code points, which is the order of their bytes.

Main statements: reading a key after an insertion (`Table.find?_insert`) and after an erasure
from a sorted table, and membership after an insertion (`SymbolSet.mem_insert`).
-/

namespace Reduct

/-- The text of a name: a variable, a non-terminal, a pattern variable or a generated name. -/
abbrev Symbol := String

/-- Whether two lists hold the same members, whatever their order and repetitions. -/
def sameMembers {α : Type} [DecidableEq α] (left right : List α) : Bool :=
  left.all (fun item => decide (item ∈ right)) && right.all (fun item => decide (item ∈ left))

/-- A finite map from symbols to values, listed in increasing order of its keys. -/
structure Table (α : Type) where
  /-- The bindings, each key once, in increasing order. -/
  entries : List (Symbol × α)
deriving DecidableEq

namespace Table

variable {α β : Type}

/-- The table with no bindings. -/
def empty : Table α := ⟨[]⟩

instance : EmptyCollection (Table α) := ⟨empty⟩
instance : Inhabited (Table α) := ⟨empty⟩

/-- The value under a key in a list of bindings. -/
def findIn (key : Symbol) : List (Symbol × α) → Option α
  | [] => none
  | (name, value) :: rest => if name = key then some value else findIn key rest

/-- The value bound to a key. -/
def find? (table : Table α) (key : Symbol) : Option α := findIn key table.entries

/-- Whether a key is bound. -/
def contains (table : Table α) (key : Symbol) : Bool := (table.find? key).isSome

/-- Put a binding at its place in a sorted list, over any earlier binding of its key. -/
def insertIn (key : Symbol) (value : α) : List (Symbol × α) → List (Symbol × α)
  | [] => [(key, value)]
  | (name, old) :: rest =>
    if name = key then (key, value) :: rest
    else if key < name then (key, value) :: (name, old) :: rest
    else (name, old) :: insertIn key value rest

/-- Bind a key, replacing the value it had. -/
def insert (table : Table α) (key : Symbol) (value : α) : Table α :=
  ⟨insertIn key value table.entries⟩

/-- Remove the bindings of a key. -/
def erase (table : Table α) (key : Symbol) : Table α :=
  ⟨table.entries.filter fun entry => entry.1 ≠ key⟩

/-- The bound keys, in increasing order. -/
def keys (table : Table α) : List Symbol := table.entries.map (·.1)

/-- The bound values, in the order of their keys. -/
def values (table : Table α) : List α := table.entries.map (·.2)

/-- The number of bindings. -/
def size (table : Table α) : Nat := table.entries.length

/-- The table of a list of bindings; a later binding of a key replaces an earlier one. -/
def ofList (bindings : List (Symbol × α)) : Table α :=
  bindings.foldl (fun table binding => table.insert binding.1 binding.2) empty

/-- Reading an inserted key gives its value, and every other key reads as before. -/
theorem findIn_insertIn (key other : Symbol) (value : α) (entries : List (Symbol × α)) :
    findIn other (insertIn key value entries) =
      if key = other then some value else findIn other entries := by
  induction entries with
  | nil => simp [insertIn, findIn]
  | cons entry rest ih =>
    obtain ⟨name, old⟩ := entry
    by_cases same : name = key
    · subst same
      by_cases hit : name = other <;> simp [insertIn, findIn, hit]
    · by_cases before : key < name
      · simp [insertIn, findIn, same, before]
      · by_cases hit : name = other
        · subst hit
          have apart : ¬ key = name := fun equal => same equal.symm
          simp [insertIn, findIn, same, before, apart]
        · simp [insertIn, findIn, same, before, hit, ih]

/-- Reading an inserted key gives its value, and every other key reads as before. -/
theorem find?_insert (table : Table α) (key other : Symbol) (value : α) :
    (table.insert key value).find? other =
      if key = other then some value else table.find? other :=
  findIn_insertIn key other value table.entries

/-- Erasing a key unbinds it, and every other key reads as before. -/
theorem findIn_filter_ne (key other : Symbol) (entries : List (Symbol × α)) :
    findIn other (entries.filter fun entry => entry.1 ≠ key) =
      if key = other then none else findIn other entries := by
  induction entries with
  | nil => simp [findIn]
  | cons entry rest ih =>
    obtain ⟨name, old⟩ := entry
    by_cases same : name = key
    · subst same
      by_cases hit : name = other
      · simpa [findIn, hit] using ih
      · simpa [findIn, hit] using ih
    · by_cases hit : name = other
      · subst hit
        have apart : ¬ key = name := fun equal => same equal.symm
        simp [findIn, same, apart]
      · simpa [findIn, same, hit] using ih

/-- Erasing a key unbinds it, and every other key reads as before. -/
theorem find?_erase (table : Table α) (key other : Symbol) :
    (table.erase key).find? other = if key = other then none else table.find? other :=
  findIn_filter_ne key other table.entries

end Table

/-- A finite set of symbols, listed in increasing order. -/
structure SymbolSet where
  /-- The members, each once, in increasing order. -/
  members : List Symbol
deriving DecidableEq

namespace SymbolSet

/-- The set with no members. -/
def empty : SymbolSet := ⟨[]⟩

instance : EmptyCollection SymbolSet := ⟨empty⟩
instance : Inhabited SymbolSet := ⟨empty⟩

/-- Whether a symbol is in the set. -/
def contains (set : SymbolSet) (symbol : Symbol) : Bool := decide (symbol ∈ set.members)

/-- Put a symbol at its place in a sorted list, unless it is there. -/
def insertIn (symbol : Symbol) : List Symbol → List Symbol
  | [] => [symbol]
  | head :: rest =>
    if head = symbol then head :: rest
    else if symbol < head then symbol :: head :: rest
    else head :: insertIn symbol rest

/-- Add a symbol. -/
def insert (set : SymbolSet) (symbol : Symbol) : SymbolSet := ⟨insertIn symbol set.members⟩

/-- The set of the symbols of a list. -/
def ofList (symbols : List Symbol) : SymbolSet := symbols.foldl insert empty

/-- The members after an insertion are the earlier ones and the new one. -/
theorem mem_insertIn (symbol other : Symbol) (members : List Symbol) :
    other ∈ insertIn symbol members ↔ other = symbol ∨ other ∈ members := by
  induction members with
  | nil => simp [insertIn]
  | cons head rest ih =>
    by_cases same : head = symbol
    · subst same
      simp [insertIn]
    · by_cases before : symbol < head
      · simp [insertIn, same, before]
      · simp only [insertIn, same, before, if_false, List.mem_cons, ih]
        exact or_left_comm

/-- A symbol is in the set after an insertion when it was there or is the new one. -/
theorem contains_insert (set : SymbolSet) (symbol other : Symbol) :
    (set.insert symbol).contains other = true ↔ other = symbol ∨ set.contains other = true := by
  simp [contains, insert, mem_insertIn]

end SymbolSet

end Reduct
