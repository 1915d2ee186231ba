import Mathlib.Data.List.Forall2
import Reduct.Machine.Primitive
import Reduct.Proofs.Frontier

/-!
# Lists in the store

Code builds new cells and extends lists of its own; all other cells stay as they are. A list of
pairs stands for the entries of a frontier: each pair holds the place of bindings and a position.
-/

namespace Reduct

namespace Store

/-- What a place holds, if it is in use. -/
def cell? (store : Store) (place : Nat) : Option Cell := store.cells[place]?

/-- The next free place. -/
def size (store : Store) : Nat := store.cells.size

/-- The store with a new cell at the next free place. -/
def addCell (store : Store) (cell : Cell) : Store := ⟨store.cells.push cell, store.pairCount⟩

/-- The store with one more pair made. -/
def addPair (store : Store) : Store := ⟨store.cells, store.pairCount + 1⟩

/-- The store with other bindings at a place. -/
def setBindings (store : Store) (place : Nat) (content : Bindings) : Store :=
  ⟨store.cells.setIfInBounds place (.bindings content), store.pairCount⟩

/-- The store with values added to the list at a place. -/
def extendList (store : Store) (place : Nat) (added : List Value) : Store :=
  ⟨store.cells.modify place (extendCell added), store.pairCount⟩

variable (store : Store)

theorem cell?_size : store.cell? store.size = none := by
  unfold cell? size
  exact Array.getElem?_eq_none_iff.mpr (Nat.le_refl _)

theorem lt_size_of_cell? {place : Nat} {cell : Cell} (held : store.cell? place = some cell) :
    place < store.size := by
  unfold cell? at held
  exact (Array.getElem?_eq_some_iff.mp held).1

theorem cell?_addCell (cell : Cell) (place : Nat) :
    (store.addCell cell).cell? place =
      if place = store.size then some cell else store.cell? place := by
  unfold addCell cell? size
  rw [Array.getElem?_push]

theorem cell?_addCell_self (cell : Cell) : (store.addCell cell).cell? store.size = some cell := by
  rw [store.cell?_addCell, if_pos rfl]

theorem cell?_setBindings {place : Nat} {cell : Cell} (held : store.cell? place = some cell)
    (content : Bindings) (other : Nat) :
    (store.setBindings place content).cell? other =
      if other = place then some (.bindings content) else store.cell? other := by
  have bound := store.lt_size_of_cell? held
  unfold size at bound
  unfold setBindings cell?
  rw [Array.getElem?_setIfInBounds]
  by_cases same : place = other
  · rw [if_pos same, if_pos same.symm, if_pos (same ▸ bound)]
  · rw [if_neg same, if_neg fun back => same back.symm]

theorem cell?_extendList {place : Nat} {items : Array Value}
    (held : store.cell? place = some (.list items)) (added : List Value) (other : Nat) :
    (store.extendList place added).cell? other =
      if other = place then some (.list (items ++ added.toArray)) else store.cell? other := by
  unfold cell? at held
  unfold extendList cell?
  rw [Array.getElem?_modify]
  by_cases same : place = other
  · subst same
    rw [if_pos rfl, if_pos rfl, held]
    simp [extendCell, List.foldl_push_eq_append']
  · rw [if_neg same, if_neg fun back => same back.symm]

theorem bindings?_of_cell? {place : Nat} {content : Bindings}
    (held : store.cell? place = some (.bindings content)) :
    store.bindings? place = some content := by
  unfold cell? at held
  unfold bindings?
  rw [held]

theorem list?_of_cell? {place : Nat} {items : Array Value}
    (held : store.cell? place = some (.list items)) : store.list? place = some items := by
  unfold cell? at held
  unfold list?
  rw [held]

/-- All cells of a store are as they were. -/
def Keeps (before after : Store) : Prop :=
  ∀ place cell, before.cell? place = some cell → after.cell? place = some cell

/-- All cells of a store but one are as they were. -/
def KeepsBut (place : Nat) (before after : Store) : Prop :=
  ∀ other cell, other ≠ place → before.cell? other = some cell → after.cell? other = some cell

variable {store}

theorem Keeps.refl (store : Store) : store.Keeps store := fun _ _ held => held

theorem Keeps.trans {first second third : Store} (one : first.Keeps second)
    (two : second.Keeps third) : first.Keeps third :=
  fun place cell held => two place cell (one place cell held)

/-- A place that is free later was free before. -/
theorem Keeps.free {before after : Store} (keeps : before.Keeps after) {place : Nat}
    (free : after.cell? place = none) : before.cell? place = none := by
  match held : before.cell? place with
  | none => rfl
  | some cell => exact absurd ((keeps place cell held).symm.trans free) nofun

theorem Keeps.but {before after : Store} (keeps : before.Keeps after) (place : Nat) :
    KeepsBut place before after :=
  fun other cell _ held => keeps other cell held

theorem KeepsBut.trans {place : Nat} {first second third : Store}
    (one : KeepsBut place first second) (two : KeepsBut place second third) :
    KeepsBut place first third :=
  fun other cell away held => two other cell away (one other cell away held)

/-- What is changed at a place that was free before is kept from before. -/
theorem Keeps.trans_but {first second third : Store} {place : Nat} (one : first.Keeps second)
    (free : first.cell? place = none) (two : KeepsBut place second third) : first.Keeps third := by
  intro other cell held
  refine two other cell ?_ (one other cell held)
  intro same
  rw [same, free] at held
  cases held

theorem keeps_addCell (store : Store) (cell : Cell) : store.Keeps (store.addCell cell) := by
  intro place other held
  rw [cell?_addCell, if_neg, held]
  intro same
  rw [same, store.cell?_size] at held
  cases held

theorem keeps_addPair (store : Store) : store.Keeps store.addPair := fun _ _ held => held

theorem keepsBut_setBindings {place : Nat} {cell : Cell} (held : store.cell? place = some cell)
    (content : Bindings) : KeepsBut place store (store.setBindings place content) := by
  intro other kept away found
  rw [store.cell?_setBindings held, if_neg away, found]

theorem keepsBut_extendList {place : Nat} {items : Array Value}
    (held : store.cell? place = some (.list items)) (added : List Value) :
    KeepsBut place store (store.extendList place added) := by
  intro other kept away found
  rw [store.cell?_extendList held, if_neg away, found]

/-- All bindings of a store are as they were. -/
def KeepsBindings (before after : Store) : Prop :=
  ∀ place content, before.cell? place = some (.bindings content) →
    after.cell? place = some (.bindings content)

theorem Keeps.bindings {before after : Store} (keeps : before.Keeps after) :
    before.KeepsBindings after :=
  fun place content held => keeps place (.bindings content) held

/-- Bindings are kept where only a list changes. -/
theorem KeepsBut.bindings {before after : Store} {place : Nat} {items : Array Value}
    (keeps : KeepsBut place before after) (held : before.cell? place = some (.list items)) :
    before.KeepsBindings after := by
  intro other content found
  refine keeps other _ ?_ found
  intro same
  rw [same, held] at found
  cases found

end Store

/-- How values of a store show things of one kind. What is shown depends on the bindings of the
store alone. -/
structure Display (α : Type) where
  shows : Store → Value → α → Prop
  stable : ∀ {before after : Store} {value : Value} {content : α},
    before.KeepsBindings after → shows before value content → shows after value content

namespace Display

/-- Bindings by their place. -/
def found : Display Bindings where
  shows store value content :=
    ∃ place, value = .bindings place ∧ store.cell? place = some (.bindings content)
  stable := by
    rintro before after value content keeps ⟨place, rfl, held⟩
    exact ⟨place, rfl, keeps place content held⟩

/-- Bindings and a position in a pair. -/
def entry : Display Reached where
  shows store value content :=
    ∃ identity place, value = .pair identity (.bindings place) (.int (wordOfCount content.2)) ∧
      store.cell? place = some (.bindings content.1)
  stable := by
    rintro before after value content keeps ⟨identity, place, rfl, held⟩
    exact ⟨identity, place, rfl, keeps place content.1 held⟩

/-- A subterm and its path in a pair. -/
def subterm : Display (Path × Term) where
  shows _ value content :=
    ∃ identity, value = .pair identity (.term content.2) (.term (Path.toTerm content.1))
  stable _ shown := shown

/-- Terms by themselves. -/
def term : Display Term where
  shows _ value content := value = .term content
  stable _ shown := shown

variable {α : Type} (display : Display α)

/-- What is shown stands in pairs. -/
def Paired : Prop :=
  ∀ {store : Store} {value : Value} {content : α}, display.shows store value content →
    ∃ identity first second, value = .pair identity first second

theorem paired_entry : entry.Paired := by
  rintro store value content ⟨identity, place, rfl, _⟩
  exact ⟨identity, _, _, rfl⟩

theorem paired_subterm : subterm.Paired := by
  rintro store value content ⟨identity, rfl⟩
  exact ⟨identity, _, _, rfl⟩

/-- The list at a place shows things one by one. -/
def Lists (store : Store) (place : Nat) (contents : List α) : Prop :=
  ∃ items : Array Value, store.cell? place = some (.list items) ∧
    List.Forall₂ (display.shows store) items.toList contents

/-- The list at a place has grown by what shows some things, and nothing else has changed. -/
structure Appends (place : Nat) (before after : Store) (added : List α) : Prop where
  kept : Store.KeepsBut place before after
  grown : ∃ (items : Array Value) (news : List Value),
    before.cell? place = some (.list items) ∧
      after.cell? place = some (.list (items ++ news.toArray)) ∧
      List.Forall₂ (display.shows after) news added

variable {display}

theorem forall₂_stable {before after : Store} (keeps : before.KeepsBindings after)
    {values : List Value} {contents : List α}
    (shown : List.Forall₂ (display.shows before) values contents) :
    List.Forall₂ (display.shows after) values contents :=
  shown.imp fun _ _ one => display.stable keeps one

theorem lists_nil {store : Store} {place : Nat} (held : store.cell? place = some (.list #[])) :
    display.Lists store place [] :=
  ⟨#[], held, .nil⟩

theorem Lists.keeps {before after : Store} {place : Nat} {contents : List α}
    (lists : display.Lists before place contents) (keeps : before.Keeps after) :
    display.Lists after place contents := by
  obtain ⟨items, held, shown⟩ := lists
  exact ⟨items, keeps _ _ held, forall₂_stable keeps.bindings shown⟩

/-- The value in a list that shows one of its things. -/
theorem Lists.exists_get {store : Store} {place : Nat} {front back : List α} {content : α}
    (lists : display.Lists store place (front ++ content :: back)) :
    ∃ items value, store.cell? place = some (.list items) ∧ items[front.length]? = some value ∧
      items.size = (front ++ content :: back).length ∧ display.shows store value content := by
  obtain ⟨items, held, shown⟩ := lists
  have sized : items.toList.length = (front ++ content :: back).length := shown.length_eq
  have inside : front.length < items.toList.length := by
    rw [sized, List.length_append, List.length_cons]
    omega
  have pointwise := (List.forall₂_iff_get.mp shown).2 front.length inside (by rw [← sized]; exact inside)
  have other : (front ++ content :: back).get ⟨front.length, by rw [← sized]; exact inside⟩ = content := by
    simp
  rw [other] at pointwise
  refine ⟨items, _, held, ?_, by rw [← sized, Array.length_toList], pointwise⟩
  rw [← Array.getElem?_toList, List.getElem?_eq_getElem inside]
  rfl

/-- A list is as it was where another list changes. -/
theorem Lists.keepsBut {before after : Store} {place other : Nat} {contents : List α}
    {items : Array Value} (lists : display.Lists before place contents)
    (keeps : Store.KeepsBut other before after) (held : before.cell? other = some (.list items))
    (away : place ≠ other) : display.Lists after place contents := by
  obtain ⟨own, found, shown⟩ := lists
  exact ⟨own, keeps _ _ away found, forall₂_stable (keeps.bindings held) shown⟩

theorem Appends.bindings {place : Nat} {before after : Store} {added : List α}
    (appends : display.Appends place before after added) : before.KeepsBindings after := by
  obtain ⟨items, news, held, _, _⟩ := appends.grown
  exact appends.kept.bindings held

theorem Appends.nil {place : Nat} {before after : Store} {items : Array Value}
    (held : before.cell? place = some (.list items)) (keeps : before.Keeps after) :
    display.Appends place before after [] where
  kept := keeps.but place
  grown := ⟨items, [], held, by simpa using keeps _ _ held, .nil⟩

theorem Appends.trans {place : Nat} {first second third : Store} {front back : List α}
    (one : display.Appends place first second front)
    (two : display.Appends place second third back) :
    display.Appends place first third (front ++ back) where
  kept := one.kept.trans two.kept
  grown := by
    obtain ⟨items, news, held, reached, shown⟩ := one.grown
    obtain ⟨more, others, again, last, rest⟩ := two.grown
    rw [reached] at again
    cases again
    refine ⟨items, news ++ others, held, ?_, ?_⟩
    · rw [last]
      simp
    · exact List.rel_append (forall₂_stable two.bindings shown) rest

/-- What the list showed before comes before what is added. -/
theorem Lists.appends {place : Nat} {before after : Store} {contents added : List α}
    (lists : display.Lists before place contents)
    (appends : display.Appends place before after added) :
    display.Lists after place (contents ++ added) := by
  obtain ⟨items, held, shown⟩ := lists
  obtain ⟨own, news, again, reached, rest⟩ := appends.grown
  rw [held] at again
  cases again
  refine ⟨_, reached, ?_⟩
  simp only [Array.toList_append]
  exact List.rel_append (forall₂_stable appends.bindings shown) rest

/-- Cells made before the list is extended may be new. -/
theorem Appends.keeps_left {place : Nat} {first second third : Store} {added : List α}
    {items : Array Value} (keeps : first.Keeps second)
    (held : first.cell? place = some (.list items))
    (appends : display.Appends place second third added) :
    display.Appends place first third added where
  kept := (keeps.but place).trans appends.kept
  grown := by
    obtain ⟨own, news, again, reached, shown⟩ := appends.grown
    rw [keeps _ _ held] at again
    cases again
    exact ⟨items, news, held, reached, shown⟩

/-- A value added to a list shows what it showed. -/
theorem appends_extendList {store : Store} {place : Nat} {items : Array Value}
    (held : store.cell? place = some (.list items)) {values : List Value} {contents : List α}
    (shown : List.Forall₂ (display.shows store) values contents) :
    display.Appends place store (store.extendList place values) contents where
  kept := Store.keepsBut_extendList held values
  grown := by
    refine ⟨items, values, held, ?_, ?_⟩
    · rw [store.cell?_extendList held, if_pos rfl]
    · exact forall₂_stable ((Store.keepsBut_extendList held values).bindings held) shown

end Display

end Reduct
