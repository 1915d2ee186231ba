import Reduct.Machine
import Mathlib.Data.List.Forall2

/-!
# Aged stores

A store that has served before holds more lists and bindings than a new one, and has made more
pairs; what is made now comes after them. Values are the same up to their places and identities,
which are shifted by an offset. Nothing that a primitive or an operation does tells a value from
the shifted one in an aged store.
-/

namespace Reduct

/-- How much older a store is: the lists and bindings, and the pairs, that it has made before. -/
structure Age where
  places : Nat
  pairs : Nat

namespace Value

/-- The value in an older store. -/
def shift (age : Age) : Value → Value
  | bindings place => bindings (age.places + place)
  | list place => list (age.places + place)
  | pair identity first second => pair (age.pairs + identity) (first.shift age) (second.shift age)
  | none => none
  | bool value => bool value
  | int value => int value
  | string text => string text
  | term content => term content

end Value

/-- What a place holds in an older store. -/
def Cell.shift (age : Age) : Cell → Cell
  | bindings content => bindings content
  | list items => list (items.map (Value.shift age))

/-- A store that is older than another one, and holds the same since. -/
structure Store.Ages (age : Age) (fresh aged : Store) : Prop where
  size : aged.cells.size = age.places + fresh.cells.size
  pairs : aged.pairCount = age.pairs + fresh.pairCount
  cells : ∀ place, aged.cells[age.places + place]? = fresh.cells[place]?.map (Cell.shift age)

/-- The change in an older store. -/
def Change.shift (age : Age) : Change → Change
  | keep value => keep (value.shift age)
  | newBindings content => newBindings content
  | newList items => newList (items.map (Value.shift age))
  | newPair first second => newPair (first.shift age) (second.shift age)
  | newPairs pairs => newPairs (pairs.map fun pair => (pair.1.shift age, pair.2.shift age))
  | setBindings place content => setBindings (age.places + place) content
  | extend place items => extend (age.places + place) (items.map (Value.shift age))

section Accessors

variable {age : Age} {fresh aged : Store}

theorem Store.Ages.bindings? (ages : fresh.Ages age aged) (place : Nat) :
    aged.bindings? (age.places + place) = fresh.bindings? place := by
  unfold Store.bindings?
  rw [ages.cells]
  match fresh.cells[place]? with
  | none | some (.bindings _) | some (.list _) => rfl

theorem Store.Ages.list? (ages : fresh.Ages age aged) (place : Nat) :
    aged.list? (age.places + place) = (fresh.list? place).map (·.map (Value.shift age)) := by
  unfold Store.list?
  rw [ages.cells]
  match fresh.cells[place]? with
  | none | some (.bindings _) | some (.list _) => rfl

namespace Value

@[simp]
theorem kind_shift (value : Value) : (value.shift age).kind = value.kind := by
  cases value <;> rfl

@[simp]
theorem same_shift (left right : Value) :
    (left.shift age).same (right.shift age) = left.same right := by
  cases left <;> cases right <;> simp [shift, same]

@[simp]
theorem mismatch_shift {α : Type} (expected : String) (value : Value) :
    (mismatch expected (value.shift age) : Except EvalError α) = mismatch expected value := by
  rw [mismatch, mismatch, kind_shift]

@[simp]
theorem toBool_shift (value : Value) : (value.shift age).toBool = value.toBool := by
  cases value <;> rfl

@[simp]
theorem toInt_shift (value : Value) : (value.shift age).toInt = value.toInt := by
  cases value <;> rfl

@[simp]
theorem toIndex_shift (value : Value) : (value.shift age).toIndex = value.toIndex := by
  cases value <;> rfl

@[simp]
theorem toText_shift (value : Value) : (value.shift age).toText = value.toText := by
  cases value <;> rfl

@[simp]
theorem toTerm_shift (value : Value) : (value.shift age).toTerm = value.toTerm := by
  cases value <;> rfl

theorem toPair_shift (value : Value) :
    (value.shift age).toPair =
      value.toPair.map fun pair => (pair.1.shift age, pair.2.shift age) := by
  cases value <;> rfl

theorem toBindings_shift (ages : fresh.Ages age aged) (value : Value) :
    (value.shift age).toBindings aged =
      (value.toBindings fresh).map fun found => (age.places + found.1, found.2) := by
  cases value with
  | bindings place =>
    simp only [shift, toBindings, ages.bindings?]
    rfl
  | _ => rfl

theorem toList_shift (ages : fresh.Ages age aged) (value : Value) :
    (value.shift age).toList aged =
      (value.toList fresh).map fun found =>
        (age.places + found.1, found.2.map (Value.shift age)) := by
  cases value with
  | list place =>
    simp only [shift, toList, ages.list?]
    cases fresh.list? place <;> simp [Except.map]
  | _ => rfl

theorem toTerms_shift (ages : fresh.Ages age aged) (value : Value) :
    (value.shift age).toTerms aged = value.toTerms fresh := by
  unfold toTerms
  rw [toList_shift ages]
  cases value.toList fresh with
  | error cause => rfl
  | ok found =>
    simp only [Except.map, bind, Except.bind, Array.toList_map, List.mapM_map]
    exact congrArg (fun read => found.2.toList.mapM read) (funext toTerm_shift)

theorem toMatches_shift (ages : fresh.Ages age aged) (value : Value) :
    (value.shift age).toMatches aged = value.toMatches fresh := by
  unfold toMatches
  rw [toList_shift ages]
  cases value.toList fresh with
  | error cause => rfl
  | ok found =>
    simp only [Except.map, bind, Except.bind, Array.toList_map, List.mapM_map]
    refine congrArg (fun read => found.2.toList.mapM read) (funext fun item => ?_)
    simp only [Function.comp_apply, toBindings_shift ages]
    cases item.toBindings fresh <;> rfl

end Value

end Accessors

section Operations

variable {age : Age} {fresh aged : Store}

theorem Except.map_bind_eq {ε α β γ : Type} (action : Except ε α) (next : α → Except ε β)
    (change : β → γ) :
    (action >>= next).map change = action >>= fun value => (next value).map change := by
  cases action <;> rfl

theorem Except.bind_map_eq {ε α β γ : Type} (action : Except ε α) (change : α → β)
    (next : β → Except ε γ) :
    action.map change >>= next = action >>= fun value => next (change value) := by
  cases action <;> rfl

namespace Primitive

theorem ofCheck_map {α β : Type} (check : Except EvalError α) (change : α → β) :
    ofCheck (check.map change) = (ofCheck check).map change := by
  cases check <;> rfl

theorem test_shift (value : Value) (question : Term → Bool) :
    test (value.shift age) question = (test value question).map (Change.shift age) := by
  simp only [test, Value.toTerm_shift, Except.map_bind_eq]
  rfl

theorem growList_shift (place size : Nat) (added : List Value) :
    growList (age.places + place) size (added.map (Value.shift age)) =
      (growList place size added).map (Change.shift age) := by
  unfold growList
  rw [List.length_map]
  split <;> rfl

theorem arity_le (function : Primitive) : function.arity ≤ 3 := by
  cases function <;> decide

theorem apply_of_misfit (store : Store) (function : Primitive) (arguments : List Value)
    (misfit : arguments.length ≠ function.arity) :
    function.apply store arguments =
      .error (.error (.wrongArgumentCount function.name function.arity arguments.length)) := by
  rcases arguments with _ | ⟨first, _ | ⟨second, _ | ⟨third, _ | ⟨fourth, rest⟩⟩⟩⟩
  all_goals
    cases function <;> first
      | rfl
      | exact absurd rfl misfit

/-- A primitive does the same in an older store. -/
theorem apply_shift (ages : fresh.Ages age aged) (function : Primitive) (arguments : List Value) :
    function.apply aged (arguments.map (Value.shift age)) =
      (function.apply fresh arguments).map (Change.shift age) := by
  by_cases fits : arguments.length = function.arity
  · rcases arguments with _ | ⟨first, _ | ⟨second, _ | ⟨third, _ | ⟨fourth, rest⟩⟩⟩⟩
    case cons.cons.cons.cons =>
      have few := function.arity_le
      simp only [List.length_cons] at fits
      omega
    all_goals
      cases function <;> first
        | (cases fits; done)
        | skip
    -- The arguments are checked alike, and what is left are the changes that hold values.
    all_goals
      unfold apply
      simp only [List.map_cons, List.map_nil, test_shift, Value.toTerm_shift, Value.toIndex_shift,
        Value.toText_shift, Value.toTerms_shift ages, Value.toMatches_shift ages,
        Value.toBindings_shift ages, Value.toList_shift ages, ofCheck_map, Except.bind_map_eq,
        Except.map_bind_eq, ← growList_shift, Array.size_map, Array.toList_map]
    all_goals try rfl
    case cons.nil.sequenceChildren =>
      simp only [Except.map, Change.shift, List.map_map]
      rfl
    case cons.nil.subtermPaths =>
      simp only [Except.map, Change.shift, List.map_map]
      rfl
    case cons.nil.readTerm =>
      refine congrArg _ (funext fun source => ?_)
      split <;> rfl
    case cons.cons.nil.listGet =>
      refine congrArg _ (funext fun index => congrArg _ (funext fun found => ?_))
      rw [Array.getElem?_map]
      cases found.2[index]? <;> rfl
  · rw [apply_of_misfit _ _ _ fits, apply_of_misfit _ _ _ (by rwa [List.length_map]),
      List.length_map]
    rfl

end Primitive

namespace BinaryOp

theorem shift_of_ofExact (number : Int) :
    (ofExact number).map (Value.shift age) = ofExact number := by
  unfold ofExact
  split <;> rfl

/-- An operation does the same in an older store. -/
theorem apply_shift (op : BinaryOp) (left right : Value) :
    op.apply (left.shift age) (right.shift age) = (op.apply left right).map (Value.shift age) := by
  cases op with
  | equal | notEqual =>
    simp only [apply, Value.same_shift]
    rfl
  | add | subtract =>
    cases left <;> cases right <;> simp only [apply, Value.shift, shift_of_ofExact] <;> rfl
  | _ => cases left <;> cases right <;> rfl

end BinaryOp

theorem numberPairs_shift (pairs : List (Value × Value)) : ∀ first,
    Store.numberPairs (age.pairs + first)
        (pairs.map fun pair => (pair.1.shift age, pair.2.shift age)) =
      (Store.numberPairs first pairs).map (Value.shift age) := by
  induction pairs with
  | nil => exact fun _ => rfl
  | cons pair rest ih => exact fun first => congrArg (_ :: ·) (ih (first + 1))

/-- Another cell is added to both stores. -/
theorem Store.Ages.push (ages : fresh.Ages age aged) (cell : Cell) {count more : Nat}
    (pairs : more = age.pairs + count) :
    Store.Ages age ⟨fresh.cells.push cell, count⟩ ⟨aged.cells.push (cell.shift age), more⟩ where
  size := by
    simp only [Array.size_push, ages.size]
    omega
  pairs := pairs
  cells place := by
    rw [Array.getElem?_push, Array.getElem?_push, ages.size, ages.cells]
    by_cases last : place = fresh.cells.size
    · rw [if_pos last, if_pos (by omega)]
      rfl
    · rw [if_neg last, if_neg (by omega)]

theorem extendCell_shift (items : List Value) (cell : Cell) :
    Store.extendCell (items.map (Value.shift age)) (cell.shift age) =
      (Store.extendCell items cell).shift age := by
  cases cell with
  | bindings content => rfl
  | list old =>
    refine congrArg Cell.list ?_
    induction items generalizing old with
    | nil => rfl
    | cons item rest ih =>
      have pushed : (old.map (Value.shift age)).push (item.shift age) =
          (old.push item).map (Value.shift age) := Array.map_push.symm
      rw [List.map_cons, List.foldl_cons, List.foldl_cons, pushed]
      exact ih (old.push item)

/-- A change is carried out alike in an older store. -/
theorem Store.Ages.commit (ages : fresh.Ages age aged) (change : Change) :
    (aged.commit (change.shift age)).1 = (fresh.commit change).1.shift age ∧
      (fresh.commit change).2.Ages age (aged.commit (change.shift age)).2 := by
  obtain ⟨cells, count⟩ := fresh
  obtain ⟨older, more⟩ := aged
  have size : older.size = age.places + cells.size := ages.size
  have pairs : more = age.pairs + count := ages.pairs
  cases change with
  | keep value => exact ⟨rfl, ages⟩
  | newBindings content => exact ⟨congrArg Value.bindings size, ages.push (.bindings content) pairs⟩
  | newList items =>
    refine ⟨congrArg Value.list size, ?_⟩
    have pushed := ages.push (.list items.toArray) pairs
    rw [Cell.shift, List.map_toArray] at pushed
    exact pushed
  | newPair first second =>
    refine ⟨?_, ages.size, ?_, ages.cells⟩
    · simp only [Store.commit, Change.shift, Value.shift, pairs]
    · simp only [Store.commit, Change.shift, pairs, Nat.add_assoc]
  | newPairs made =>
    refine ⟨congrArg Value.list size, ?_⟩
    have pushed := ages.push (.list (Store.numberPairs count made).toArray)
      (congrArg (· + made.length) pairs |>.trans (Nat.add_assoc ..))
    rw [Cell.shift, List.map_toArray, ← numberPairs_shift, ← pairs] at pushed
    simpa only [Store.commit, Store.allocate, Change.shift, List.length_map] using pushed
  | setBindings place content =>
    refine ⟨rfl, ?_, ages.pairs, fun other => ?_⟩
    · simpa only [Store.commit, Change.shift, Array.size_setIfInBounds] using size
    · have there := ages.cells other
      simp only [Store.commit, Change.shift, Array.getElem?_setIfInBounds] at there ⊢
      by_cases same : place = other
      · rw [if_pos same, if_pos (by omega), size]
        by_cases bounded : place < cells.size
        · rw [if_pos bounded, if_pos (by omega)]
          rfl
        · rw [if_neg bounded, if_neg (by omega)]
          rfl
      · rw [if_neg same, if_neg (by omega), there]
  | extend place items =>
    refine ⟨rfl, ?_, ages.pairs, fun other => ?_⟩
    · simpa only [Store.commit, Change.shift, Array.size_modify] using size
    · have there := ages.cells other
      simp only [Store.commit, Change.shift, Array.getElem?_modify] at there ⊢
      by_cases same : place = other
      · rw [if_pos same, if_pos (by omega), there, Option.map_map, Option.map_map]
        exact congrArg (Option.map · _) (funext (extendCell_shift items))
      · rw [if_neg same, if_neg (by omega), there]

end Operations

end Reduct
