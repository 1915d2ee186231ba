import Reduct.Proofs.FreshRenaming

/-!
# Stacks of levels

Bindings change in place, and an operation may have begun to change them when it is refused. On
bindings that were made by the operations this does not show. A symbol has its term as its only
level, or levels that all collect, so an operation is refused before it changes anything, and
levels are never out of order. Finished bindings are merged to the same bindings in whatever order
their symbols are visited.

The main result is `Reachable.inOrder`.
-/

namespace Reduct

namespace Table

variable {α : Type}

theorem insertIn_insertIn_self (key : Symbol) (old new : α) (entries : List (Symbol × α)) :
    insertIn key new (insertIn key old entries) = insertIn key new entries := by
  induction entries with
  | nil => simp [insertIn]
  | cons entry rest ih =>
    obtain ⟨name, value⟩ := entry
    by_cases same : name = key
    · simp [insertIn, same]
    · by_cases before : key < name
      · simp [insertIn, same, before]
      · simp [insertIn, same, before, ih]

/-- A later binding of a key replaces an earlier one. -/
theorem insert_insert_self (table : Table α) (key : Symbol) (old new : α) :
    (table.insert key old).insert key new = table.insert key new :=
  congrArg Table.mk (insertIn_insertIn_self key old new table.entries)

theorem insertIn_comm {one two : Symbol} (before : one < two) (first second : α)
    (entries : List (Symbol × α)) :
    insertIn one first (insertIn two second entries) =
      insertIn two second (insertIn one first entries) := by
  have apart : one ≠ two := String.ne_of_lt before
  have behind : ¬ two < one := String.lt_asymm before
  induction entries with
  | nil => simp [insertIn, apart, apart.symm, before, behind]
  | cons entry rest ih =>
    obtain ⟨name, value⟩ := entry
    by_cases same : name = one
    · subst same
      simp [insertIn, apart, behind]
    · by_cases least : one < name
      · by_cases other : name = two
        · subst other
          simp [insertIn, apart, apart.symm, before, behind]
        · by_cases next : two < name <;>
            simp [insertIn, same, least, other, next, apart, apart.symm, before, behind]
      · have later : ¬ name = two := fun equal => least (equal ▸ before)
        have above : ¬ two < name := fun less => least (String.lt_trans before less)
        simp [insertIn, same, least, later, above, ih]

/-- Different keys are bound in any order. -/
theorem insert_comm (table : Table α) {one two : Symbol} (apart : one ≠ two) (first second : α) :
    (table.insert one first).insert two second = (table.insert two second).insert one first := by
  by_cases before : one < two
  · exact congrArg Table.mk (insertIn_comm before first second table.entries).symm
  · have after : two < one := Std.lt_of_le_of_ne (String.not_lt.mp before) apart.symm
    exact congrArg Table.mk (insertIn_comm after second first table.entries)

end Table

/-- A stack with the term of a symbol outside of every ellipsis, or with levels that all collect. -/
inductive RegularStack : List Level → Prop
  | scalar (term : Term) : RegularStack [.scalar term]
  | collecting {stack : List Level} (filled : stack ≠ [])
      (each : ∀ level ∈ stack, ∃ terms, level = .collected terms) : RegularStack stack

namespace Bindings

/-- A change of bindings in place. What is changed before a refusal stays changed. -/
abbrev InPlace := ExceptT Misuse (StateM Bindings)

namespace InPlace

/-- The bindings as they stand. -/
def current : InPlace Bindings := MonadState.get

/-- Replace the levels of a symbol. -/
def put (symbol : Symbol) (stack : List Level) : InPlace Unit :=
  modify fun bindings => bindings.withLevels symbol stack

/-- The levels of a symbol, which is entered with none if it is unbound. -/
def entry (symbol : Symbol) : InPlace (List Level) := do
  match (← current).bound.find? symbol with
  | some stack => pure stack
  | none =>
    put symbol []
    pure []

/-- Bind a term. -/
def add (symbol : Symbol) (term : Term) : InPlace Unit := do
  match ← entry symbol with
  | [] => put symbol [.scalar term]
  | .collected terms :: outer => put symbol (.collected (terms ++ [term]) :: outer)
  | .scalar previous :: _ => throw (.alreadyBound symbol previous term)

/-- Open an ellipsis level. -/
def increaseDepth (symbol : Symbol) : InPlace Unit := do
  match ← entry symbol with
  | .scalar previous :: _ => throw (.openOverScalar symbol previous)
  | stack => put symbol (.collected [] :: stack)

/-- Close an ellipsis level. The level is taken away before the one below is looked at. -/
def decreaseDepth (symbol : Symbol) : InPlace Unit := do
  match (← current).bound.find? symbol with
  | none => throw (.closeUnbound symbol)
  | some (closed :: below :: outer) =>
    put symbol (below :: outer)
    match below with
    | .collected terms => put symbol (.collected (terms ++ [closed.toTerm]) :: outer)
    | .scalar _ => throw (.outOfOrder symbol)
  | some _ => pure ()

/-- Add finished bindings one after another. -/
def merge : List (Symbol × List Level) → InPlace Unit
  | [] => pure ()
  | (symbol, [level]) :: rest => do
    add symbol level.toTerm
    merge rest
  | (symbol, _) :: _ => throw (.mergeOpen symbol)

end InPlace

/-- What a change in place comes to: the new bindings, or the old ones and the refusal. -/
def settled (bindings : Bindings) : Except Misuse Bindings → Except Misuse Unit × Bindings
  | .ok after => (.ok (), after)
  | .error misuse => (.error misuse, bindings)

/-- Bindings that the operations make from none, in any order. -/
inductive Reachable : Bindings → Prop
  | empty : Reachable .empty
  | add {bindings after : Bindings} {symbol : Symbol} {term : Term}
      (earlier : Reachable bindings) (done : bindings.add symbol term = .ok after) :
      Reachable after
  | increaseDepth {bindings after : Bindings} {symbol : Symbol} (earlier : Reachable bindings)
      (done : bindings.increaseDepth symbol = .ok after) : Reachable after
  | decreaseDepth {bindings after : Bindings} {symbol : Symbol} (earlier : Reachable bindings)
      (done : bindings.decreaseDepth symbol = .ok after) : Reachable after
  | erase {bindings : Bindings} {symbol : Symbol} (earlier : Reachable bindings) :
      Reachable (bindings.erase symbol)
  | merge {bindings other after : Bindings} (earlier : Reachable bindings)
      (finished : Reachable other) (done : bindings.merge other = .ok after) : Reachable after

/-- What holds of bindings that the operations make. -/
structure InOrder (bindings : Bindings) : Prop where
  /-- A symbol has its term, or levels that collect. -/
  regular : ∀ symbol stack, bindings.bound.find? symbol = some stack → RegularStack stack
  /-- Levels are never out of order. -/
  closes : ∀ symbol other, bindings.decreaseDepth symbol ≠ .error (.outOfOrder other)
  /-- A term is refused by a symbol that has one. -/
  addRefused : ∀ symbol term, (∃ misuse, bindings.add symbol term = .error misuse) ↔
    ∃ previous, bindings.bound.find? symbol = some [.scalar previous]
  /-- A level is refused by a symbol that has a term. -/
  openRefused : ∀ symbol, (∃ misuse, bindings.increaseDepth symbol = .error misuse) ↔
    ∃ previous, bindings.bound.find? symbol = some [.scalar previous]
  /-- A symbol that is unbound has no level to close. -/
  closeRefused : ∀ symbol, (∃ misuse, bindings.decreaseDepth symbol = .error misuse) ↔
    bindings.bound.find? symbol = none
  /-- A term that is refused changes nothing. -/
  added : ∀ symbol term,
    (InPlace.add symbol term).run bindings = bindings.settled (bindings.add symbol term)
  /-- A level that is refused changes nothing. -/
  opened : ∀ symbol,
    (InPlace.increaseDepth symbol).run bindings = bindings.settled (bindings.increaseDepth symbol)
  /-- A level that is not closed changes nothing. -/
  closed : ∀ symbol,
    (InPlace.decreaseDepth symbol).run bindings = bindings.settled (bindings.decreaseDepth symbol)
  /-- The order in which the symbols of other bindings are visited does not matter. -/
  merged : ∀ other, Reachable other → ∀ order, order.Perm other.bound.entries → ∀ after,
    (InPlace.merge order).run bindings = (.ok (), after) ↔ bindings.merge other = .ok after

theorem withLevels_withLevels (bindings : Bindings) (symbol : Symbol) (old new : List Level) :
    (bindings.withLevels symbol old).withLevels symbol new = bindings.withLevels symbol new :=
  congrArg Bindings.mk (bindings.bound.insert_insert_self symbol old new)

theorem withLevels_comm (bindings : Bindings) {one two : Symbol} (apart : one ≠ two)
    (first second : List Level) :
    (bindings.withLevels one first).withLevels two second =
      (bindings.withLevels two second).withLevels one first :=
  congrArg Bindings.mk (bindings.bound.insert_comm apart first second)

namespace InPlace

variable {bindings : Bindings} {symbol : Symbol}

theorem run_entry_of_none (unbound : bindings.bound.find? symbol = none) :
    (entry symbol).run bindings = (.ok [], bindings.withLevels symbol []) := by
  unfold entry
  rw [run_bind_eq]
  change ExceptT.run (match bindings.bound.find? symbol with
    | some stack => pure stack
    | none => do
      put symbol []
      pure []) bindings = _
  rw [unbound]
  rfl

theorem run_entry_of_some {stack : List Level}
    (found : bindings.bound.find? symbol = some stack) :
    (entry symbol).run bindings = (.ok stack, bindings) := by
  unfold entry
  rw [run_bind_eq]
  change ExceptT.run (match bindings.bound.find? symbol with
    | some stack => pure stack
    | none => do
      put symbol []
      pure []) bindings = _
  rw [found]
  rfl

/-- A symbol that refuses a term was bound before it is entered. -/
theorem run_add (bindings : Bindings) (symbol : Symbol) (term : Term) :
    (add symbol term).run bindings = bindings.settled (bindings.add symbol term) := by
  unfold add Bindings.add levels
  rw [run_bind_eq]
  cases found : bindings.bound.find? symbol with
  | none =>
    rw [run_entry_of_none found]
    change ((.ok (), (bindings.withLevels symbol []).withLevels symbol [.scalar term]) :
      Except Misuse Unit × Bindings) = _
    rw [withLevels_withLevels]
    rfl
  | some stack =>
    rw [run_entry_of_some found]
    match stack with
    | [] | .collected _ :: _ | .scalar _ :: _ => rfl

/-- A symbol that refuses a level was bound before it is entered. -/
theorem run_increaseDepth (bindings : Bindings) (symbol : Symbol) :
    (increaseDepth symbol).run bindings =
      bindings.settled (bindings.increaseDepth symbol) := by
  unfold increaseDepth Bindings.increaseDepth levels
  rw [run_bind_eq]
  cases found : bindings.bound.find? symbol with
  | none =>
    rw [run_entry_of_none found]
    change ((.ok (), (bindings.withLevels symbol []).withLevels symbol [.collected []]) :
      Except Misuse Unit × Bindings) = _
    rw [withLevels_withLevels]
    rfl
  | some stack =>
    rw [run_entry_of_some found]
    match stack with
    | [] | .collected _ :: _ | .scalar _ :: _ => rfl

/-- The level below one that closes collects, so nothing is refused after the level is gone. -/
theorem run_decreaseDepth
    (regular : ∀ stack, bindings.bound.find? symbol = some stack → RegularStack stack) :
    (decreaseDepth symbol).run bindings =
      bindings.settled (bindings.decreaseDepth symbol) := by
  unfold decreaseDepth Bindings.decreaseDepth
  rw [run_bind_eq]
  change ExceptT.run (match bindings.bound.find? symbol with
    | none => throw (.closeUnbound symbol)
    | some (closed :: below :: outer) => do
      put symbol (below :: outer)
      match below with
      | .collected terms => put symbol (.collected (terms ++ [closed.toTerm]) :: outer)
      | .scalar _ => throw (.outOfOrder symbol)
    | some _ => pure ()) bindings = _
  cases found : bindings.bound.find? symbol with
  | none => rfl
  | some stack =>
    match stack, regular stack found with
    | [], _ | [_], _ => rfl
    | closed :: .collected terms :: outer, _ =>
      change ((.ok (), (bindings.withLevels symbol (.collected terms :: outer)).withLevels symbol
        (.collected (terms ++ [closed.toTerm]) :: outer)) : Except Misuse Unit × Bindings) = _
      rw [withLevels_withLevels]
      rfl
    | _ :: .scalar _ :: _, .collecting _ each =>
      obtain ⟨_, same⟩ := each _ (List.mem_cons_of_mem _ List.mem_cons_self)
      cases same

/-- Merging in place adds the entries as merging does. -/
theorem run_merge {order : List (Symbol × List Level)} {after : Bindings} :
    ∀ {bindings : Bindings}, (merge order).run bindings = (.ok (), after) ↔
      order.foldlM mergeEntry bindings = .ok after := by
  induction order with
  | nil =>
    intro bindings
    change ((.ok (), bindings) : Except Misuse Unit × Bindings) = (.ok (), after) ↔
      (.ok bindings : Except Misuse Bindings) = .ok after
    simp
  | cons visited rest ih =>
    intro bindings
    obtain ⟨symbol, stack⟩ := visited
    rw [List.foldlM_cons]
    match stack with
    | [level] =>
      change (add symbol level.toTerm >>= fun _ => merge rest).run bindings = _ ↔
        bindings.add symbol level.toTerm >>= _ = _
      rw [run_bind_eq, run_add]
      cases bindings.add symbol level.toTerm with
      | error misuse => exact ⟨nofun, nofun⟩
      | ok added => exact ih
    | [] | _ :: _ :: _ => exact ⟨nofun, nofun⟩

end InPlace

/-- The stack that a term leaves, none if it is refused. -/
def pushed (term : Term) : List Level → Option (List Level)
  | [] => some [.scalar term]
  | .collected terms :: outer => some (.collected (terms ++ [term]) :: outer)
  | .scalar _ :: _ => none

theorem add_eq_ok {bindings after : Bindings} {symbol : Symbol} {term : Term} :
    bindings.add symbol term = .ok after ↔
      ∃ stack, pushed term (bindings.levels symbol) = some stack ∧
        bindings.withLevels symbol stack = after := by
  unfold add
  match bindings.levels symbol with
  | [] | .collected _ :: _ | .scalar _ :: _ => simp [pushed]

theorem mergeEntry_eq_ok {bindings after : Bindings} {entry : Symbol × List Level} :
    bindings.mergeEntry entry = .ok after ↔ ∃ level stack, entry.2 = [level] ∧
      pushed level.toTerm (bindings.levels entry.1) = some stack ∧
      bindings.withLevels entry.1 stack = after := by
  unfold mergeEntry
  match entry.2 with
  | [level] => simp [add_eq_ok]
  | [] | _ :: _ :: _ => simp

/-- Entries of two symbols can be added in either order. -/
theorem mergeEntry_swap {bindings middle after : Bindings} {one two : Symbol × List Level}
    (apart : one.1 ≠ two.1) (first : bindings.mergeEntry one = .ok middle)
    (second : middle.mergeEntry two = .ok after) :
    ∃ between, bindings.mergeEntry two = .ok between ∧ between.mergeEntry one = .ok after := by
  obtain ⟨level, stack, single, taken, rfl⟩ := mergeEntry_eq_ok.mp first
  obtain ⟨other, pile, alone, put, rfl⟩ := mergeEntry_eq_ok.mp second
  rw [levels_withLevels, if_neg apart] at put
  refine ⟨_, mergeEntry_eq_ok.mpr ⟨other, pile, alone, put, rfl⟩,
    mergeEntry_eq_ok.mpr ⟨level, stack, single, ?_, ?_⟩⟩
  · rw [levels_withLevels, if_neg apart.symm, taken]
  · exact withLevels_comm bindings apart.symm pile stack

/-- Entries of different symbols can be added in any order. -/
theorem foldlM_mergeEntry_of_perm {order entries : List (Symbol × List Level)}
    (perm : order.Perm entries) (distinct : (order.map (·.1)).Nodup) {after : Bindings} :
    ∀ {bindings : Bindings}, order.foldlM mergeEntry bindings = .ok after →
      entries.foldlM mergeEntry bindings = .ok after := by
  induction perm with
  | nil => exact id
  | cons entry _ ih =>
    intro bindings done
    obtain ⟨middle, added, rest⟩ := Except.bind_eq_ok.mp done
    exact Except.bind_eq_ok.mpr ⟨middle, added, ih (List.nodup_cons.mp distinct).2 rest⟩
  | swap one two rest =>
    intro bindings done
    obtain ⟨middle, second, done⟩ := Except.bind_eq_ok.mp done
    obtain ⟨both, first, done⟩ := Except.bind_eq_ok.mp done
    have apart : two.1 ≠ one.1 := fun same =>
      (List.nodup_cons.mp distinct).1 (by simp [same])
    obtain ⟨between, here, there⟩ := mergeEntry_swap apart second first
    exact Except.bind_eq_ok.mpr ⟨between, here, Except.bind_eq_ok.mpr ⟨both, there, done⟩⟩
  | trans left _ one two =>
    intro bindings done
    exact two ((left.map _).nodup_iff.mp distinct) (one distinct done)

/-- Bindings whose symbols are listed in order, each with a stack that is regular. -/
structure Regular (bindings : Bindings) : Prop where
  sorted : bindings.bound.Sorted
  each : ∀ symbol stack, bindings.bound.find? symbol = some stack → RegularStack stack

section Regular

variable {bindings other after : Bindings} {symbol : Symbol} {term : Term}

theorem Regular.withLevels (regular : bindings.Regular) (symbol : Symbol) {stack : List Level}
    (fits : RegularStack stack) : (bindings.withLevels symbol stack).Regular where
  sorted := regular.sorted.insert symbol stack
  each other found := by
    intro bound
    change (bindings.bound.insert symbol stack).find? other = some found at bound
    rw [Table.find?_insert] at bound
    split at bound
    · cases bound
      exact fits
    · exact regular.each other found bound

/-- The levels of a symbol are regular, if it has any. -/
theorem Regular.levels (regular : bindings.Regular) (symbol : Symbol) :
    bindings.levels symbol = [] ∨ RegularStack (bindings.levels symbol) := by
  unfold Bindings.levels
  cases found : bindings.bound.find? symbol with
  | none => exact .inl rfl
  | some stack => exact .inr (regular.each symbol stack found)

/-- A stack that takes a term stays regular. -/
theorem regular_pushed {stack taken : List Level} (regular : stack = [] ∨ RegularStack stack)
    (done : pushed term stack = some taken) : RegularStack taken := by
  match stack, regular with
  | [], _ =>
    cases done
    exact .scalar term
  | .collected terms :: outer, .inr (.collecting _ each) =>
    cases done
    refine .collecting nofun (List.forall_mem_cons.mpr ⟨⟨_, rfl⟩, ?_⟩)
    exact (List.forall_mem_cons.mp each).2

/-- A stack without a term takes a level. -/
theorem regular_opened {stack : List Level} (regular : stack = [] ∨ RegularStack stack)
    (free : ∀ previous outer, stack ≠ .scalar previous :: outer) :
    RegularStack (.collected [] :: stack) := by
  refine .collecting nofun (List.forall_mem_cons.mpr ⟨⟨_, rfl⟩, ?_⟩)
  rcases regular with rfl | ⟨term⟩ | ⟨_, each⟩
  · nofun
  · exact absurd rfl (free term [])
  · exact each

theorem Regular.add (regular : bindings.Regular) (done : bindings.add symbol term = .ok after) :
    after.Regular := by
  obtain ⟨stack, taken, rfl⟩ := add_eq_ok.mp done
  exact regular.withLevels symbol (regular_pushed (regular.levels symbol) taken)

theorem Regular.increaseDepth (regular : bindings.Regular)
    (done : bindings.increaseDepth symbol = .ok after) : after.Regular := by
  unfold Bindings.increaseDepth at done
  split at done
  · cases done
  · rename_i free
    cases done
    exact regular.withLevels symbol (regular_opened (regular.levels symbol) free)

theorem Regular.decreaseDepth (regular : bindings.Regular)
    (done : bindings.decreaseDepth symbol = .ok after) : after.Regular := by
  unfold Bindings.decreaseDepth at done
  split at done
  · cases done
  · rename_i closed terms outer found
    cases done
    refine regular.withLevels symbol ?_
    cases regular.each symbol _ found with
    | collecting _ each =>
      refine .collecting nofun (List.forall_mem_cons.mpr ⟨⟨_, rfl⟩, ?_⟩)
      exact (List.forall_mem_cons.mp (List.forall_mem_cons.mp each).2).2
  · cases done
  · cases done
    exact regular

theorem Regular.erase (regular : bindings.Regular) (symbol : Symbol) :
    (bindings.erase symbol).Regular where
  sorted := regular.sorted.filter _
  each other stack found := by
    change (bindings.bound.erase symbol).find? other = some stack at found
    rw [Table.find?_erase] at found
    split at found
    · cases found
    · exact regular.each other stack found

theorem Regular.mergeEntries {entries : List (Symbol × List Level)} :
    ∀ {bindings : Bindings}, bindings.Regular → entries.foldlM mergeEntry bindings = .ok after →
      after.Regular := by
  induction entries with
  | nil =>
    intro bindings regular done
    cases done
    exact regular
  | cons entry rest ih =>
    intro bindings regular done
    obtain ⟨middle, added, others⟩ := Except.bind_eq_ok.mp done
    obtain ⟨level, stack, single, taken, rfl⟩ := mergeEntry_eq_ok.mp added
    exact ih (regular.withLevels entry.1 (regular_pushed (regular.levels entry.1) taken)) others

/-- What the operations make is regular, by induction on how it is made. -/
theorem Reachable.regular (reachable : Reachable bindings) : bindings.Regular := by
  induction reachable with
  | empty => exact ⟨Table.sorted_empty, nofun⟩
  | add _ done ih => exact ih.add done
  | increaseDepth _ done ih => exact ih.increaseDepth done
  | decreaseDepth _ done ih => exact ih.decreaseDepth done
  | erase _ ih => exact ih.erase _
  | merge _ _ done ih _ => exact ih.mergeEntries done

theorem Regular.nodup (regular : bindings.Regular) : bindings.bound.keys.Nodup := by
  refine List.Pairwise.map _ (fun _ _ before => ?_) regular.sorted
  exact String.ne_of_lt before

/-- The innermost level of a symbol is a term only if it is the only one. -/
theorem Regular.scalar_iff (regular : bindings.Regular) (symbol : Symbol) :
    (∃ previous outer, bindings.levels symbol = .scalar previous :: outer) ↔
      ∃ previous, bindings.bound.find? symbol = some [.scalar previous] := by
  constructor
  · rintro ⟨previous, outer, top⟩
    unfold Bindings.levels at top
    cases found : bindings.bound.find? symbol with
    | none =>
      rw [found] at top
      cases top
    | some stack =>
      rw [found] at top
      obtain rfl : stack = .scalar previous :: outer := top
      cases regular.each symbol _ found with
      | scalar => exact ⟨previous, rfl⟩
      | collecting _ each =>
        obtain ⟨_, same⟩ := each _ List.mem_cons_self
        cases same
  · rintro ⟨previous, found⟩
    exact ⟨previous, [], levels_of_find? found⟩

theorem add_refused (bindings : Bindings) (symbol : Symbol) (term : Term) :
    (∃ misuse, bindings.add symbol term = .error misuse) ↔
      ∃ previous outer, bindings.levels symbol = .scalar previous :: outer := by
  unfold Bindings.add
  match bindings.levels symbol with
  | [] | .collected _ :: _ | .scalar _ :: _ => simp

theorem increaseDepth_refused (bindings : Bindings) (symbol : Symbol) :
    (∃ misuse, bindings.increaseDepth symbol = .error misuse) ↔
      ∃ previous outer, bindings.levels symbol = .scalar previous :: outer := by
  unfold Bindings.increaseDepth
  match bindings.levels symbol with
  | [] | .collected _ :: _ | .scalar _ :: _ => simp

/-- Only a symbol without a level refuses to close one. -/
theorem Regular.decreaseDepth_refused (regular : bindings.Regular) {misuse : Misuse} :
    bindings.decreaseDepth symbol = .error misuse ↔
      bindings.bound.find? symbol = none ∧ misuse = .closeUnbound symbol := by
  unfold Bindings.decreaseDepth
  cases found : bindings.bound.find? symbol with
  | none => simp [eq_comm]
  | some stack =>
    match stack, regular.each symbol stack found with
    | [_], _ => simp
    | _ :: .collected _ :: _, _ => simp
    | _ :: .scalar _ :: _, .collecting _ each =>
      obtain ⟨_, same⟩ := each _ (List.mem_cons_of_mem _ List.mem_cons_self)
      cases same

end Regular

/-- Bindings that the operations make are in order. -/
theorem Reachable.inOrder {bindings : Bindings} (reachable : Reachable bindings) :
    bindings.InOrder := by
  have regular := reachable.regular
  exact
    { regular := regular.each
      closes := by
        intro symbol other refused
        cases (regular.decreaseDepth_refused.mp refused).2
      addRefused := fun symbol term =>
        (add_refused bindings symbol term).trans (regular.scalar_iff symbol)
      openRefused := fun symbol =>
        (increaseDepth_refused bindings symbol).trans (regular.scalar_iff symbol)
      closeRefused := by
        intro symbol
        simp only [regular.decreaseDepth_refused, exists_and_left, exists_eq, and_true]
      added := InPlace.run_add bindings
      opened := InPlace.run_increaseDepth bindings
      closed := fun symbol => InPlace.run_decreaseDepth (regular.each symbol)
      merged := by
        intro other finished order perm after
        have distinct : (other.bound.entries.map (·.1)).Nodup := finished.regular.nodup
        rw [InPlace.run_merge]
        exact ⟨foldlM_mergeEntry_of_perm perm ((perm.map _).nodup_iff.mpr distinct),
          foldlM_mergeEntry_of_perm perm.symm distinct⟩ }

/-- A symbol with two open levels beside one with a term. -/
theorem inOrder_openLevels :
    Reachable ⟨⟨[("x", [.collected [], .collected [.hole]]), ("y", [.scalar .hole])]⟩⟩ ∧
      InOrder ⟨⟨[("x", [.collected [], .collected [.hole]]), ("y", [.scalar .hole])]⟩⟩ := by
  have outer : Reachable ⟨⟨[("x", [.collected []])]⟩⟩ :=
    .increaseDepth .empty (show empty.increaseDepth "x" = _ by rfl)
  have round : Reachable ⟨⟨[("x", [.collected [.hole]])]⟩⟩ :=
    .add outer (show Bindings.add _ "x" .hole = _ by rfl)
  have inner : Reachable ⟨⟨[("x", [.collected [], .collected [.hole]])]⟩⟩ :=
    .increaseDepth round (show Bindings.increaseDepth _ "x" = _ by rfl)
  have reachable : Reachable
      ⟨⟨[("x", [.collected [], .collected [.hole]]), ("y", [.scalar .hole])]⟩⟩ :=
    .add inner (show Bindings.add _ "y" .hole = _ by rfl)
  exact ⟨reachable, reachable.inOrder⟩

end Bindings

end Reduct
