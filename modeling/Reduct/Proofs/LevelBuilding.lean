import Reduct.Proofs.LevelUpdates

/-!
# Building nested sequences by levels

The value of a symbol under ellipses is built by opening a level, adding a term for every round or
building one under the next ellipsis, and closing the level. A level collects what the rounds give
and hands it to the level below as one term when it closes, while the outermost level stays as the
value. So nested sequences come out as they went in, groups without a round included. A finished
value of merged bindings counts as one round.

The main result is `nested_building`.
-/

namespace Reduct

/-- Sequences nested to a depth, with any terms inside. -/
def Term.Nests : Nat → Term → Prop
  | 0, _ => True
  | depth + 1, term => ∃ items, term = .sequence items ∧ ∀ item ∈ items, item.Nests depth

namespace Bindings

/-- How many more levels of a symbol were opened than closed. -/
def openLevels (symbol : Symbol) (updates : List Update) : Nat :=
  updates.count (.increaseDepth symbol) - updates.count (.decreaseDepth symbol)

/-- The changes that build a value nested to a depth: at no depth it is added, and else a level is
opened, the items are built in their order, and the level is closed. -/
def build (symbol : Symbol) : Nat → Term → List Update
  | 0, value => [.add symbol value]
  | depth + 1, .sequence items =>
    .increaseDepth symbol :: items.flatMap (build symbol depth) ++ [.decreaseDepth symbol]
  | _ + 1, _ => []

/-- Changes that fill the open level of a symbol with items nested to a depth. An item is built, or
it is merged from bindings in which it is the finished value of the symbol. -/
inductive Fills (symbol : Symbol) : Nat → List Term → List Update → Prop
  | done {depth : Nat} : Fills symbol depth [] []
  | added {item : Term} {items : List Term} {updates : List Update}
      (others : Fills symbol 0 items updates) :
      Fills symbol 0 (item :: items) (.add symbol item :: updates)
  | nested {depth : Nat} {inner items : List Term} {inside updates : List Update}
      (item : Fills symbol depth inner inside) (others : Fills symbol (depth + 1) items updates) :
      Fills symbol (depth + 1) (.sequence inner :: items)
        (.increaseDepth symbol :: inside ++ .decreaseDepth symbol :: updates)
  | merged {depth : Nat} {other : Bindings} {item : Term} {items : List Term}
      {updates : List Update} (made : Reachable other)
      (finished : other.lookup symbol = some item)
      (others : Fills symbol depth items updates) :
      Fills symbol depth (item :: items) (.merge other :: updates)

/-- Changes that build a value nested to a depth, with any inner value built or merged. -/
inductive Builds (symbol : Symbol) : Nat → Term → List Update → Prop
  | whole {depth : Nat} {items : List Term} {updates : List Update}
      (inside : Fills symbol depth items updates) :
      Builds symbol (depth + 1) (.sequence items)
        (.increaseDepth symbol :: updates ++ [.decreaseDepth symbol])

/-- What building a value for a symbol does, whatever other changes happen between its own. -/
structure Building (symbol : Symbol) (value : Term) (bindings : Bindings) (updates : List Update) :
    Prop where
  /-- No change is refused for the symbol. -/
  accepted : ∀ misuse, bindings.applyAll updates = .error misuse → misuse.symbol ≠ symbol
  /-- So all changes succeed if none is refused for another symbol. -/
  succeeds : (∀ name, name ≠ symbol → ∃ stack,
      takeAll name (bindings.levels name) updates = some stack) →
    ∃ after, bindings.applyAll updates = .ok after
  /-- In the end the symbol has the value. -/
  finished : ∀ after, bindings.applyAll updates = .ok after → after.lookup symbol = some value
  /-- It has none while more than one of its levels is open. -/
  inner : ∀ front middle, front <+: updates → bindings.applyAll front = .ok middle →
    1 < openLevels symbol front → middle.lookup symbol = none
  /-- At every point its levels are what its own changes alone would have made. -/
  alone : ∀ front middle own, front <+: updates → bindings.applyAll front = .ok middle →
    bindings.applyAll (front.filter (·.concerns symbol)) = .ok own →
      middle.levels symbol = own.levels symbol

/-! ### Building sequences -/

section Building

variable {symbol : Symbol} {depth : Nat} {value : Term} {items : List Term}
  {updates : List Update}

/-- A finished value of merged bindings is added like a term. -/
theorem take_merge {other : Bindings} {item : Term} (made : Reachable other)
    (finished : other.lookup symbol = some item) (terms : List Term) (outer : List Level) :
    take symbol (.collected terms :: outer) (.merge other) =
      some (.collected (terms ++ [item]) :: outer) := by
  unfold lookup at finished
  split at finished
  · rename_i level found
    cases finished
    exact takeEntries_of_finished made.regular.sorted found
  · cases finished

/-- Changes that fill a level append the items to what it has collected. -/
theorem Fills.takeAll_eq (fills : Fills symbol depth items updates) :
    ∀ (terms : List Term) (outer : List Level),
      takeAll symbol (.collected terms :: outer) updates =
        some (.collected (terms ++ items) :: outer) := by
  induction fills with
  | done =>
    intro terms outer
    rw [List.append_nil]
    rfl
  | @added item items updates others ih =>
    intro terms outer
    have first : take symbol (.collected terms :: outer) (.add symbol item) =
        some (.collected (terms ++ [item]) :: outer) := if_pos rfl
    rw [takeAll_cons first, ih, List.append_assoc]
    rfl
  | @nested depth inner items inside updates item others inner_ih ih =>
    intro terms outer
    have first : take symbol (.collected terms :: outer) (.increaseDepth symbol) =
        some (.collected [] :: .collected terms :: outer) := if_pos rfl
    have last : take symbol (.collected inner :: .collected terms :: outer)
        (.decreaseDepth symbol) =
        some (.collected (terms ++ [.sequence inner]) :: outer) := if_pos rfl
    rw [List.cons_append, takeAll_cons first, takeAll_append (inner_ih _ _), List.nil_append,
      takeAll_cons last, ih, List.append_assoc]
    rfl
  | @merged depth other item items updates made finished others ih =>
    intro terms outer
    rw [takeAll_cons (take_merge made finished terms outer), ih, List.append_assoc]
    rfl

/-- Changes that build a value leave it as the only level of a symbol that had none. -/
theorem Builds.exists_takeAll (builds : Builds symbol depth value updates) :
    ∃ level, level.toTerm = value ∧ takeAll symbol [] updates = some [level] := by
  cases builds with
  | @whole depth items updates inside =>
    have first : take symbol [] (.increaseDepth symbol) = some [.collected []] := if_pos rfl
    have last : take symbol [.collected items] (.decreaseDepth symbol) =
        some [.collected items] := if_pos rfl
    refine ⟨.collected items, rfl, ?_⟩
    rw [List.cons_append, takeAll_cons first, takeAll_append (inside.takeAll_eq _ _),
      List.nil_append, takeAll_cons last]
    rfl

theorem Fills.erase_not_mem (fills : Fills symbol depth items updates) :
    .erase symbol ∉ updates := by
  induction fills with
  | done => simp
  | added _ ih => simpa using ih
  | nested _ _ inner_ih ih => simpa using ⟨inner_ih, ih⟩
  | merged _ _ _ ih => simpa using ih

theorem Builds.erase_not_mem (builds : Builds symbol depth value updates) :
    .erase symbol ∉ updates := by
  cases builds with
  | whole inside => simpa using inside.erase_not_mem

theorem build_sequence (symbol : Symbol) (depth : Nat) (items : List Term) :
    build symbol (depth + 1) (.sequence items) =
      .increaseDepth symbol :: items.flatMap (build symbol depth) ++ [.decreaseDepth symbol] :=
  rfl

/-- Building the items of a value one after the other fills a level with them. -/
theorem fills_build (nests : ∀ item ∈ items, item.Nests depth) :
    Fills symbol depth items (items.flatMap (build symbol depth)) := by
  induction depth generalizing items with
  | zero =>
    induction items with
    | nil => exact .done
    | cons item rest ih =>
      exact .added (ih fun other listed => nests other (List.mem_cons_of_mem _ listed))
  | succ depth inner =>
    induction items with
    | nil => exact .done
    | cons item rest ih =>
      obtain ⟨terms, rfl, each⟩ := nests item List.mem_cons_self
      have others := ih fun other listed => nests other (List.mem_cons_of_mem _ listed)
      rw [List.flatMap_cons, build_sequence, List.append_assoc]
      exact .nested (inner each) others

/-- Building a value changes its symbol only. -/
theorem concerns_of_mem_build {name : Symbol} {update : Update}
    (listed : update ∈ build symbol depth value) :
    update.concerns name = decide (symbol = name) := by
  induction depth generalizing value with
  | zero =>
    rw [List.mem_singleton.mp listed]
    rfl
  | succ depth ih =>
    cases value with
    | atom value => cases listed
    | hole => cases listed
    | sequence items =>
      rw [build_sequence, List.cons_append, List.mem_cons, List.mem_append] at listed
      rcases listed with rfl | inside | last
      · rfl
      · obtain ⟨item, _, inside⟩ := List.mem_flatMap.mp inside
        exact ih inside
      · rw [List.mem_singleton.mp last]
        rfl

theorem filter_build (symbol : Symbol) (depth : Nat) (value : Term) :
    (build symbol depth value).filter (·.concerns symbol) = build symbol depth value := by
  rw [List.filter_eq_self]
  intro update listed
  rw [concerns_of_mem_build listed]
  exact decide_eq_true rfl

/-- Building a nested value is one way to build it. -/
theorem builds_build (nests : value.Nests (depth + 1)) :
    Builds symbol (depth + 1) value
      ((build symbol (depth + 1) value).filter (·.concerns symbol)) := by
  obtain ⟨items, rfl, each⟩ := nests
  rw [filter_build]
  exact .whole (fills_build each)

/-- The levels of a symbol after the first of some changes that are taken. -/
theorem exists_leaves {bindings : Bindings} {front rest : List Update} {taken : List Level}
    (unbound : bindings.levels symbol = [])
    (done : takeAll symbol [] (front ++ rest) = some taken) :
    ∃ stack, takeAll symbol [] front = some stack ∧
      Leaves symbol stack (bindings.applyAll front) := by
  obtain ⟨stack, part⟩ := exists_takeAll_append done
  refine ⟨stack, part, leaves_applyAll ?_⟩
  rw [unbound]
  exact part

/-- Changes whose part for an unbound symbol builds a value build it. -/
theorem Builds.building {bindings : Bindings} (unbound : bindings.levels symbol = [])
    (builds : Builds symbol depth value (updates.filter (·.concerns symbol))) :
    Building symbol value bindings updates := by
  obtain ⟨level, same, taken⟩ := builds.exists_takeAll
  rw [takeAll_filter] at taken
  have whole : Leaves symbol [level] (bindings.applyAll updates) :=
    leaves_applyAll (by rw [unbound]; exact taken)
  constructor
  · exact whole.refused
  · intro others
    refine exists_applyAll fun name => ?_
    by_cases own : name = symbol
    · rw [own, unbound]
      exact ⟨_, taken⟩
    · exact others name own
  · intro after done
    rw [← same]
    exact lookup_of_single (whole.settled after done)
  · rintro front middle ⟨rest, rfl⟩ done deep
    obtain ⟨stack, part, reached⟩ := exists_leaves unbound taken
    have kept : .erase symbol ∉ front := by
      intro listed
      refine builds.erase_not_mem (List.mem_filter.mpr ⟨List.mem_append_left _ listed, ?_⟩)
      exact decide_eq_true rfl
    have balance := count_le_length kept part
    rw [List.length_nil] at balance
    unfold openLevels at deep
    refine lookup_of_open ?_
    rw [reached.settled middle done]
    omega
  · rintro front middle own ⟨rest, rfl⟩ done apart
    obtain ⟨stack, part, reached⟩ := exists_leaves unbound taken
    rw [← takeAll_filter] at part
    have filtered : Leaves symbol stack
        (bindings.applyAll (front.filter (·.concerns symbol))) :=
      leaves_applyAll (by rw [unbound]; exact part)
    rw [reached.settled middle done, filtered.settled own apart]

/-- Building a value for an unbound symbol succeeds and changes nothing else. -/
theorem exists_build {bindings : Bindings} (unbound : bindings.levels symbol = [])
    (nests : value.Nests (depth + 1)) :
    ∃ after, bindings.applyAll (build symbol (depth + 1) value) = .ok after ∧
      after.lookup symbol = some value ∧
      ∀ other, other ≠ symbol → after.levels other = bindings.levels other := by
  have others : ∀ name, name ≠ symbol →
      takeAll name (bindings.levels name) (build symbol (depth + 1) value) =
        some (bindings.levels name) := by
    intro name apart
    rw [← takeAll_filter, List.filter_eq_nil_iff.mpr]
    · rfl
    · intro update listed
      rw [concerns_of_mem_build listed, decide_eq_true_iff]
      exact apart.symm
  have building : Building symbol value bindings (build symbol (depth + 1) value) :=
    (builds_build nests).building unbound
  obtain ⟨after, done⟩ := building.succeeds fun name apart => ⟨_, others name apart⟩
  refine ⟨after, done, ?_, ?_⟩
  · exact building.finished after done
  · intro other apart
    exact (leaves_applyAll (others other apart)).settled after done

end Building

/-- A nested sequence is built level by level for a symbol that is unbound: the changes that build
it succeed, and among any changes of other symbols, with inner values built or merged, they are
never refused, give the same value in the end and none while inner levels are open. -/
theorem nested_building {symbol : Symbol} {depth : Nat} {value : Term} {bindings : Bindings}
    (unbound : bindings.contains symbol = false) (nests : value.Nests (depth + 1)) :
    (∃ after, bindings.applyAll (build symbol (depth + 1) value) = .ok after ∧
      after.lookup symbol = some value ∧
      ∀ other, other ≠ symbol → after.levels other = bindings.levels other) ∧
    Builds symbol (depth + 1) value
      ((build symbol (depth + 1) value).filter (·.concerns symbol)) ∧
    ∀ updates, Builds symbol (depth + 1) value (updates.filter (·.concerns symbol)) →
      Building symbol value bindings updates := by
  have levels : bindings.levels symbol = [] := by
    unfold Bindings.levels
    rw [Option.isNone_iff_eq_none.mp (Option.isSome_eq_false_iff.mp unbound)]
    rfl
  refine ⟨exists_build levels nests, builds_build nests, ?_⟩
  intro updates builds
  exact builds.building levels

/-- A round that is merged and one without terms, with a change of another symbol between. -/
theorem nested_building_merged :
    empty.contains "x" = false ∧ Term.Nests 2 (.sequence [.sequence [.hole], .sequence []]) ∧
      Building "x" (.sequence [.sequence [.hole], .sequence []]) empty
        [.increaseDepth "x", .merge ⟨⟨[("x", [.collected [.hole]])]⟩⟩, .increaseDepth "x",
          .add "y" .hole, .decreaseDepth "x", .decreaseDepth "x"] ∧
      empty.applyAll
        [.increaseDepth "x", .merge ⟨⟨[("x", [.collected [.hole]])]⟩⟩, .increaseDepth "x",
          .add "y" .hole, .decreaseDepth "x", .decreaseDepth "x"] =
        .ok ⟨⟨[("x", [.collected [.sequence [.hole], .sequence []]]),
          ("y", [.scalar .hole])]⟩⟩ := by
  have unbound : empty.contains "x" = false := rfl
  have nests : Term.Nests 2 (.sequence [.sequence [.hole], .sequence []]) := by
    refine ⟨_, rfl, ?_⟩
    simp [Term.Nests]
  have opened : Reachable ⟨⟨[("x", [.collected []])]⟩⟩ :=
    .increaseDepth .empty (show empty.increaseDepth "x" = _ by rfl)
  have made : Reachable ⟨⟨[("x", [.collected [.hole]])]⟩⟩ :=
    .add opened (show Bindings.add _ "x" .hole = _ by rfl)
  have last : Fills "x" 1 [.sequence []] _ := .nested .done .done
  have rounds : Fills "x" 1 _ _ := .merged made rfl last
  exact ⟨unbound, nests, (nested_building unbound nests).2.2 _ (.whole rounds), rfl⟩

end Bindings

end Reduct
