import Mathlib.Algebra.GroupWithZero.Nat
import Reduct.Proofs.Derivation
import Reduct.Proofs.SortedTable

/-!
# The hole table as a fixpoint

The ranges of the rules only widen while the table is computed, and no range widens more than
three times, so the rounds end at a table that another round leaves as it is. Whatever every
update of a single rule preserves holds of the finished table.
-/

namespace Reduct

namespace HoleCount

theorem rank_add (left right : HoleCount) :
    (left.add right).rank = min 2 (left.rank + right.rank) := by
  cases left <;> cases right <;> rfl

theorem rank_least (left right : HoleCount) :
    (left.least right).rank = min left.rank right.rank := by
  cases left <;> cases right <;> rfl

theorem rank_greatest (left right : HoleCount) :
    (left.greatest right).rank = max left.rank right.rank := by
  cases left <;> cases right <;> rfl

theorem rank_le (count : HoleCount) : count.rank ≤ 2 := by
  cases count <;> decide

theorem rank_inj {left right : HoleCount} (same : left.rank = right.rank) : left = right := by
  cases left <;> cases right <;> first | rfl | cases same

end HoleCount

namespace HoleRange

/-- A range contains the ranges between its ends. -/
def Within (inner outer : HoleRange) : Prop :=
  outer.least.rank ≤ inner.least.rank ∧ inner.greatest.rank ≤ outer.greatest.rank

theorem Within.refl (range : HoleRange) : range.Within range := ⟨Nat.le_refl _, Nat.le_refl _⟩

theorem Within.trans {first second third : HoleRange} (inner : first.Within second)
    (outer : second.Within third) : first.Within third :=
  ⟨Nat.le_trans outer.1 inner.1, Nat.le_trans inner.2 outer.2⟩

theorem Within.antisymm {first second : HoleRange} (inner : first.Within second)
    (outer : second.Within first) : first = second := by
  obtain ⟨least, greatest⟩ := first
  obtain ⟨lower, upper⟩ := second
  have low : least = lower := HoleCount.rank_inj (Nat.le_antisymm outer.1 inner.1)
  have high : greatest = upper := HoleCount.rank_inj (Nat.le_antisymm inner.2 outer.2)
  rw [low, high]

/-- The least count of a range is not above its greatest. -/
def Valid (range : HoleRange) : Prop := range.least.rank ≤ range.greatest.rank

/-- A number of holes falls into a range. -/
def Spans (range : HoleRange) (count : Nat) : Prop :=
  range.least.rank ≤ min 2 count ∧ min 2 count ≤ range.greatest.rank

theorem Spans.within {inner outer : HoleRange} {count : Nat} (spans : inner.Spans count)
    (within : inner.Within outer) : outer.Spans count :=
  ⟨Nat.le_trans within.1 spans.1, Nat.le_trans spans.2 within.2⟩

theorem spans_zero : zero.Spans 0 := ⟨Nat.le_refl _, Nat.le_refl _⟩

/-- A number falls into the range of exactly one hole only if it is one. -/
theorem spans_one_iff {count : Nat} : one.Spans count ↔ count = 1 := by
  simp only [one, exactly, Spans, HoleCount.rank]
  omega

theorem Spans.sum {left right : HoleRange} {first second : Nat} (here : left.Spans first)
    (there : right.Spans second) : (left.sum right).Spans (first + second) := by
  obtain ⟨low, high⟩ := here
  obtain ⟨lower, upper⟩ := there
  simp only [Spans, HoleRange.sum, HoleCount.rank_add]
  omega

/-- The greatest count of repetitions is none exactly when that of one round is. -/
theorem rank_greatest_repeated (range : HoleRange) :
    range.repeated.greatest.rank = if range.greatest.rank = 0 then 0 else 2 := by
  obtain ⟨least, greatest⟩ := range
  cases greatest <;> rfl

theorem Within.sum {first second third fourth : HoleRange} (left : first.Within second)
    (right : third.Within fourth) : (first.sum third).Within (second.sum fourth) := by
  obtain ⟨low, high⟩ := left
  obtain ⟨lower, upper⟩ := right
  simp only [Within, HoleRange.sum, HoleCount.rank_add]
  omega

theorem Within.repeated {inner outer : HoleRange} (within : inner.Within outer) :
    inner.repeated.Within outer.repeated := by
  refine ⟨Nat.le_refl _, ?_⟩
  rw [rank_greatest_repeated, rank_greatest_repeated]
  have high := within.2
  split <;> split <;> omega

/-- Where a rule has no range yet, it is below every range; otherwise ranges are compared by
inclusion. -/
def Below : Option HoleRange → Option HoleRange → Prop
  | none, _ => True
  | some _, none => False
  | some inner, some outer => inner.Within outer

theorem Below.refl (value : Option HoleRange) : Below value value := by
  cases value with
  | none => trivial
  | some range => exact Within.refl range

theorem Below.trans {first second third : Option HoleRange} (inner : Below first second)
    (outer : Below second third) : Below first third := by
  cases first with
  | none => trivial
  | some range =>
    cases second with
    | none => exact inner.elim
    | some middle =>
      cases third with
      | none => exact outer.elim
      | some last => exact Within.trans inner outer

theorem Below.antisymm {first second : Option HoleRange} (inner : Below first second)
    (outer : Below second first) : first = second := by
  cases first with
  | none =>
    cases second with
    | none => rfl
    | some range => exact outer.elim
  | some range =>
    cases second with
    | none => exact inner.elim
    | some other => rw [Within.antisymm inner outer]

/-- How far a range has widened, at most three. -/
def weight : Option HoleRange → Nat
  | none => 0
  | some range => 1 + (range.greatest.rank - range.least.rank)

theorem weight_le (value : Option HoleRange) : weight value ≤ 3 := by
  cases value with
  | none => decide
  | some range =>
    have bound := range.greatest.rank_le
    simp only [weight]
    omega

theorem Below.weight_le {first second : Option HoleRange} (below : Below first second) :
    weight first ≤ weight second := by
  cases first with
  | none => exact Nat.zero_le _
  | some inner =>
    cases second with
    | none => exact below.elim
    | some outer =>
      obtain ⟨low, high⟩ := below
      simp only [weight]
      omega

/-- A valid range that is strictly widened gets heavier. -/
theorem Below.weight_lt {first second : Option HoleRange} (below : Below first second)
    (valid : ∀ range, first = some range → range.Valid) (apart : first ≠ second) :
    weight first < weight second := by
  cases first with
  | none =>
    cases second with
    | none => exact absurd rfl apart
    | some range =>
      simp only [weight]
      omega
  | some inner =>
    cases second with
    | none => exact below.elim
    | some outer =>
      have ordered := valid inner rfl
      obtain ⟨low, high⟩ := below
      by_cases closed : outer.Within inner
      · exact absurd (congrArg some (Within.antisymm ⟨low, high⟩ closed)) apart
      · simp only [Within, not_and, Nat.not_le] at closed
        simp only [Valid] at ordered
        simp only [weight]
        omega

end HoleRange

open HoleRange

namespace Grammar

theorem hull_least (left right : HoleRange) :
    (left.hull right).least.rank = min left.least.rank right.least.rank :=
  HoleCount.rank_least _ _

theorem hull_greatest (left right : HoleRange) :
    (left.hull right).greatest.rank = max left.greatest.rank right.greatest.rank :=
  HoleCount.rank_greatest _ _

/-- A hull contains its parts, and its ends are ends of parts. -/
theorem hullAll_eq_some {ranges : List HoleRange} {range : HoleRange}
    (hull : hullAll ranges = some range) :
    (∀ part ∈ ranges, part.Within range) ∧ (∃ part ∈ ranges, part.least = range.least) ∧
      ∃ part ∈ ranges, part.greatest = range.greatest := by
  cases ranges with
  | nil => cases hull
  | cons first rest =>
    obtain rfl := Option.some.inj hull
    clear hull
    have each : ∀ (rest : List HoleRange) (start : HoleRange),
        start.Within (rest.foldl HoleRange.hull start) ∧
        (∀ part ∈ rest, part.Within (rest.foldl HoleRange.hull start)) ∧
        (∃ part ∈ start :: rest, part.least = (rest.foldl HoleRange.hull start).least) ∧
        ∃ part ∈ start :: rest, part.greatest = (rest.foldl HoleRange.hull start).greatest := by
      intro rest
      induction rest with
      | nil =>
        intro start
        exact ⟨Within.refl _, nofun, ⟨start, List.mem_cons_self, rfl⟩,
          ⟨start, List.mem_cons_self, rfl⟩⟩
      | cons part rest ih =>
        intro start
        obtain ⟨around, inside, ⟨low, lowListed, lowest⟩, ⟨high, highListed, highest⟩⟩ :=
          ih (start.hull part)
        have left : start.Within (start.hull part) := by
          constructor
          · rw [hull_least]
            omega
          · rw [hull_greatest]
            omega
        have right : part.Within (start.hull part) := by
          constructor
          · rw [hull_least]
            omega
          · rw [hull_greatest]
            omega
        refine ⟨left.trans around, ?_, ?_, ?_⟩
        · intro other listed
          rcases List.mem_cons.mp listed with rfl | later
          · exact right.trans around
          · exact inside other later
        · rcases List.mem_cons.mp lowListed with rfl | later
          · rw [List.foldl_cons, ← lowest]
            simp only [HoleRange.hull, HoleCount.least]
            split
            · exact ⟨part, List.mem_cons_of_mem _ List.mem_cons_self, rfl⟩
            · exact ⟨start, List.mem_cons_self, rfl⟩
          · exact ⟨low, List.mem_cons_of_mem _ (List.mem_cons_of_mem _ later), lowest⟩
        · rcases List.mem_cons.mp highListed with rfl | later
          · rw [List.foldl_cons, ← highest]
            simp only [HoleRange.hull, HoleCount.greatest]
            split
            · exact ⟨part, List.mem_cons_of_mem _ List.mem_cons_self, rfl⟩
            · exact ⟨start, List.mem_cons_self, rfl⟩
          · exact ⟨high, List.mem_cons_of_mem _ (List.mem_cons_of_mem _ later), highest⟩
    obtain ⟨around, inside, low, high⟩ := each rest first
    refine ⟨?_, low, high⟩
    intro part listed
    rcases List.mem_cons.mp listed with rfl | later
    · exact around
    · exact inside part later

theorem hullAll_eq_none {ranges : List HoleRange} : hullAll ranges = none ↔ ranges = [] := by
  cases ranges <;> simp [hullAll]

end Grammar

/-- The range that a table has for a rule. -/
def HoleTable.range (table : HoleTable) (name : Symbol) : Option HoleRange :=
  (table.find? name).join

theorem HoleTable.range_insert (table : HoleTable) (name other : Symbol)
    (value : Option HoleRange) :
    HoleTable.range (table.insert name value) other =
      if name = other then value else HoleTable.range table other := by
  rw [HoleTable.range, Table.find?_insert]
  split <;> rfl

/-- One table is below another if it is so for every rule. -/
def HoleTable.Below (first second : HoleTable) : Prop :=
  ∀ name, HoleRange.Below (HoleTable.range first name) (HoleTable.range second name)

theorem HoleTable.Below.refl (table : HoleTable) : HoleTable.Below table table :=
  fun _ => HoleRange.Below.refl _

theorem HoleTable.Below.trans {first second third : HoleTable}
    (inner : HoleTable.Below first second) (outer : HoleTable.Below second third) :
    HoleTable.Below first third :=
  fun name => (inner name).trans (outer name)

namespace Pattern

mutual

/-- The range of a pattern widens with the table. -/
theorem holes_mono {first second : HoleTable} (below : HoleTable.Below first second) :
    (pattern : Pattern) → HoleRange.Below (pattern.holes first) (pattern.holes second)
  | .literal _ | .check _ | .unresolved _ => HoleRange.Below.refl _
  | .builtIn kind symbol => by
    have same : (builtIn kind symbol).holes first = (builtIn kind symbol).holes second := by
      cases kind <;> rfl
    rw [same]
    exact HoleRange.Below.refl _
  | .nonTerminal stem symbol => below stem
  | .sequence items => holesFrom_mono below (Within.refl .zero) items
  | .repeated inner mode => by
    have inside := holes_mono below inner
    rw [holes, holes]
    cases small : inner.holes first with
    | none => cases inner.holes second <;> exact ⟨Nat.le_refl _, Nat.zero_le _⟩
    | some range =>
      cases large : inner.holes second with
      | none =>
        rw [small, large] at inside
        exact inside.elim
      | some other =>
        rw [small, large] at inside
        exact Within.repeated inside
  | .inHole _ contents _ => holes_mono below contents

theorem holesFrom_mono {first second : HoleTable} (below : HoleTable.Below first second)
    {start other : HoleRange} (within : start.Within other) :
    (items : List Pattern) →
      HoleRange.Below (holesFrom first start items) (holesFrom second other items)
  | [] => within
  | item :: rest => by
    have here := holes_mono below item
    rw [holesFrom, holesFrom]
    cases small : item.holes first with
    | none => exact trivial
    | some range =>
      cases large : item.holes second with
      | none =>
        rw [small, large] at here
        exact here.elim
      | some wider =>
        rw [small, large] at here
        exact holesFrom_mono below (within.sum here) rest

end

mutual

/-- The range of a pattern is valid if those of the table are. -/
theorem valid_holes {table : HoleTable}
    (valid : ∀ name range, HoleTable.range table name = some range → range.Valid) :
    (pattern : Pattern) → ∀ range, pattern.holes table = some range → range.Valid
  | .literal _, _, found | .check _, _, found | .unresolved _, _, found => by
    obtain rfl := Option.some.inj found
    exact Nat.le_refl _
  | .builtIn kind symbol, _, found => by
    cases kind <;> (obtain rfl := Option.some.inj found; exact Nat.le_refl _)
  | .nonTerminal stem symbol, range, found => valid stem range found
  | .sequence items, range, found => valid_holesFrom valid items .zero (Nat.le_refl _) range found
  | .repeated inner mode, range, found => by
    rw [holes] at found
    obtain rfl := Option.some.inj found
    cases inner.holes table <;> exact Nat.zero_le _
  | .inHole _ contents _, range, found => valid_holes valid contents range found

theorem valid_holesFrom {table : HoleTable}
    (valid : ∀ name range, HoleTable.range table name = some range → range.Valid) :
    (items : List Pattern) → (start : HoleRange) → start.Valid →
      ∀ range, holesFrom table start items = some range → range.Valid
  | [], start, ordered, range, found => by
    obtain rfl := Option.some.inj found
    exact ordered
  | item :: rest, start, ordered, range, found => by
    rw [holesFrom] at found
    split at found
    · rename_i here sum
      refine valid_holesFrom valid rest (start.sum here) ?_ range found
      have inside := valid_holes valid item here sum
      simp only [Valid, HoleRange.sum, HoleCount.rank_add] at inside ordered ⊢
      omega
    · cases found

end

end Pattern

namespace Grammar

variable {grammar : Grammar}

/-- The range of a rule widens with the table. -/
theorem ruleHoles_mono {first second : HoleTable} (below : HoleTable.Below first second)
    (name : Symbol) :
    HoleRange.Below (grammar.ruleHoles first name) (grammar.ruleHoles second name) := by
  have each : ∀ part ∈ (grammar.alternativesOf name).filterMap (·.holes first),
      ∃ wider ∈ (grammar.alternativesOf name).filterMap (·.holes second), part.Within wider := by
    intro part listed
    obtain ⟨alternative, there, found⟩ := List.mem_filterMap.mp listed
    have inside := Pattern.holes_mono below alternative
    rw [found] at inside
    cases large : alternative.holes second with
    | none =>
      rw [large] at inside
      exact inside.elim
    | some wider =>
      rw [large] at inside
      exact ⟨wider, List.mem_filterMap.mpr ⟨alternative, there, large⟩, inside⟩
  rw [ruleHoles, ruleHoles]
  cases small : hullAll ((grammar.alternativesOf name).filterMap (·.holes first)) with
  | none => trivial
  | some range =>
    obtain ⟨_, ⟨low, lowListed, lowest⟩, ⟨high, highListed, highest⟩⟩ := hullAll_eq_some small
    obtain ⟨lower, lowerListed, lowWithin⟩ := each low lowListed
    obtain ⟨upper, upperListed, highWithin⟩ := each high highListed
    cases large : hullAll ((grammar.alternativesOf name).filterMap (·.holes second)) with
    | none =>
      rw [hullAll_eq_none] at large
      rw [large] at lowerListed
      cases lowerListed
    | some other =>
      have around := (hullAll_eq_some large).1
      have left := around lower lowerListed
      have right := around upper upperListed
      refine ⟨?_, ?_⟩
      · rw [← lowest]
        exact Nat.le_trans left.1 lowWithin.1
      · rw [← highest]
        exact Nat.le_trans highWithin.2 right.2

/-- The range of a rule is valid if those of the table are. -/
theorem valid_ruleHoles {table : HoleTable}
    (valid : ∀ name range, HoleTable.range table name = some range → range.Valid) (name : Symbol)
    (range : HoleRange) (found : grammar.ruleHoles table name = some range) : range.Valid := by
  obtain ⟨around, ⟨low, lowListed, lowest⟩, _⟩ := hullAll_eq_some found
  obtain ⟨alternative, _, here⟩ := List.mem_filterMap.mp lowListed
  have ordered := Pattern.valid_holes valid alternative low here
  have within := around low lowListed
  rw [Valid, ← lowest]
  exact Nat.le_trans ordered within.2

/-- The table after the update of one rule. -/
def updateHoles (grammar : Grammar) (table : HoleTable) (name : Symbol) : HoleTable :=
  table.insert name (grammar.ruleHoles table name)

/-- What holds of a table while it is computed: no update can narrow a range, every rule has an
entry, and the table is in order. -/
structure Ascending (grammar : Grammar) (table : HoleTable) : Prop where
  inflates : ∀ name ∈ grammar.order,
    HoleRange.Below (HoleTable.range table name) (grammar.ruleHoles table name)
  valid : ∀ name range, HoleTable.range table name = some range → range.Valid
  listed : ∀ name ∈ grammar.order, table.find? name = some (HoleTable.range table name)
  sorted : table.Sorted

theorem range_updateHoles (table : HoleTable) (name other : Symbol) :
    HoleTable.range (grammar.updateHoles table name) other =
      if name = other then grammar.ruleHoles table name else HoleTable.range table other :=
  HoleTable.range_insert _ _ _ _

/-- An update widens the table. -/
theorem Ascending.below_update {table : HoleTable} (ascending : grammar.Ascending table)
    {name : Symbol} (known : name ∈ grammar.order) :
    HoleTable.Below table (grammar.updateHoles table name) := by
  intro other
  rw [range_updateHoles]
  split
  · rename_i same
    rw [← same]
    exact ascending.inflates name known
  · exact HoleRange.Below.refl _

/-- An update keeps the table ascending. -/
theorem Ascending.update {table : HoleTable} (ascending : grammar.Ascending table)
    {name : Symbol} (known : name ∈ grammar.order) :
    grammar.Ascending (grammar.updateHoles table name) where
  inflates := by
    intro other listed
    have wider : HoleRange.Below (grammar.ruleHoles table other)
        (grammar.ruleHoles (grammar.updateHoles table name) other) :=
      ruleHoles_mono (ascending.below_update known) other
    rw [range_updateHoles]
    split
    · rename_i same
      subst same
      exact wider
    · exact (ascending.inflates other listed).trans wider
  valid := by
    intro other range found
    rw [range_updateHoles] at found
    split at found
    · exact valid_ruleHoles ascending.valid name range found
    · exact ascending.valid other range found
  listed := by
    intro other there
    rw [range_updateHoles, updateHoles, Table.find?_insert]
    split
    · rfl
    · exact ascending.listed other there
  sorted := ascending.sorted.insert _ _

/-- Updates of some rules, one after another. -/
def updateAll (grammar : Grammar) (table : HoleTable) (names : List Symbol) : HoleTable :=
  names.foldl grammar.updateHoles table

theorem Ascending.updateAll {names : List Symbol} :
    ∀ {table : HoleTable}, grammar.Ascending table → (∀ name ∈ names, name ∈ grammar.order) →
      grammar.Ascending (grammar.updateAll table names) ∧
        HoleTable.Below table (grammar.updateAll table names) := by
  induction names with
  | nil => exact fun ascending _ => ⟨ascending, HoleTable.Below.refl _⟩
  | cons first rest ih =>
    intro table ascending known
    have here := known first List.mem_cons_self
    have others := ih (ascending.update here) fun name listed =>
      known name (List.mem_cons_of_mem _ listed)
    exact ⟨others.1, (ascending.below_update here).trans others.2⟩

/-- Updates that leave the ranges of all rules leave the table, and every updated rule then has
the range that its alternatives give. -/
theorem Ascending.updateAll_eq {names : List Symbol} :
    ∀ {table : HoleTable}, grammar.Ascending table → (∀ name ∈ names, name ∈ grammar.order) →
      (∀ name ∈ grammar.order, HoleTable.range (grammar.updateAll table names) name =
        HoleTable.range table name) →
      grammar.updateAll table names = table ∧
        ∀ name ∈ names, grammar.ruleHoles table name = HoleTable.range table name := by
  induction names with
  | nil => exact fun _ _ _ => ⟨rfl, nofun⟩
  | cons first rest ih =>
    intro table ascending known same
    have here := known first List.mem_cons_self
    have later : ∀ name ∈ rest, name ∈ grammar.order := fun name listed =>
      known name (List.mem_cons_of_mem _ listed)
    have widened := (ascending.update here).updateAll later
    -- The range after the first update lies between the ranges at both ends, which agree.
    have kept : grammar.ruleHoles table first = HoleTable.range table first := by
      have up := widened.2 first
      rw [range_updateHoles, if_pos rfl] at up
      have final := same first here
      change HoleTable.range (grammar.updateAll (grammar.updateHoles table first) rest) first =
        _ at final
      rw [final] at up
      exact up.antisymm (ascending.inflates first here)
    have still : grammar.updateHoles table first = table := by
      rw [updateHoles, kept]
      exact ascending.sorted.insert_self (ascending.listed first here)
    have rest' := ih ascending later (by
      intro name listed
      have final := same name listed
      change HoleTable.range (grammar.updateAll (grammar.updateHoles table first) rest) name =
        _ at final
      rw [still] at final
      exact final)
    refine ⟨?_, ?_⟩
    · change grammar.updateAll (grammar.updateHoles table first) rest = table
      rw [still]
      exact rest'.1
    · intro name listed
      rcases List.mem_cons.mp listed with rfl | there
      · exact kept
      · exact rest'.2 name there

theorem holesRound_eq (table : HoleTable) :
    grammar.holesRound table = grammar.updateAll table grammar.order := rfl

/-- How far the ranges of all rules have widened. -/
def tableWeight (grammar : Grammar) (table : HoleTable) : Nat :=
  (grammar.order.map fun name => weight (HoleTable.range table name)).sum

theorem tableWeight_le (table : HoleTable) :
    grammar.tableWeight table ≤ 3 * grammar.order.length := by
  unfold tableWeight
  induction grammar.order with
  | nil => exact Nat.le_refl _
  | cons first rest ih =>
    have bound := weight_le (HoleTable.range table first)
    simp only [List.map_cons, List.sum_cons, List.length_cons]
    omega

/-- A round that changes the table adds to its weight. -/
theorem Ascending.tableWeight_lt {table : HoleTable} (ascending : grammar.Ascending table)
    (changed : grammar.holesRound table ≠ table) :
    grammar.tableWeight table < grammar.tableWeight (grammar.holesRound table) := by
  rw [holesRound_eq] at changed ⊢
  obtain ⟨_, below⟩ := ascending.updateAll fun name listed => listed
  have some : ∃ name ∈ grammar.order, HoleTable.range table name ≠
      HoleTable.range (grammar.updateAll table grammar.order) name := by
    apply Classical.byContradiction
    intro none
    apply changed
    refine (ascending.updateAll_eq (fun _ listed => listed) ?_).1
    intro name listed
    apply Classical.byContradiction
    intro apart
    exact none ⟨name, listed, fun same => apart same.symm⟩
  unfold tableWeight
  generalize grammar.updateAll table grammar.order = after at below some
  revert some
  induction grammar.order with
  | nil => rintro ⟨_, listed, _⟩; cases listed
  | cons first rest ih =>
    rintro ⟨name, listed, apart⟩
    have each : ∀ names : List Symbol,
        (names.map fun name => weight (HoleTable.range table name)).sum ≤
          (names.map fun name => weight (HoleTable.range after name)).sum := by
      intro names
      induction names with
      | nil => exact Nat.le_refl _
      | cons name names ih =>
        have here := (below name).weight_le
        simp only [List.map_cons, List.sum_cons]
        omega
    simp only [List.map_cons, List.sum_cons]
    rcases List.mem_cons.mp listed with rfl | later
    · have strict := (below name).weight_lt (ascending.valid name) apart
      have others := each rest
      omega
    · have strict := ih ⟨name, later, apart⟩
      have here := (below first).weight_le
      omega

/-- With enough rounds the loop ends at a table that a round leaves as it is. -/
theorem Ascending.holesLoop {fuel : Nat} :
    ∀ {table : HoleTable}, grammar.Ascending table →
      3 * grammar.order.length < grammar.tableWeight table + fuel →
      grammar.Ascending (grammar.holesLoop fuel table) ∧
        grammar.holesRound (grammar.holesLoop fuel table) = grammar.holesLoop fuel table := by
  induction fuel with
  | zero =>
    intro table _ enough
    have bound : grammar.tableWeight table ≤ 3 * grammar.order.length := tableWeight_le table
    omega
  | succ fuel ih =>
    intro table ascending enough
    rw [Grammar.holesLoop]
    by_cases settled : grammar.holesRound table = table
    · simp only [settled, if_true]
      exact ⟨ascending, trivial⟩
    · simp only [settled, if_false]
      have heavier := ascending.tableWeight_lt settled
      refine ih (ascending.updateAll fun _ listed => listed).1 ?_
      rw [holesRound_eq] at heavier
      rw [holesRound_eq]
      omega

/-- The table that the loop starts from. -/
def startHoles (grammar : Grammar) : HoleTable :=
  Table.ofList (grammar.order.map fun name => (name, none))

theorem range_startHoles (name : Symbol) : HoleTable.range grammar.startHoles name = none := by
  unfold HoleTable.range startHoles
  cases found : (Table.ofList (grammar.order.map fun name =>
      (name, (none : Option HoleRange)))).find? name with
  | none => rfl
  | some value =>
    obtain ⟨other, _, same⟩ := List.mem_map.mp (Table.mem_of_find?_ofList found)
    rw [← (Prod.mk.inj same).2]
    rfl

theorem ascending_startHoles : grammar.Ascending grammar.startHoles where
  inflates := by
    intro name _
    rw [range_startHoles]
    trivial
  valid := by
    intro name range found
    rw [range_startHoles] at found
    cases found
  listed := by
    intro name known
    have bound : (name, (none : Option HoleRange)) ∈ grammar.order.map fun name => (name, none) :=
      List.mem_map.mpr ⟨name, known, rfl⟩
    obtain ⟨value, found⟩ := Table.exists_find?_ofList bound
    rw [HoleTable.range, startHoles, found]
    obtain ⟨_, _, same⟩ := List.mem_map.mp (Table.mem_of_find?_ofList found)
    rw [← (Prod.mk.inj same).2]
    rfl
  sorted := Table.sorted_ofList _

/-- Every rule has the range that its alternatives give under the finished table. -/
theorem ruleHoles_holeTable {name : Symbol} (known : name ∈ grammar.order) :
    grammar.ruleHoles grammar.holeTable name = HoleTable.range grammar.holeTable name := by
  have enough : 3 * grammar.order.length <
      grammar.tableWeight grammar.startHoles + (3 * grammar.order.length + 1) := by
    omega
  obtain ⟨ascending, settled⟩ := ascending_startHoles.holesLoop enough
  change grammar.holesRound grammar.holeTable = grammar.holeTable at settled
  change grammar.Ascending grammar.holeTable at ascending
  rw [holesRound_eq] at settled
  refine (ascending.updateAll_eq (fun _ listed => listed) ?_).2 name known
  intro other _
  rw [settled]

/-- What holds of the first table and is kept by every update of a rule holds of the finished
table. -/
theorem holeTable_induction {motive : HoleTable → Prop} (start : motive grammar.startHoles)
    (update : ∀ table, motive table → ∀ name ∈ grammar.order,
      motive (grammar.updateHoles table name)) : motive grammar.holeTable := by
  have round : ∀ (names : List Symbol) (table : HoleTable),
      (∀ name ∈ names, name ∈ grammar.order) → motive table →
        motive (grammar.updateAll table names) := by
    intro names
    induction names with
    | nil => exact fun _ _ holds => holds
    | cons first rest ih =>
      intro table known holds
      exact ih _ (fun name listed => known name (List.mem_cons_of_mem _ listed))
        (update table holds first (known first List.mem_cons_self))
  have loop : ∀ (fuel : Nat) (table : HoleTable), motive table →
      motive (grammar.holesLoop fuel table) := by
    intro fuel
    induction fuel with
    | zero => exact fun _ holds => holds
    | succ fuel ih =>
      intro table holds
      rw [holesLoop]
      split
      · exact holds
      · exact ih _ (round grammar.order table (fun _ listed => listed) holds)
  exact loop _ _ start

end Grammar

end Reduct
