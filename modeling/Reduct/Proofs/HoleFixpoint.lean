import Reduct.Proofs.HoleTable

/-!
# The hole table as the least fixpoint

The ranges of a grammar solve one equation for each rule: a rule has the hull of the ranges of its
alternatives. The rounds update the table in place and replace what they find, and still every
update widens, since no range is ever above that of a table that solves the equations. So the
rounds end at the least solution, which the order of the rules plays no part in.
-/

namespace Reduct

namespace Grammar

/-- A table gives every rule the range that its alternatives have under the table. -/
def Solves (grammar : Grammar) (table : HoleTable) : Prop :=
  ∀ name ∈ grammar.order, HoleTable.range table name = grammar.ruleHoles table name

/-- Rounds from a table on end at another one, the first that a round leaves as it is. -/
inductive Settles (grammar : Grammar) : HoleTable → HoleTable → Prop
  | settled {table : HoleTable} (same : grammar.holesRound table = table) :
      Settles grammar table table
  | round {table last : HoleTable} (changed : grammar.holesRound table ≠ table)
      (later : Settles grammar (grammar.holesRound table) last) : Settles grammar table last

/-- The tables that the rounds pass through, each with the rules that are still to be visited in
its round. -/
inductive Passes (grammar : Grammar) : HoleTable → List Symbol → Prop
  | start : Passes grammar grammar.startHoles grammar.order
  | update {table : HoleTable} {name : Symbol} {rest : List Symbol}
      (passed : Passes grammar table (name :: rest)) :
      Passes grammar (grammar.updateHoles table name) rest
  | round {table : HoleTable} (passed : Passes grammar table []) :
      Passes grammar table grammar.order

variable {grammar : Grammar}

theorem ascending_holeTable : grammar.Ascending grammar.holeTable :=
  holeTable_induction ascending_startHoles fun _ ascending _ known => ascending.update known

/-- The finished table has an entry for every rule, and no others. -/
theorem find?_holeTable (name : Symbol) : grammar.holeTable.find? name =
    if name ∈ grammar.order then some (HoleTable.range grammar.holeTable name) else none := by
  split
  · rename_i known
    exact ascending_holeTable.listed name known
  · rename_i unknown
    refine holeTable_induction (motive := fun table => table.find? name = none) ?_ ?_
    · refine Table.find?_ofList_eq_none ?_
      rw [List.map_map]
      exact fun listed => unknown (by simpa using listed)
    · intro table none other known
      rw [updateHoles, Table.find?_insert, if_neg, none]
      rintro rfl
      exact unknown known

/-- A loop that stops at a table that a round leaves as it is has not been cut short. -/
theorem settles_holesLoop {fuel : Nat} : ∀ {table : HoleTable},
    grammar.holesRound (grammar.holesLoop fuel table) = grammar.holesLoop fuel table →
      grammar.Settles table (grammar.holesLoop fuel table) := by
  induction fuel with
  | zero => exact .settled
  | succ fuel ih =>
    intro table final
    rw [holesLoop] at final ⊢
    by_cases same : grammar.holesRound table = table
    · simp only [same, if_true]
      exact .settled same
    · simp only [same, if_false] at final ⊢
      exact .round same (ih final)

/-- The rounds from the first table on end at the finished one. -/
theorem settles_holeTable : grammar.Settles grammar.startHoles grammar.holeTable := by
  have enough : 3 * grammar.order.length <
      grammar.tableWeight grammar.startHoles + (3 * grammar.order.length + 1) := by
    omega
  exact settles_holesLoop (ascending_startHoles.holesLoop enough).2

/-- The finished table is below every table that gives no rule less than its alternatives have. -/
theorem below_of_closed {other : HoleTable} (closed : ∀ name ∈ grammar.order,
    HoleRange.Below (grammar.ruleHoles other name) (HoleTable.range other name)) :
    HoleTable.Below grammar.holeTable other := by
  refine holeTable_induction (motive := fun table => HoleTable.Below table other) ?_ ?_
  · intro name
    rw [range_startHoles]
    trivial
  · intro table below name known other
    rw [range_updateHoles]
    split
    · rename_i same
      rw [← same]
      exact (ruleHoles_mono below name).trans (closed name known)
    · exact below other

theorem below_of_solves {other : HoleTable} (solves : grammar.Solves other) :
    HoleTable.Below grammar.holeTable other := by
  refine below_of_closed fun name known => ?_
  rw [solves name known]
  exact HoleRange.Below.refl _

theorem solves_holeTable : grammar.Solves grammar.holeTable :=
  fun _ known => (ruleHoles_holeTable known).symm

/-- Every table that the rounds pass through is on the way up. -/
theorem Passes.ascending {table : HoleTable} {rest : List Symbol}
    (passed : grammar.Passes table rest) :
    grammar.Ascending table ∧ ∀ name ∈ rest, name ∈ grammar.order := by
  induction passed with
  | start => exact ⟨ascending_startHoles, fun _ listed => listed⟩
  | update _ ih =>
    obtain ⟨known, others⟩ := List.forall_mem_cons.mp ih.2
    exact ⟨ih.1.update known, others⟩
  | round _ ih => exact ⟨ih.1, fun _ listed => listed⟩

/-- Grammars with the same alternatives have the same table, whatever the order of their rules. -/
theorem holeTable_perm {order : List Symbol} (perm : order.Perm grammar.order) :
    holeTable ⟨order, grammar.alternatives⟩ = grammar.holeTable := by
  have other : Solves ⟨order, grammar.alternatives⟩ (holeTable ⟨order, grammar.alternatives⟩) :=
    solves_holeTable
  have solves : grammar.Solves (holeTable ⟨order, grammar.alternatives⟩) := fun name known =>
    other name (perm.mem_iff.mpr known)
  have solved : Solves ⟨order, grammar.alternatives⟩ grammar.holeTable := fun name known =>
    solves_holeTable name (perm.mem_iff.mp known)
  refine ascending_holeTable.sorted.eq_of_find? ascending_holeTable.sorted fun name => ?_
  have same := (below_of_solves solved name).antisymm (below_of_solves solves name)
  rw [find?_holeTable, find?_holeTable, same]
  simp only [perm.mem_iff]

/-- The rounds end, and at the least solution of the equations of the rules; until then every
update widens the table, and the solution does not depend on the order of the rules. -/
theorem holeTable_least (grammar : Grammar) :
    grammar.Settles grammar.startHoles grammar.holeTable ∧
      grammar.Solves grammar.holeTable ∧
      (∀ other, grammar.Solves other → HoleTable.Below grammar.holeTable other) ∧
      (∀ table name rest, grammar.Passes table (name :: rest) →
        HoleTable.Below table (grammar.updateHoles table name)) ∧
      ∀ order : List Symbol, order.Perm grammar.order →
        holeTable ⟨order, grammar.alternatives⟩ = grammar.holeTable := by
  refine ⟨settles_holeTable, solves_holeTable, fun _ => below_of_solves, ?_,
    fun _ => holeTable_perm⟩
  intro table name rest passed
  obtain ⟨ascending, known⟩ := passed.ascending
  exact ascending.below_update (known name List.mem_cons_self)

/-- A context `E`, an alias cycle of `A` and `B`, and a rule `C` that derives no finite term. -/
def aliasedContexts : Grammar where
  order := ["E", "A", "B", "C"]
  alternatives := .ofList
    [("E", [.builtIn .hole "hole", .sequence [.nonTerminal "A" "A", .nonTerminal "E" "E"]]),
      ("A", [.nonTerminal "B" "B", .builtIn .hole "hole"]), ("B", [.nonTerminal "A" "A"]),
      ("C", [.sequence [.nonTerminal "C" "C"]])]

/-- The rules of `E`, `A` and `B` have their ranges in another order as well. -/
theorem aliasedContexts_least :
    holeTable ⟨["C", "B", "A", "E"], aliasedContexts.alternatives⟩ =
      .ofList [("A", some .one), ("B", some .one), ("C", none), ("E", some ⟨.one, .many⟩)] := by
  have same := (holeTable_least aliasedContexts).2.2.2.2 ["C", "B", "A", "E"] (by decide)
  rw [same]
  decide +kernel

end Grammar

end Reduct
