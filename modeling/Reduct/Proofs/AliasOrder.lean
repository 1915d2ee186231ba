import Mathlib.Data.List.Perm.Subperm
import Reduct.Language

/-!
# The order of aliases

Where the search for cycles finds none, the rules it has done with stand in an order: every
non-terminal that is an alternative of a rule stands before it. A rule has a rank, no greater than
the number of rules, that is greater than the ranks of its aliases.
-/

namespace Reduct.Grammar

/-- Distinct rules, each listed before its aliases, which are in the list too. -/
def Settled (grammar : Grammar) : List Symbol → Prop
  | [] => True
  | name :: rest =>
    (name ∉ rest ∧ name ∈ grammar.order) ∧ (∀ stem ∈ grammar.aliases name, stem ∈ rest) ∧
      grammar.Settled rest

/-- The number of rules from a rule on, none if it is not in the list. -/
def rankIn : List Symbol → Symbol → Nat
  | [], _ => 0
  | name :: rest, other => if other = name then rest.length + 1 else rankIn rest other

theorem rankIn_le (done : List Symbol) (name : Symbol) : rankIn done name ≤ done.length := by
  induction done with
  | nil => exact Nat.le_refl _
  | cons first rest ih =>
    rw [rankIn, List.length_cons]
    split
    · exact Nat.le_refl _
    · exact Nat.le_succ_of_le ih

variable {grammar : Grammar}

theorem Settled.nodup {done : List Symbol} (settled : grammar.Settled done) : done.Nodup := by
  induction done with
  | nil => exact List.nodup_nil
  | cons first rest ih => exact List.nodup_cons.mpr ⟨settled.1.1, ih settled.2.2⟩

theorem Settled.mem_order {done : List Symbol} (settled : grammar.Settled done) {name : Symbol}
    (listed : name ∈ done) : name ∈ grammar.order := by
  induction done with
  | nil => cases listed
  | cons first rest ih =>
    rcases List.mem_cons.mp listed with rfl | later
    · exact settled.1.2
    · exact ih settled.2.2 later

/-- The aliases of a rule in the list are in the list, with lower ranks. -/
theorem Settled.rankIn_lt {done : List Symbol} (settled : grammar.Settled done) {name stem : Symbol}
    (listed : name ∈ done) (leads : stem ∈ grammar.aliases name) :
    stem ∈ done ∧ rankIn done stem < rankIn done name := by
  induction done with
  | nil => cases listed
  | cons first rest ih =>
    obtain ⟨⟨outside, _⟩, aliases, others⟩ := settled
    rw [rankIn, rankIn]
    by_cases same : name = first
    · have there : stem ∈ rest := aliases stem (same ▸ leads)
      have apart : stem ≠ first := fun equal => outside (equal ▸ there)
      rw [if_neg apart, if_pos same]
      exact ⟨List.mem_cons_of_mem _ there, Nat.lt_succ_of_le (rankIn_le rest stem)⟩
    · have later : name ∈ rest := (List.mem_cons.mp listed).resolve_left same
      obtain ⟨there, lower⟩ := ih others later
      have apart : stem ≠ first := fun equal => outside (equal ▸ there)
      rw [if_neg apart, if_neg same]
      exact ⟨List.mem_cons_of_mem _ there, lower⟩

/-- What a search leaves: the rules done with, settled and apart from the rules on the way. -/
structure Cleared (grammar : Grammar) (way before after : List Symbol) : Prop where
  settled : grammar.Settled after
  grown : ∀ name ∈ before, name ∈ after
  apart : ∀ name ∈ way, name ∉ after

theorem Cleared.refl {way done : List Symbol} (settled : grammar.Settled done)
    (apart : ∀ name ∈ way, name ∉ done) : grammar.Cleared way done done :=
  ⟨settled, fun _ listed => listed, apart⟩

/-- Searching from every name in turn adds all of them to the rules done with. -/
theorem searchEach_clear {search : List Symbol → Symbol → CycleSearch} {way names : List Symbol}
    (each : ∀ name ∈ names, ∀ before after, grammar.Settled before →
      (∀ other ∈ way, other ∉ before) → search before name = .clear after →
      grammar.Cleared way before after ∧ name ∈ after) :
    ∀ {before after : List Symbol}, grammar.Settled before → (∀ other ∈ way, other ∉ before) →
      searchEach search before names = .clear after →
      grammar.Cleared way before after ∧ ∀ name ∈ names, name ∈ after := by
  induction names with
  | nil =>
    intro before after settled apart run
    cases run
    exact ⟨.refl settled apart, nofun⟩
  | cons name rest ih =>
    intro before after settled apart run
    rw [searchEach] at run
    cases first : search before name with
    | found cycle =>
      rw [first] at run
      cases run
    | clear middle =>
      rw [first] at run
      obtain ⟨here, listed⟩ := each name List.mem_cons_self before middle settled apart first
      obtain ⟨there, others⟩ := ih (fun other inside => each other (List.mem_cons_of_mem _ inside))
        here.settled here.apart run
      refine ⟨⟨there.settled, fun other inside => there.grown other (here.grown other inside),
        there.apart⟩, ?_⟩
      intro other inside
      rcases List.mem_cons.mp inside with rfl | later
      · exact there.grown other listed
      · exact others other later

/-- A search that is clear adds the rule to the rules done with. The rules on the way are
distinct, so the fuel does not run out. -/
theorem searchCycle_clear
    (closed : ∀ name, ∀ stem ∈ grammar.aliases name, stem ∈ grammar.order) :
    ∀ (fuel : Nat) (way : List Symbol) (name : Symbol) (before after : List Symbol),
      fuel + way.length = grammar.order.length + 1 → way.Nodup →
      (∀ other ∈ way, other ∈ grammar.order) → name ∈ grammar.order → grammar.Settled before →
      (∀ other ∈ way, other ∉ before) → grammar.searchCycle fuel way before name = .clear after →
      grammar.Cleared way before after ∧ name ∈ after := by
  intro fuel
  induction fuel with
  | zero =>
    intro way name before after count distinct inside _ _ _ _
    have bound := (List.subperm_of_subset distinct inside).length_le
    omega
  | succ fuel ih =>
    intro way name before after count distinct inside known settled apart run
    rw [searchCycle] at run
    split at run
    · cases run
    · rename_i new
      split at run
      · rename_i done
        cases run
        exact ⟨.refl settled apart, done⟩
      · rename_i undone
        cases search : searchEach (grammar.searchCycle fuel (name :: way)) before
            (grammar.aliases name) with
        | found cycle =>
          rw [search] at run
          cases run
        | clear middle =>
          rw [search] at run
          cases run
          have onWay : ∀ other ∈ name :: way, other ∉ before := by
            intro other listed
            rcases List.mem_cons.mp listed with rfl | later
            · exact undone
            · exact apart other later
          have allKnown : ∀ other ∈ name :: way, other ∈ grammar.order := by
            intro other listed
            rcases List.mem_cons.mp listed with rfl | later
            · exact known
            · exact inside other later
          obtain ⟨cleared, all⟩ := searchEach_clear (fun stem listed first second formed free =>
            ih (name :: way) stem first second (by rw [List.length_cons]; omega)
              (List.nodup_cons.mpr ⟨new, distinct⟩) allKnown (closed name stem listed) formed free)
            settled onWay search
          refine ⟨⟨⟨⟨cleared.apart name List.mem_cons_self, known⟩, all, cleared.settled⟩, ?_, ?_⟩,
            List.mem_cons_self⟩
          · exact fun other listed => List.mem_cons_of_mem _ (cleared.grown other listed)
          · intro other listed there
            rcases List.mem_cons.mp there with rfl | later
            · exact new listed
            · exact cleared.apart other (List.mem_cons_of_mem _ listed) later

/-- A grammar without cycles of aliases ranks its rules. -/
theorem exists_rank (acyclic : grammar.aliasCycle? = none)
    (closed : ∀ name, ∀ stem ∈ grammar.aliases name, stem ∈ grammar.order)
    (absent : ∀ name, name ∉ grammar.order → grammar.aliases name = []) :
    ∃ rank : Symbol → Nat, (∀ name, rank name ≤ grammar.order.length) ∧
      ∀ name, ∀ stem ∈ grammar.aliases name, rank stem < rank name := by
  unfold aliasCycle? at acyclic
  cases search : searchEach (grammar.searchCycle (grammar.order.length + 1) []) []
      grammar.order with
  | found cycle =>
    rw [search] at acyclic
    cases acyclic
  | clear done =>
    have start : grammar.Settled [] := trivial
    obtain ⟨cleared, all⟩ := searchEach_clear (fun name listed before after settled free =>
      searchCycle_clear closed _ [] name before after rfl List.nodup_nil nofun listed settled free)
      start nofun search
    have settled := cleared.settled
    have count : done.length ≤ grammar.order.length :=
      (List.subperm_of_subset settled.nodup fun _ => settled.mem_order).length_le
    refine ⟨rankIn done, fun name => Nat.le_trans (rankIn_le done name) count, ?_⟩
    intro name stem leads
    have known : name ∈ grammar.order := by
      apply Classical.byContradiction
      intro outside
      rw [absent name outside] at leads
      cases leads
    exact (settled.rankIn_lt (all name known) leads).2

end Reduct.Grammar
