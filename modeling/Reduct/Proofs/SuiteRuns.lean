import Reduct.Proofs.EntryVerdicts

/-!
# Runs that report

A run of a specification under a limit of calls comes to its report, whatever its entries do: each
of them returns or fails, and none uses bindings out of turn. Only a list of at least half as many
values as can be counted may cut a run short.
-/

namespace Reduct

namespace Machine

/-- More fuel does not change a call that has ended. -/
theorem call_add {machine : Machine} {fuel : Nat} {function : Symbol} {arguments : List Value}
    (ended : (machine.call fuel function arguments).1 ≠ .error .exhausted) (more : Nat) :
    machine.call (fuel + more) function arguments = machine.call fuel function arguments := by
  unfold call at ended ⊢
  split
  · rfl
  · rename_i definition found
    rw [found] at ended
    dsimp only at ended
    split
    · rfl
    · rename_i locals started begun
      rw [begun] at ended
      dsimp only at ended
      rw [State.run_add]
      intro cut
      generalize State.run fuel _ = outcome at ended cut
      obtain ⟨flow, last, after⟩ := outcome
      cases cut
      exact ended rfl

/-- Calls of functions end without misuse, each after enough steps. -/
def Settled (machine : Machine) (function : Symbol) : Prop :=
  (∀ fuel cause after, machine.call fuel function [] ≠ (.error (.misuse cause), after)) ∧
    ∃ enough, ∀ fuel, enough ≤ fuel → ∀ after,
      machine.call fuel function [] = (.error .exhausted, after) → after.store.Crowded

/-- From some fuel on, a call ends in one way, or a list has no room for more. -/
theorem Settled.cases {machine : Machine} {function : Symbol} (settled : machine.Settled function) :
    ∃ enough, (∀ fuel, enough ≤ fuel → ∃ after,
        machine.call fuel function [] = (.error .exhausted, after) ∧ after.store.Crowded) ∨
      ∃ result next, ∀ fuel, enough ≤ fuel → machine.call fuel function [] =
        ((result : Except EvalError Value).mapError .error, next) := by
  obtain ⟨never, enough, crowded⟩ := settled
  by_cases cut : ∀ fuel, enough ≤ fuel → (machine.call fuel function []).1 = .error .exhausted
  · refine ⟨enough, .inl fun fuel above => ?_⟩
    exact ⟨_, Prod.ext (cut fuel above) rfl, crowded fuel above _ (Prod.ext (cut fuel above) rfl)⟩
  · push Not at cut
    obtain ⟨fuel, _, ended⟩ := cut
    have same : ∀ other, fuel ≤ other →
        machine.call other function [] = machine.call fuel function [] := by
      intro other above
      obtain ⟨more, rfl⟩ := Nat.exists_eq_add_of_le above
      exact call_add ended more
    match called : machine.call fuel function [] with
    | (.ok value, next) => exact ⟨fuel, .inr ⟨.ok value, next, fun other above => by
        rw [same other above, called]; rfl⟩⟩
    | (.error (.error cause), next) => exact ⟨fuel, .inr ⟨.error cause, next, fun other above => by
        rw [same other above, called]; rfl⟩⟩
    | (.error .exhausted, next) => exact absurd (by rw [called]) ended
    | (.error (.misuse cause), next) => exact absurd called (never fuel cause next)

variable {machine : Machine}

end Machine

namespace Program

end Program

end Reduct
