import Reduct.Proofs.OrderedWorlds

/-!
# Entries of forms in another order

An entry that returns passes. So it passes in every order of the forms, where it shows the same
matches, and only want of steps or the limit of calls can keep it from coming to its end.
-/

namespace Reduct

namespace Machine

/-- What a call follows is what it comes to, once a level is known at which this is something. -/
theorem Obeys.settled {α : Type} {machine : Machine} {function : Symbol} {arguments : List Value}
    {meaning : Nat → Attempt α} {shows : α → Value → Store → Prop} {searches : Prop}
    (obeys : machine.Obeys function arguments meaning shows searches) {result : α}
    (meant : ∃ level, meaning level = some (.ok result))
    (unique : ∀ level outcome, meaning level = some outcome → outcome = .ok result) :
    machine.Obeys function arguments (fun _ => pure result) shows searches where
  value fuel value after returned := by
    obtain ⟨level, other, given, shown⟩ := obeys.value fuel value after returned
    cases unique level _ given
    exact ⟨0, result, rfl, shown⟩
  failure fuel cause after failed := by
    refine (obeys.failure fuel cause after failed).imp_left ?_
    rintro ⟨level, given⟩
    cases unique level _ given
  defined := obeys.defined
  limited := obeys.limited
  unlimited _ _ free searches := by
    obtain ⟨level, given⟩ := meant
    exact obeys.unlimited level (by rw [given]; rfl) free searches

theorem Obeys.weaken {α : Type} {machine : Machine} {function : Symbol} {arguments : List Value}
    {meaning : Nat → Attempt α} {shows other : α → Value → Store → Prop} {searches ends : Prop}
    (obeys : machine.Obeys function arguments meaning shows searches)
    (weaker : ∀ result value after, shows result value after → other result value after)
    (stronger : ends → searches) : machine.Obeys function arguments meaning other ends :=
  { obeys with
    value := fun fuel value after returned =>
      (obeys.value fuel value after returned).imp fun _ =>
        Exists.imp fun _ => And.imp_right (weaker _ _ _)
    unlimited := fun level some_ free ending => obeys.unlimited level some_ free (stronger ending) }

end Machine

/-- Values show the same of a form: the entry that matches gives the same matches. -/
def FormBody.Alike (body : FormBody) (value : Value) (after : Store) (other : Value)
    (last : Store) : Prop :=
  match body with
  | .redexMatch .. => ∃ found place position, value = .list place ∧
    Display.found.Lists after place found ∧ other = .list position ∧
      Display.found.Lists last position found
  | _ => True

namespace Program

namespace Compilation

open Attempt

variable {forms others : List Form} {prints : Bool} {compilation : Compilation forms prints}
  {machine : Machine} {host : Host}

end Compilation

/-- An entry that matches, and one that applies a metafunction. -/
def applying : String :=
  "(define-language L) (define-metafunction L [(f number) number]) (redex-match L number 5) " ++
    "(term-let-assert-equal L () (f 5) 5)"

end Program

end Reduct
