import Mathlib.Algebra.Group.Nat.Defs
import Reduct.Machine

/-!
# Judging runs

What code does is stated once for two ways to judge its runs. The total way asks that a run comes
to its goal after finitely many steps. The partial way asks this only of the first steps, as many
as a number tells; it may excuse bindings that are used out of turn. Both excuse a list without
room for more values, which takes a list of at least half as many values as can be counted.

A policy says for which calls under way this is asked, and which failures of the code are taken
for a goal. Code is described by the variables and the store at its end, or by the value that it
gives, and a call by its value and the store.
-/

namespace Reduct

/-- Some list holds half as many values as can be counted, or more. -/
def Store.Crowded (store : Store) : Prop :=
  ∃ place items, store.list? place = some items ∧ 2 ^ 62 ≤ items.size

/-- The calls under way in which code is judged, and the failures of code that are excused. -/
structure Policy where
  admits : CallStack → Prop
  excuses : EvalError → Prop
  /-- The calls under way are admitted after one more has started. -/
  pushed : ∀ {calls after : CallStack} {function : Symbol}, admits calls →
    calls.push function = .ok after → admits after
  /-- A call that is refused for want of room on the call stack is excused. -/
  refused : ∀ {calls : CallStack} {function : Symbol} {cause : EvalError}, admits calls →
    calls.push function = .error cause → excuses cause

namespace Policy

/-- Calls without a limit, and no failure. -/
def unlimited : Policy where
  admits calls := calls.limit = none
  excuses _ := False
  pushed := by
    intro calls after function free started
    match calls, free with
    | ⟨_, _, none, _⟩, _ =>
      cases started
      rfl
  refused := by
    intro calls function cause free failed
    match calls, free with
    | ⟨_, _, none, _⟩, _ => cases failed

/-- Any calls, and any failure. -/
def lax : Policy where
  admits _ := True
  excuses _ := True
  pushed _ _ := trivial
  refused _ _ := trivial

end Policy

/-- A way to judge the runs from a state. -/
structure Judgement extends Policy where
  /-- The runs from a state come to a set of states, or are excused. -/
  holds : State → (State → Prop) → Prop
  /-- The same of what a step leads to. -/
  next : Progress → (State → Prop) → Prop
  /-- Whether bindings used out of turn are excused. -/
  tolerant : Prop
  done : ∀ {state : State} {goal : State → Prop}, goal state → holds state goal
  step : ∀ {state : State} {goal : State → Prop}, next state.step goal → holds state goal
  more : ∀ {state : State} {goal : State → Prop}, holds state goal → next (.more state) goal
  bind : ∀ {state : State} {middle goal : State → Prop}, holds state middle →
    (∀ other, middle other → holds other goal) → holds state goal
  bindNext : ∀ {progress : Progress} {middle goal : State → Prop}, next progress middle →
    (∀ other, middle other → holds other goal) → next progress goal
  exhausted : ∀ {machine : Machine}, machine.store.Crowded → ∀ locals goal,
    next (.ended ⟨.error .exhausted, locals, machine⟩) goal
  misuse : tolerant → ∀ cause locals machine goal,
    next (.ended ⟨.error (.misuse cause), locals, machine⟩) goal

namespace State

/-- A run from the state comes to the goal, or to a list without room. -/
inductive Comes (goal : State → Prop) : State → Prop
  | here {state : State} : goal state → Comes goal state
  | full {state : State} {locals : Table Value} {machine : Machine} :
      machine.store.Crowded → state.step = .ended ⟨.error .exhausted, locals, machine⟩ →
      Comes goal state
  | later {state next : State} : state.step = .more next → Comes goal next → Comes goal state

theorem Comes.bind {middle goal : State → Prop} {state : State} (comes : Comes middle state)
    (others : ∀ other, middle other → Comes goal other) : Comes goal state := by
  induction comes with
  | here reached => exact others _ reached
  | full crowded stopped => exact .full crowded stopped
  | later stepped _ ih => exact .later stepped ih

/-- A run from the state comes to the goal within a number of steps, unless it goes on or is
excused. -/
def Within (tolerant : Prop) (goal : State → Prop) : Nat → State → Prop
  | 0, _ => True
  | count + 1, state =>
    goal state ∨
      match state.step with
      | .more next => Within tolerant goal count next
      | .ended ⟨.error .exhausted, _, _⟩ => True
      | .ended ⟨.error (.misuse _), _, _⟩ => tolerant
      | .ended _ => False

variable {tolerant : Prop}

theorem Within.of_succ {goal : State → Prop} {count : Nat} {state : State}
    (within : Within tolerant goal (count + 1) state) : Within tolerant goal count state := by
  induction count generalizing state with
  | zero => trivial
  | succ count ih =>
    rcases within with reached | rest
    · exact .inl reached
    · refine .inr ?_
      split at rest
      · exact ih rest
      · trivial
      · exact rest
      · exact rest

theorem Within.bind {middle goal : State → Prop} {count : Nat} {state : State}
    (within : Within tolerant middle count state)
    (others : ∀ other, middle other → Within tolerant goal count other) :
    Within tolerant goal count state := by
  induction count generalizing state with
  | zero => trivial
  | succ count ih =>
    rcases within with reached | rest
    · exact others state reached
    · refine .inr ?_
      split at rest
      · exact ih rest fun other reached => (others other reached).of_succ
      · trivial
      · exact rest
      · exact rest

end State

namespace Judgement

/-- The total way. -/
def total (policy : Policy) : Judgement where
  toPolicy := policy
  holds state goal := State.Comes goal state
  next progress goal :=
    match progress with
    | .more state => State.Comes goal state
    | .ended ⟨.error .exhausted, _, machine⟩ => machine.store.Crowded
    | .ended _ => False
  tolerant := False
  done := .here
  step := by
    intro state goal after
    split at after
    · rename_i stepped
      exact .later stepped after
    · rename_i stepped
      exact .full after stepped
    · exact after.elim
  more := id
  bind := State.Comes.bind
  bindNext := by
    intro progress middle goal after others
    split at after
    · exact after.bind others
    · exact after
    · exact after
  exhausted crowded _ _ := crowded
  misuse := False.elim

/-- The partial way, for a number of steps. -/
def upTo (policy : Policy) (tolerant : Prop) (count : Nat) : Judgement where
  toPolicy := policy
  holds state goal := State.Within tolerant goal count state
  next progress goal :=
    match count, progress with
    | 0, _ => True
    | count + 1, .more state => State.Within tolerant goal count state
    | _ + 1, .ended ⟨.error .exhausted, _, _⟩ => True
    | _ + 1, .ended ⟨.error (.misuse _), _, _⟩ => tolerant
    | _ + 1, .ended _ => False
  tolerant := tolerant
  done := by
    intro state goal reached
    cases count with
    | zero => trivial
    | succ count => exact .inl reached
  step := by
    intro state goal after
    cases count with
    | zero => trivial
    | succ count =>
      refine .inr ?_
      split at after
      · contradiction
      all_goals simp_all
  more := by
    intro state goal within
    cases count with
    | zero => trivial
    | succ count => exact within.of_succ
  bind := State.Within.bind
  bindNext := by
    intro progress middle goal after others
    split at after
    · trivial
    · exact after.bind fun other reached => (others other reached).of_succ
    · trivial
    · exact after
    · exact after
  exhausted := by
    intro machine _ locals goal
    cases count <;> trivial
  misuse := by
    intro excused cause locals machine goal
    cases count with
    | zero => trivial
    | succ count => exact excused

end Judgement

end Reduct
