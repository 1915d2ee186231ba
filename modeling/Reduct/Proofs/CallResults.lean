import Reduct.Proofs.CodeRules

/-!
# The results of calls

What is known of the body of a function is read off the results of calls. Where the total way to
judge runs applies, a call with enough fuel gives a value or a failure that is excused, unless a
list has no room. Where the partial way applies for every number of steps, the result of a call is
of this form too, or the fuel is used up.

The machine after a call differs from the one before in its store and its journal only.
-/

namespace Reduct

namespace State

theorem run_more {state next : State} (stepped : state.step = .more next) (fuel : Nat) :
    run (fuel + 1) state = run fuel next := by
  rw [run.eq_2, stepped]

theorem run_ended {state : State} {outcome : Outcome} (stepped : state.step = .ended outcome)
    (fuel : Nat) : run (fuel + 1) state = outcome := by
  rw [run.eq_2, stepped]

/-- A run that comes to a goal is there after some steps, or has ended for want of room. -/
theorem Comes.run {goal : State → Prop} {state : State} (comes : Comes goal state) :
    ∃ used, (∃ other, goal other ∧ ∀ fuel, run (fuel + used) state = run fuel other) ∨
      ∃ locals machine, machine.store.Crowded ∧
        ∀ fuel, run (fuel + used) state = ⟨.error .exhausted, locals, machine⟩ := by
  induction comes with
  | here reached => exact ⟨0, .inl ⟨_, reached, fun _ => rfl⟩⟩
  | full crowded stopped => exact ⟨1, .inr ⟨_, _, crowded, run_ended stopped⟩⟩
  | later stepped _ ih =>
    obtain ⟨used, ⟨other, reached, same⟩ | ⟨locals, machine, crowded, same⟩⟩ := ih
    · exact ⟨used + 1, .inl ⟨other, reached, fun fuel => (run_more stepped _).trans (same fuel)⟩⟩
    · exact ⟨used + 1, .inr ⟨locals, machine, crowded,
        fun fuel => (run_more stepped _).trans (same fuel)⟩⟩

/-- A run passes the goal that it comes to within its steps, unless it stops before. -/
theorem Within.run {tolerant : Prop} {goal : State → Prop} {fuel : Nat} {state : State}
    (within : Within tolerant goal fuel state) :
    (∃ other rest, goal other ∧ State.run fuel state = State.run rest other) ∨
      (∃ locals machine, State.run fuel state = ⟨.error .exhausted, locals, machine⟩) ∨
      (tolerant ∧ ∃ cause locals machine,
        State.run fuel state = ⟨.error (.misuse cause), locals, machine⟩) := by
  induction fuel generalizing state with
  | zero => exact .inr (.inl ⟨_, _, rfl⟩)
  | succ fuel ih =>
    rcases within with reached | rest
    · exact .inl ⟨state, fuel + 1, reached, rfl⟩
    · split at rest
      · rename_i stepped
        rw [run_more stepped]
        exact ih rest
      · rename_i stepped
        exact .inr (.inl ⟨_, _, run_ended stepped fuel⟩)
      · rename_i stepped
        exact .inr (.inr ⟨rest, _, _, _, run_ended stepped fuel⟩)
      · exact rest.elim

end State

/-- What a step leads to, with more suspended around it. -/
def Progress.under (frames : List Frame) : Progress → Progress
  | .more ⟨control, locals, inner, machine⟩ => .more ⟨control, locals, inner ++ frames, machine⟩
  | .ended outcome => .ended outcome

namespace State

variable {target : Option Symbol} {rest : List Statement} {locals : Table Value}
  {machine : Machine}

theorem settle_under (inner frames : List Frame) (result : Except EvalError Value) :
    settle target rest locals (inner ++ frames) machine result =
      (settle target rest locals inner machine result).under frames := by
  cases result <;> rfl

theorem enter_under (function : Symbol) (arguments : List Value) (inner frames : List Frame) :
    enter function arguments target rest locals (inner ++ frames) machine =
      (enter function arguments target rest locals inner machine).under frames := by
  unfold enter
  split
  · split <;> rfl
  · exact settle_under inner frames _

theorem evaluate_under (expression : Expression) (inner frames : List Frame) :
    evaluate target expression rest locals (inner ++ frames) machine =
      (evaluate target expression rest locals inner machine).under frames := by
  cases expression with
  | operand value => exact settle_under inner frames _
  | field base index => exact settle_under inner frames _
  | binary op left right => exact settle_under inner frames _
  | call function arguments =>
    simp only [evaluate]
    split
    · exact enter_under function _ inner frames
    · rfl
  | primitive function arguments =>
    simp only [evaluate]
    split
    · rfl
    · split <;> rfl

/-- What is suspended around a statement plays no part in its execution. -/
theorem execute_under (statement : Statement) (inner frames : List Frame) :
    execute statement rest locals (inner ++ frames) machine =
      (execute statement rest locals inner machine).under frames := by
  cases statement with
  | assign target value => exact evaluate_under value inner frames
  | effect value => exact evaluate_under value inner frames
  | define | leave | loop => rfl
  | branch | forEach | forRange | returns | raise | print =>
    simp only [execute]
    split <;> rfl

theorem resume_under (frame : Frame) (inner frames : List Frame) :
    resume locals frame (inner ++ frames) machine =
      (resume locals frame inner machine).under frames := by
  cases frame with
  | call | block => rfl
  | each targets items body =>
    cases items with
    | nil => rfl
    | cons item items =>
      simp only [resume]
      split <;> rfl
  | range | loop =>
    simp only [resume]
    split <;> rfl

/-- The outermost block has ended. -/
def Ended : State → Prop
  | ⟨.run (_ :: _), _, _, _⟩ => False
  | ⟨_, _, frames, _⟩ => frames = []

/-- What is suspended around a run plays no part until the run has ended. -/
theorem step_under {state : State} (running : ¬ state.Ended) (frames : List Frame) :
    step ⟨state.control, state.locals, state.frames ++ frames, state.machine⟩ =
      state.step.under frames := by
  obtain ⟨control, locals, inner, machine⟩ := state
  cases control with
  | run statements =>
    cases statements with
    | cons statement rest => exact execute_under statement inner frames
    | nil =>
      cases inner with
      | nil => exact absurd rfl running
      | cons frame inner => exact resume_under frame inner frames
  | leave =>
    cases inner with
    | nil => exact absurd rfl running
    | cons frame inner => cases frame <;> rfl
  | give value =>
    cases inner with
    | nil => exact absurd rfl running
    | cons frame inner => cases frame <;> rfl
  | fail cause =>
    cases inner with
    | nil => exact absurd rfl running
    | cons frame inner => cases frame <;> rfl

theorem settle_more (frames : List Frame) (result : Except EvalError Value) :
    ∃ next, settle target rest locals frames machine result = .more next := by
  cases result <;> exact ⟨_, rfl⟩

theorem enter_more (function : Symbol) (arguments : List Value) (frames : List Frame) :
    ∃ next, enter function arguments target rest locals frames machine = .more next := by
  unfold enter
  split
  · split <;> exact ⟨_, rfl⟩
  · exact settle_more frames _

/-- The flow of a run that was cut short, or that used bindings out of turn. -/
def Abandoned (flow : Except Failure Flow) : Prop :=
  flow = .error .exhausted ∨ ∃ cause, flow = .error (.misuse cause)

theorem abandoned_evaluate {expression : Expression} {frames : List Frame} {outcome : Outcome}
    (ended : evaluate target expression rest locals frames machine = .ended outcome) :
    Abandoned outcome.flow := by
  have never : ∀ {progress : Progress}, progress = .ended outcome →
      (∃ next, progress = .more next) → Abandoned outcome.flow := by
    rintro _ rfl ⟨next, same⟩
    cases same
  cases expression with
  | operand value => exact never ended (settle_more _ _)
  | field base index => exact never ended (settle_more _ _)
  | binary op left right => exact never ended (settle_more _ _)
  | call function arguments =>
    simp only [evaluate] at ended
    split at ended
    · exact never ended (enter_more _ _ _)
    · cases ended
  | primitive function arguments =>
    simp only [evaluate] at ended
    split at ended
    · cases ended
    · split at ended
      · cases ended
      · cases ended
      · rename_i failure other _
        cases ended
        cases failure with
        | exhausted => exact .inl rfl
        | misuse cause => exact .inr ⟨cause, rfl⟩
        | error cause => exact absurd rfl (other cause)

/-- A run that ends before its outermost block has ended is abandoned. -/
theorem abandoned_of_running {state : State} (running : ¬ state.Ended) {outcome : Outcome}
    (stepped : state.step = .ended outcome) : Abandoned outcome.flow := by
  obtain ⟨control, locals, frames, machine⟩ := state
  cases control with
  | run statements =>
    cases statements with
    | cons statement rest =>
      change execute statement rest locals frames machine = _ at stepped
      cases statement with
      | assign target value => exact abandoned_evaluate stepped
      | effect value => exact abandoned_evaluate stepped
      | define | leave | loop => cases stepped
      | branch | forEach | forRange | returns | raise | print =>
        simp only [execute] at stepped
        split at stepped <;> cases stepped
    | nil =>
      cases frames with
      | nil => exact absurd rfl running
      | cons frame frames =>
        change resume locals frame frames machine = _ at stepped
        cases frame with
        | call | block => cases stepped
        | each targets items body =>
          cases items with
          | nil => cases stepped
          | cons item items =>
            simp only [resume] at stepped
            split at stepped <;> cases stepped
        | range | loop =>
          simp only [resume] at stepped
          split at stepped <;> cases stepped
  | leave | give | fail =>
    cases frames with
    | nil => exact absurd rfl running
    | cons frame frames => cases frame <;> cases stepped

end State

/-- The result of a call whose body ends in a way. -/
def Outcome.answer : Outcome → Except Failure Value × Machine
  | ⟨.ok flow, _, ended⟩ =>
    match flow.result with
    | .ok value => (.ok value, ended.finish)
    | .error cause => (.error (.error cause), ended.finish)
  | ⟨.error (.error cause), _, ended⟩ => (.error (.error cause), ended.finish)
  | ⟨.error failure, _, ended⟩ => (.error failure, ended)

namespace Machine

/-- The result of a call: a value with a store of a set, a failure that is excused, or the end of
a run that was cut short or used bindings out of turn. -/
inductive Answers (policy : Policy) (tolerant : Prop) (short : Machine → Prop)
    (machine : Machine) (gives : Value → Store → Prop) : Except Failure Value × Machine → Prop
  | value {value : Value} {store : Store} {journal : Journal} (given : gives value store) :
      Answers policy tolerant short machine gives
        (.ok value, machine.moved store machine.calls journal)
  | failure {cause : EvalError} {store : Store} {journal : Journal}
      (excused : policy.excuses cause) :
      Answers policy tolerant short machine gives
        (.error (.error cause), machine.moved store machine.calls journal)
  | exhausted {after : Machine} (cut : short after) :
      Answers policy tolerant short machine gives (.error .exhausted, after)
  | misuse {cause : Misuse} {after : Machine} (excused : tolerant) :
      Answers policy tolerant short machine gives (.error (.misuse cause), after)

variable {machine : Machine} {function : Symbol} {definition : Function} {arguments : List Value}
  {gives : Value → Store → Prop} {policy : Policy} {tolerant : Prop} {short : Machine → Prop}

theorem Answers.of_value {value : Value} {after : Machine}
    (answers : Answers policy tolerant short machine gives (.ok value, after)) :
    ∃ store journal, after = machine.moved store machine.calls journal ∧ gives value store := by
  cases answers with
  | value given => exact ⟨_, _, rfl, given⟩

theorem Answers.of_failure {cause : EvalError} {after : Machine}
    (answers : Answers policy tolerant short machine gives (.error (.error cause), after)) :
    ∃ store journal, after = machine.moved store machine.calls journal ∧ policy.excuses cause := by
  cases answers with
  | failure excused => exact ⟨_, _, rfl, excused⟩

/-- A call starts with the body of its function, unless it is refused. -/
theorem call_eq (found : machine.functions.find? function = some definition)
    (fits : definition.parameters.length = arguments.length) (fuel : Nat) :
    machine.call fuel function arguments =
      match machine.calls.push function with
      | .ok pushed => (State.run fuel ⟨.run definition.body,
          .ofList (definition.parameters.zip arguments), [],
          machine.moved machine.store pushed (machine.journal.record function)⟩).answer
      | .error cause => (.error (.error cause),
          machine.moved machine.store machine.calls (machine.journal.record function)) := by
  simp only [call, found, start, fits, ne_eq, not_true_eq_false, if_false]
  cases machine.calls.push function with
  | ok pushed => rfl
  | error cause => rfl

/-- Where the body of a call stops, the call ends. -/
theorem answers_of_stops {pushed : CallStack} {state : State}
    (stops : Stops policy machine [] [] pushed (fun _ _ => False) gives state)
    (popped : pushed.pop = machine.calls) (fuel : Nat) :
    Answers policy tolerant short machine gives (State.run (fuel + 1) state).answer := by
  rcases stops with none | @⟨value, locals, store, journal, given⟩ |
    @⟨cause, locals, store, journal, excused⟩
  · exact none.elim
  · have ended : (State.run (fuel + 1) ⟨.give value, locals, [],
        machine.moved store pushed journal⟩).answer =
        (.ok value, machine.moved store machine.calls journal) := by
      rw [← popped]
      rfl
    rw [ended]
    exact .value given
  · have ended : (State.run (fuel + 1) ⟨.fail cause, locals, [],
        machine.moved store pushed journal⟩).answer =
        (.error (.error cause), machine.moved store machine.calls journal) := by
      rw [← popped]
      rfl
    rw [ended]
    exact .failure excused

/-- A call with enough fuel ends as its body does, unless a list has no room. -/
theorem answers_total (admitted : policy.admits machine.calls)
    (performs : Performs (.total policy) machine function arguments machine.store gives) :
    ∃ enough, ∀ fuel, enough ≤ fuel →
      Answers policy False (fun after => after.store.Crowded) machine gives
        (machine.call fuel function arguments) := by
  obtain ⟨definition, found, fits, body⟩ := performs
  match started : machine.calls.push function with
  | .error cause =>
    refine ⟨0, fun fuel _ => ?_⟩
    rw [call_eq found fits, started]
    exact .failure (policy.refused admitted started)
  | .ok pushed =>
    have comes := body [] [] pushed (machine.journal.record function)
      (policy.pushed admitted started)
    rw [List.append_nil] at comes
    obtain ⟨used, ⟨other, stops, same⟩ | ⟨locals, after, crowded, same⟩⟩ := State.Comes.run comes
    · refine ⟨used + 1, fun fuel enough => ?_⟩
      obtain ⟨more, rfl⟩ := Nat.exists_eq_add_of_le enough
      rw [call_eq found fits, started, show used + 1 + more = more + 1 + used by omega]
      dsimp only
      rw [same]
      exact answers_of_stops stops (CallStack.pop_push started) more
    · refine ⟨used, fun fuel enough => ?_⟩
      obtain ⟨more, rfl⟩ := Nat.exists_eq_add_of_le enough
      rw [call_eq found fits, started, Nat.add_comm used more]
      dsimp only
      rw [same]
      exact .exhausted crowded

/-- A call ends as its body does, unless its fuel is used up. -/
theorem answers_upTo (admitted : policy.admits machine.calls) {fuel : Nat}
    (performs : Performs (.upTo policy tolerant fuel) machine function arguments machine.store
      gives) :
    Answers policy tolerant (fun _ => True) machine gives
      (machine.call fuel function arguments) := by
  obtain ⟨definition, found, fits, body⟩ := performs
  rw [call_eq found fits]
  match started : machine.calls.push function with
  | .error cause => exact .failure (policy.refused admitted started)
  | .ok pushed =>
    have within := body [] [] pushed (machine.journal.record function)
      (policy.pushed admitted started)
    rw [List.append_nil] at within
    rcases State.Within.run within with
      ⟨other, rest, stops, same⟩ | ⟨locals, after, same⟩ | ⟨excused, cause, locals, after, same⟩
    · dsimp only
      rw [same]
      cases rest with
      | zero => exact .exhausted trivial
      | succ rest => exact answers_of_stops stops (CallStack.pop_push started) rest
    · dsimp only
      rw [same]
      exact .exhausted trivial
    · dsimp only
      rw [same]
      exact .misuse excused

/-- A block that calls goes on with the result of the call. -/
theorem within_of_answers {store : Store} {calls : CallStack} {journal : Journal}
    {target : Option Symbol} {rest : List Statement} {outer : Table Value} {frames : List Frame}
    {count : Nat} : ∀ {state : State},
      (∀ fuel, Answers .lax True (fun _ => True) (machine.moved store calls journal) gives
        (State.run fuel state).answer) →
      State.Within True (Settles .lax machine target rest outer frames calls gives) count
        ⟨state.control, state.locals, state.frames ++ .call target outer rest :: frames,
          state.machine⟩ := by
  induction count with
  | zero => exact fun _ => trivial
  | succ count ih =>
    intro state answers
    have goal : ∀ {progress : State}, State.step ⟨state.control, state.locals,
          state.frames ++ .call target outer rest :: frames, state.machine⟩ = .more progress →
        State.Within True (Settles .lax machine target rest outer frames calls gives) count
          progress →
        State.Within True (Settles .lax machine target rest outer frames calls gives) (count + 1)
          ⟨state.control, state.locals, state.frames ++ .call target outer rest :: frames,
            state.machine⟩ := by
      intro progress stepped within
      refine .inr ?_
      rw [stepped]
      exact within
    have done : ∀ {reached : State}, Settles .lax machine target rest outer frames calls gives
        reached → State.Within True (Settles .lax machine target rest outer frames calls gives) count
          reached :=
      fun settled => (Judgement.upTo .lax True count).done settled
    by_cases ended : state.Ended
    · have answer := answers 1
      obtain ⟨control, locals, inner, last⟩ := state
      cases control with
      | run statements =>
        cases statements with
        | cons => cases ended
        | nil =>
          cases ended
          obtain ⟨changed, noted, same, given⟩ := Answers.of_value
            (show Answers _ _ _ _ _ (.ok .none, last.finish) from answer)
          exact goal rfl (done (same ▸ .gives given))
      | leave =>
        cases ended
        obtain ⟨changed, noted, same, excused⟩ := Answers.of_failure
          (show Answers _ _ _ _ _ (.error (.error .leaveOutsideLoop), last.finish) from answer)
        exact goal rfl (done (same ▸ .fails excused))
      | give value =>
        cases ended
        obtain ⟨changed, noted, same, given⟩ := Answers.of_value
          (show Answers _ _ _ _ _ (.ok value, last.finish) from answer)
        exact goal rfl (done (same ▸ .gives given))
      | fail cause =>
        cases ended
        obtain ⟨changed, noted, same, excused⟩ := Answers.of_failure
          (show Answers _ _ _ _ _ (.error (.error cause), last.finish) from answer)
        exact goal rfl (done (same ▸ .fails excused))
    · have stepped := State.step_under ended (.call target outer rest :: frames)
      match next : state.step with
      | .more other =>
        rw [next] at stepped
        refine goal stepped (ih fun fuel => ?_)
        rw [← State.run_more next]
        exact answers (fuel + 1)
      | .ended outcome =>
        rw [next] at stepped
        refine .inr ?_
        rw [stepped]
        obtain ⟨flow, locals, last⟩ := outcome
        rcases State.abandoned_of_running ended next with rfl | ⟨cause, rfl⟩ <;> trivial

/-- Code that calls a function goes on with the results of calls. -/
theorem calls_of_answers {store : Store}
    (answers : ∀ calls journal fuel, Answers .lax True (fun _ => True)
      (machine.moved store calls journal) gives
      ((machine.moved store calls journal).call fuel function arguments)) (count : Nat) :
    Calls (.upTo .lax True count) machine function arguments store gives := by
  intro target rest outer frames calls journal _
  cases count with
  | zero => trivial
  | succ count =>
    have done : ∀ {reached : State}, Settles .lax machine target rest outer frames calls gives
        reached → State.Within True (Settles .lax machine target rest outer frames calls gives) count
          reached :=
      fun settled => (Judgement.upTo .lax True count).done settled
    cases found : machine.functions.find? function with
    | none =>
      have same : (machine.moved store calls journal).functions.find? function = none := found
      have answer := answers calls journal 0
      simp only [call, same] at answer
      simp only [State.enter, same]
      rcases host : (machine.moved store calls journal).callHost function arguments with
        ⟨cause | value, called⟩
      · rw [host] at answer
        obtain ⟨changed, noted, rfl, excused⟩ := answer.of_failure
        exact done (.fails excused)
      · rw [host] at answer
        obtain ⟨changed, noted, rfl, given⟩ := answer.of_value
        exact done (.gives given)
    | some definition =>
      by_cases fits : definition.parameters.length = arguments.length
      · rw [enter_eq found fits]
        have results := fun fuel => answers calls journal fuel
        have there : (machine.moved store calls journal).functions.find? function =
            some definition := found
        simp only [call_eq there fits] at results
        cases started : calls.push function with
        | error cause => exact done (.fails trivial)
        | ok pushed =>
          have under : (machine.moved store calls journal).calls.push function = .ok pushed :=
            started
          simp only [under] at results
          exact within_of_answers results
      · have same : (machine.moved store calls journal).functions.find? function =
            some definition := found
        simp only [State.enter, same, start, ne_eq, fits, not_false_eq_true, if_true]
        exact done (.fails trivial)

/-- A call that gives a value gives one of its body. -/
theorem call_of_partial
    (performs : ∀ count,
      Performs (.upTo .lax True count) machine function arguments machine.store gives)
    {fuel : Nat} {value : Value} {after : Machine}
    (returned : machine.call fuel function arguments = (.ok value, after)) :
    gives value after.store := by
  have answers := answers_upTo trivial (performs fuel)
  rw [returned] at answers
  cases answers with
  | value given => exact given

end Machine

end Reduct
