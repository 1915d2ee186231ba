import Reduct.Proofs.CallResults

/-!
# Limits of nested calls

The limit of nested calls is read in one place: where a call starts. So a run under a limit and the
same run under a looser one, or under none, take the same steps until a call is refused, and a call
that is refused ends the whole run with that failure. A run that ends in any other way ends in the
same way under every looser limit, with the same calls counted and the same lines printed.
-/

namespace Reduct

namespace CallStack

/-- The calls under way, under another limit. -/
def withLimit (calls : CallStack) (limit : Option Nat) : CallStack := { calls with limit := limit }

/-- A limit is no stricter than a number of calls. -/
def Loosens (limit : Nat) (other : Option Nat) : Prop := ∀ most, other = some most → limit ≤ most

/-- The calls under way have a limit and keep to it. -/
structure Keeps (limit : Nat) (calls : CallStack) : Prop where
  limited : calls.limit = some limit
  within : calls.depth ≤ limit

variable {limit : Nat} {other : Option Nat} {calls pushed : CallStack} {function : Symbol}

theorem keeps_empty (limit : Nat) : (empty (some limit)).Keeps limit := ⟨rfl, Nat.zero_le _⟩

/-- A call that starts keeps to the limit, and starts under a looser one. -/
theorem Keeps.push (keeps : calls.Keeps limit) (loosens : Loosens limit other)
    (started : calls.push function = .ok pushed) :
    pushed.Keeps limit ∧
      (calls.withLimit other).push function = .ok (pushed.withLimit other) := by
  obtain ⟨frames, depth, _, counted⟩ := calls
  obtain ⟨rfl, within⟩ := keeps
  simp only [CallStack.push] at started
  split at started
  · rename_i room
    cases started
    refine ⟨⟨rfl, room⟩, ?_⟩
    cases other with
    | none => rfl
    | some most => exact if_pos (Nat.lt_of_lt_of_le room (loosens most rfl))
  · cases started

/-- A call is refused for the limit only. -/
theorem Keeps.refused (keeps : calls.Keeps limit) {cause : EvalError}
    (failed : calls.push function = .error cause) : cause = .stackOverflow limit := by
  obtain ⟨frames, depth, _, counted⟩ := calls
  obtain ⟨rfl, _⟩ := keeps
  simp only [CallStack.push] at failed
  split at failed <;> cases failed
  rfl

theorem Keeps.pop (keeps : calls.Keeps limit) : calls.pop.Keeps limit := by
  obtain ⟨frames, depth, _, counted⟩ := calls
  obtain ⟨rfl, within⟩ := keeps
  cases frames with
  | nil => exact ⟨rfl, within⟩
  | cons => exact ⟨rfl, Nat.le_trans (Nat.sub_le _ _) within⟩

theorem pop_withLimit (calls : CallStack) (other : Option Nat) :
    (calls.withLimit other).pop = calls.pop.withLimit other := by
  obtain ⟨frames, _, _, _⟩ := calls
  cases frames <;> rfl

end CallStack

open CallStack (Loosens)

/-- The machine with another limit of calls. -/
def Machine.withLimit (machine : Machine) (limit : Option Nat) : Machine :=
  { machine with calls := machine.calls.withLimit limit }

/-- The machine with other lists and bindings. -/
def Machine.withStore (machine : Machine) (store : Store) : Machine :=
  { machine with store := store }

/-- The run with another limit of calls. -/
def State.withLimit (state : State) (limit : Option Nat) : State :=
  { state with machine := state.machine.withLimit limit }

/-- The end of the run with another limit of calls. -/
def Outcome.withLimit (outcome : Outcome) (limit : Option Nat) : Outcome :=
  { outcome with machine := outcome.machine.withLimit limit }

/-- A step under a limit, and the same step under another one: they lead to the same, unless the
limit refuses a call. -/
inductive Progress.Lifts (limit : Nat) (other : Option Nat) : Progress → Progress → Prop
  | more {state : State} (keeps : state.machine.calls.Keeps limit) :
      Lifts limit other (.more state) (.more (state.withLimit other))
  | ended {outcome : Outcome} (keeps : outcome.machine.calls.Keeps limit) :
      Lifts limit other (.ended outcome) (.ended (outcome.withLimit other))
  | refused {state : State} {progress : Progress} (keeps : state.machine.calls.Keeps limit)
      (failed : state.control = .fail (.stackOverflow limit)) :
      Lifts limit other (.more state) progress

/-- A result that is neither cut short nor the refusal of a call. -/
def Settled {α : Type} (result : Except Failure α) : Prop :=
  result ≠ .error .exhausted ∧ ∀ most, result ≠ .error (.error (.stackOverflow most))

theorem Settled.ok {α : Type} (value : α) : Settled (.ok value : Except Failure α) :=
  ⟨nofun, nofun⟩

theorem Settled.failure {α β : Type} {failure : Failure}
    (settled : Settled (.error failure : Except Failure α)) :
    Settled (.error failure : Except Failure β) := by
  refine ⟨fun cut => settled.1 ?_, fun most refused => settled.2 most ?_⟩
  · cases cut
    rfl
  · cases refused
    rfl

variable {limit : Nat} {other : Option Nat} {machine : Machine}

namespace Machine

theorem callHost_withLimit (machine : Machine) (other : Option Nat) (function : Symbol)
    (arguments : List Value) :
    (machine.withLimit other).callHost function arguments =
        ((machine.callHost function arguments).1,
          (machine.callHost function arguments).2.withLimit other) ∧
      (machine.callHost function arguments).2.calls = machine.calls := by
  have host : (machine.withLimit other).host = machine.host := rfl
  unfold callHost
  rw [host]
  split <;> exact ⟨rfl, rfl⟩

theorem print_withLimit (machine : Machine) (other : Option Nat) (line : String) :
    (machine.withLimit other).print line = (machine.print line).withLimit other ∧
      (machine.print line).calls = machine.calls := by
  have silent : (machine.withLimit other).silent = machine.silent := rfl
  unfold print
  rw [silent]
  split <;> exact ⟨rfl, rfl⟩

theorem finish_withLimit (machine : Machine) (other : Option Nat) :
    (machine.withLimit other).finish = machine.finish.withLimit other := by
  simp only [finish, withLimit, CallStack.pop_withLimit]

/-- A call that starts, starts in the same way under a looser limit. -/
theorem start_withLimit (keeps : machine.calls.Keeps limit) (loosens : Loosens limit other)
    (name : Symbol) (function : Function) (arguments : List Value) :
    (machine.start name function arguments).2.calls.Keeps limit ∧
      ((machine.start name function arguments).1 = .error (.stackOverflow limit) ∨
        (machine.withLimit other).start name function arguments =
          ((machine.start name function arguments).1,
            (machine.start name function arguments).2.withLimit other)) := by
  unfold start
  split
  · exact ⟨keeps, .inr rfl⟩
  · dsimp only
    match started : machine.calls.push name with
    | .error cause =>
      obtain rfl := keeps.refused started
      exact ⟨keeps, .inl rfl⟩
    | .ok pushed =>
      obtain ⟨kept, same⟩ := keeps.push loosens started
      refine ⟨kept, .inr ?_⟩
      have lifted : (machine.withLimit other).calls.push name = .ok (pushed.withLimit other) := same
      rw [lifted]
      rfl

end Machine

namespace State

variable {target : Option Symbol} {rest : List Statement} {locals : Table Value}
  {frames : List Frame}

theorem settle_lifts (keeps : machine.calls.Keeps limit) (result : Except EvalError Value) :
    Progress.Lifts limit other (settle target rest locals frames machine result)
      (settle target rest locals frames (machine.withLimit other) result) := by
  cases result <;> exact .more keeps

/-- The start of a call is where the limit is read. -/
theorem enter_lifts (keeps : machine.calls.Keeps limit) (loosens : Loosens limit other)
    (function : Symbol) (arguments : List Value) :
    Progress.Lifts limit other (enter function arguments target rest locals frames machine)
      (enter function arguments target rest locals frames (machine.withLimit other)) := by
  have functions : (machine.withLimit other).functions = machine.functions := rfl
  unfold enter
  rw [functions]
  split
  · rename_i definition _
    obtain ⟨kept, refused | same⟩ :=
      Machine.start_withLimit keeps loosens function definition arguments
    · generalize machine.start function definition arguments = begun at kept refused
      obtain ⟨result, started⟩ := begun
      cases refused
      exact .refused kept rfl
    · rw [same]
      generalize machine.start function definition arguments = begun at kept
      obtain ⟨inner | cause, started⟩ := begun <;> exact .more kept
  · obtain ⟨same, calls⟩ := machine.callHost_withLimit other function arguments
    rw [same]
    generalize machine.callHost function arguments = called at calls
    refine settle_lifts ?_ _
    rw [calls]
    exact keeps

theorem evaluate_lifts (keeps : machine.calls.Keeps limit) (loosens : Loosens limit other)
    (expression : Expression) :
    Progress.Lifts limit other (evaluate target expression rest locals frames machine)
      (evaluate target expression rest locals frames (machine.withLimit other)) := by
  cases expression with
  | operand value => exact settle_lifts keeps _
  | field base index => exact settle_lifts keeps _
  | binary op left right => exact settle_lifts keeps _
  | call function arguments =>
    have values : (machine.withLimit other).readAll locals arguments =
        machine.readAll locals arguments := rfl
    simp only [evaluate, values]
    split
    · exact enter_lifts keeps loosens function _
    · exact .more keeps
  | primitive function arguments =>
    have values : (machine.withLimit other).readAll locals arguments =
        machine.readAll locals arguments := rfl
    have store : (machine.withLimit other).store = machine.store := rfl
    simp only [evaluate, values, store]
    split
    · exact .more keeps
    · split
      · exact .more keeps
      · exact .more keeps
      · exact .ended keeps

theorem execute_lifts (keeps : machine.calls.Keeps limit) (loosens : Loosens limit other)
    (statement : Statement) :
    Progress.Lifts limit other (execute statement rest locals frames machine)
      (execute statement rest locals frames (machine.withLimit other)) := by
  have reads : (machine.withLimit other).read locals = machine.read locals := rfl
  have finds : (machine.withLimit other).lookup locals = machine.lookup locals := rfl
  have store : (machine.withLimit other).store = machine.store := rfl
  cases statement with
  | assign name value => exact evaluate_lifts keeps loosens value
  | effect value => exact evaluate_lifts keeps loosens value
  | define | loop | leave => exact .more keeps
  | branch | forEach | forRange | returns | raise =>
    simp only [execute, reads, finds, store]
    split <;> exact .more keeps
  | print value =>
    simp only [execute, reads, store]
    split
    · rename_i result _
      obtain ⟨same, calls⟩ := machine.print_withLimit other (result.text machine.store)
      rw [same]
      refine .more ?_
      rw [calls]
      exact keeps
    · exact .more keeps

/-- The end of a call. -/
theorem settle_finish_lifts (keeps : machine.calls.Keeps limit) (target : Option Symbol)
    (rest : List Statement) (result : Except EvalError Value) :
    Progress.Lifts limit other (settle target rest locals frames machine.finish result)
      (settle target rest locals frames (machine.withLimit other).finish result) := by
  rw [machine.finish_withLimit]
  exact settle_lifts keeps.pop result

theorem resume_lifts (keeps : machine.calls.Keeps limit) (frame : Frame) :
    Progress.Lifts limit other (resume locals frame frames machine)
      (resume locals frame frames (machine.withLimit other)) := by
  have finds : (machine.withLimit other).lookup locals = machine.lookup locals := rfl
  cases frame with
  | block rest => exact .more keeps
  | call target outer rest => exact settle_finish_lifts keeps target rest Flow.done.result
  | each targets items body =>
    cases items with
    | nil => exact .more keeps
    | cons item items =>
      simp only [resume]
      split <;> exact .more keeps
  | range | loop =>
    simp only [resume, finds]
    split <;> exact .more keeps

/-- One step under a limit and under a looser one. -/
theorem step_lifts (loosens : Loosens limit other) {state : State}
    (keeps : state.machine.calls.Keeps limit) :
    Progress.Lifts limit other state.step (state.withLimit other).step := by
  obtain ⟨control, locals, frames, machine⟩ := state
  cases control with
  | run statements =>
    cases statements with
    | cons statement rest => exact execute_lifts keeps loosens statement
    | nil =>
      cases frames with
      | nil => exact .ended keeps
      | cons frame frames => exact resume_lifts keeps frame
  | leave =>
    cases frames with
    | nil => exact .ended keeps
    | cons frame frames =>
      cases frame with
      | call target _ rest => exact settle_finish_lifts keeps target rest Flow.left.result
      | _ => exact .more keeps
  | give value =>
    cases frames with
    | nil => exact .ended keeps
    | cons frame frames =>
      cases frame with
      | call target _ rest =>
        exact settle_finish_lifts keeps target rest (Flow.returned value).result
      | _ => exact .more keeps
  | fail cause =>
    cases frames with
    | nil => exact .ended keeps
    | cons frame frames =>
      cases frame with
      | call target outer rest =>
        have same := machine.finish_withLimit other
        show Progress.Lifts limit other (.more ⟨.fail cause, outer, frames, machine.finish⟩)
          (.more ⟨.fail cause, outer, frames, (machine.withLimit other).finish⟩)
        rw [same]
        exact .more keeps.pop
      | _ => exact .more keeps

/-- Once a failure is under way, a run ends with it or is cut short. -/
theorem flow_run_fail (fuel : Nat) : ∀ {state : State} {cause : EvalError},
    state.control = .fail cause → (run fuel state).flow = .error (.error cause) ∨
      (run fuel state).flow = .error .exhausted := by
  induction fuel with
  | zero => exact fun _ => .inr rfl
  | succ fuel ih =>
    rintro ⟨control, locals, frames, machine⟩ cause rfl
    cases frames with
    | nil => exact .inl rfl
    | cons frame frames =>
      cases frame <;> exact ih rfl

/-- A run keeps to the limit, and under a looser limit it goes the same way, unless it is cut short
or a call is refused. -/
theorem run_lifts (loosens : Loosens limit other) (fuel : Nat) :
    ∀ {state : State}, state.machine.calls.Keeps limit →
      (run fuel state).machine.calls.Keeps limit ∧
        (Settled (run fuel state).flow →
          run fuel (state.withLimit other) = (run fuel state).withLimit other) := by
  induction fuel with
  | zero => exact fun keeps => ⟨keeps, fun settled => absurd rfl settled.1⟩
  | succ fuel ih =>
    intro state keeps
    have lifts := step_lifts loosens keeps
    match stepped : state.step, lifted : (state.withLimit other).step with
    | first, second =>
      rw [stepped, lifted] at lifts
      cases lifts with
      | more kept =>
        rw [run_more stepped, run_more lifted]
        exact ih kept
      | ended kept =>
        rw [run_ended stepped, run_ended lifted]
        exact ⟨kept, fun _ => rfl⟩
      | refused kept failed =>
        rw [run_more stepped]
        refine ⟨(ih kept).1, fun settled => ?_⟩
        rcases flow_run_fail fuel failed with refused | cut
        · exact absurd refused (settled.2 limit)
        · exact absurd cut settled.1

end State

namespace Machine

/-- The end of a body decides the result of its call. -/
theorem answer_lifts (other : Option Nat) {outcome : Outcome}
    (keeps : outcome.machine.calls.Keeps limit) :
    outcome.answer.2.calls.Keeps limit ∧
      (outcome.withLimit other).answer =
        (outcome.answer.1, outcome.answer.2.withLimit other) ∧
      (Settled outcome.answer.1 → Settled outcome.flow) := by
  obtain ⟨flow, locals, machine⟩ := outcome
  have same := machine.finish_withLimit other
  match flow with
  | .ok .done | .ok .left | .ok (.returned _) =>
    exact ⟨keeps.pop, congrArg (Prod.mk _) same, fun _ => .ok _⟩
  | .error (.error cause) =>
    exact ⟨keeps.pop, congrArg (Prod.mk _) same, Settled.failure⟩
  | .error .exhausted | .error (.misuse _) => exact ⟨keeps, rfl, Settled.failure⟩

/-- A call keeps to the limit, and under a looser limit it gives the same, unless it is cut short or
some call is refused. -/
theorem call_lifts (keeps : machine.calls.Keeps limit) (loosens : Loosens limit other) (fuel : Nat)
    (function : Symbol) (arguments : List Value) :
    (machine.call fuel function arguments).2.calls.Keeps limit ∧
      (Settled (machine.call fuel function arguments).1 →
        (machine.withLimit other).call fuel function arguments =
          ((machine.call fuel function arguments).1,
            (machine.call fuel function arguments).2.withLimit other)) := by
  have functions : (machine.withLimit other).functions = machine.functions := rfl
  cases found : machine.functions.find? function with
  | none =>
    obtain ⟨same, calls⟩ := machine.callHost_withLimit other function arguments
    simp only [call, functions, found, same]
    generalize machine.callHost function arguments = called at calls
    obtain ⟨value | cause, after⟩ := called
    all_goals
      change after.calls = machine.calls at calls
      exact ⟨by rw [calls]; exact keeps, fun _ => rfl⟩
  | some definition =>
    by_cases fits : definition.parameters.length = arguments.length
    · have there : (machine.withLimit other).functions.find? function = some definition := found
      rw [call_eq found fits, call_eq there fits]
      cases started : machine.calls.push function with
      | error cause =>
        obtain rfl := keeps.refused started
        exact ⟨keeps, fun settled => absurd rfl (settled.2 limit)⟩
      | ok pushed =>
        obtain ⟨kept, same⟩ := keeps.push loosens started
        have lifted : (machine.withLimit other).calls.push function =
            .ok (pushed.withLimit other) := same
        rw [lifted]
        let first : State := ⟨.run definition.body,
          .ofList (definition.parameters.zip arguments), [],
          machine.moved machine.store pushed (machine.journal.record function)⟩
        have begins : first.machine.calls.Keeps limit := kept
        obtain ⟨ends, runs⟩ := State.run_lifts loosens fuel begins
        obtain ⟨last, answer, settles⟩ := answer_lifts other ends
        refine ⟨last, fun settled => ?_⟩
        have run := runs (settles settled)
        exact (congrArg Outcome.answer run).trans answer
    · simp only [call, functions, found, start, ne_eq, fits, not_false_eq_true, if_true]
      exact ⟨keeps, fun _ => trivial⟩

theorem defineAll_withLimit (machine : Machine) (other : Option Nat) (statements : List Statement) :
    (machine.withLimit other).defineAll statements =
        (machine.defineAll statements).withLimit other ∧
      (machine.defineAll statements).calls = machine.calls := by
  unfold defineAll
  induction statements generalizing machine with
  | nil => exact ⟨rfl, rfl⟩
  | cons statement rest ih =>
    rw [List.foldl_cons, List.foldl_cons]
    cases statement with
    | define name parameters body => exact ih (machine.define name parameters body)
    | _ => exact ih machine

end Machine

namespace Module

/-- The start of the run that loads a module. -/
def opening (code : Module) (host : Host) (limit : Option Nat) (silent : Bool) : State :=
  ⟨.run (code.body.filter fun statement => !Machine.isDefinition statement), .empty, [],
    (Machine.empty host limit silent).defineAll code.body⟩

/-- What loading gives when the statements of a module have run. -/
def opened : Outcome → Except Failure Unit × Machine
  | ⟨.ok .left, _, machine⟩ => (.error (.error .leaveOutsideLoop), machine)
  | ⟨.ok _, locals, machine⟩ => (.ok (), { machine with globals := locals })
  | ⟨.error failure, _, machine⟩ => (.error failure, machine)

theorem opening_withLimit (code : Module) (host : Host) (limit other : Option Nat) (silent : Bool) :
    code.opening host other silent = (code.opening host limit silent).withLimit other := by
  have same := ((Machine.empty host limit silent).defineAll_withLimit other code.body).1
  unfold opening State.withLimit
  rw [← same]
  rfl

theorem opening_keeps (code : Module) (host : Host) (limit : Nat) (silent : Bool) :
    (code.opening host (some limit) silent).machine.calls.Keeps limit := by
  have same := ((Machine.empty host (some limit) silent).defineAll_withLimit none code.body).2
  change ((Machine.empty host (some limit) silent).defineAll code.body).calls.Keeps limit
  rw [same]
  exact CallStack.keeps_empty limit

/-- A module is loaded within the limit, and in the same way under a looser one, unless it is cut
short or some call is refused. -/
theorem load_lifts (loosens : Loosens limit other) (code : Module) (fuel : Nat) (host : Host)
    (silent : Bool) :
    (Machine.load code fuel host (some limit) silent).2.calls.Keeps limit ∧
      (Settled (Machine.load code fuel host (some limit) silent).1 →
        Machine.load code fuel host other silent =
          ((Machine.load code fuel host (some limit) silent).1,
            (Machine.load code fuel host (some limit) silent).2.withLimit other)) := by
  have eq : ∀ limit, Machine.load code fuel host limit silent =
      opened (State.run fuel (code.opening host limit silent)) := fun _ => rfl
  have lifts := State.run_lifts loosens fuel (code.opening_keeps host limit silent)
  rw [← code.opening_withLimit host (some limit) other silent] at lifts
  rw [eq, eq]
  rcases ran : State.run fuel (code.opening host (some limit) silent) with ⟨flow, locals, machine⟩
  rw [ran] at lifts
  obtain ⟨keeps, same⟩ := lifts
  cases flow with
  | ok how =>
    cases how
    all_goals
      refine ⟨keeps, fun _ => ?_⟩
      rw [same (.ok _)]
      rfl
  | error failure =>
    refine ⟨keeps, fun settled => ?_⟩
    rw [same settled.failure]
    rfl

/-- Load a module and call one of its functions, with arguments that are made in the store of the
loaded machine. -/
def perform (code : Module) (host : Host) (limit : Option Nat) (silent : Bool) (fuel : Nat)
    (function : Symbol) (supply : Store → List Value × Store) : Except Failure Value × Machine :=
  match Machine.load code fuel host limit silent with
  | (.error failure, machine) => (.error failure, machine)
  | (.ok _, machine) =>
    (machine.withStore (supply machine.store).2).call fuel function (supply machine.store).1

/-- The states that loading a module and calling a function pass through. -/
inductive Visits (code : Module) (host : Host) (limit : Option Nat) (silent : Bool)
    (function : Symbol) (supply : Store → List Value × Store) : State → Prop
  | load : Visits code host limit silent function supply (code.opening host limit silent)
  | call {fuel : Nat} {machine started : Machine} {definition : Function} {locals : Table Value}
      (loaded : Machine.load code fuel host limit silent = (.ok (), machine))
      (found : machine.functions.find? function = some definition)
      (starts : (machine.withStore (supply machine.store).2).start function definition
        (supply machine.store).1 = (.ok locals, started)) :
      Visits code host limit silent function supply ⟨.run definition.body, locals, [], started⟩
  | step {state next : State} (visited : Visits code host limit silent function supply state)
      (stepped : state.step = .more next) : Visits code host limit silent function supply next

variable {code : Module} {host : Host} {silent : Bool} {function : Symbol}
  {supply : Store → List Value × Store}

theorem Visits.keeps {state : State}
    (visited : code.Visits host (some limit) silent function supply state) :
    state.machine.calls.Keeps limit := by
  have loosens : Loosens limit none := nofun
  induction visited with
  | load => exact code.opening_keeps host limit silent
  | @call fuel machine started definition locals loaded found starts =>
    have keeps := (load_lifts loosens code fuel host silent).1
    rw [loaded] at keeps
    have supplied : (machine.withStore (supply machine.store).2).calls.Keeps limit := keeps
    have kept := (Machine.start_withLimit supplied loosens function definition
      (supply machine.store).1).1
    rw [starts] at kept
    exact kept
  | @step state next _ stepped keeps =>
    have lifts := State.step_lifts loosens keeps
    rw [stepped] at lifts
    generalize (state.withLimit none).step = loose at lifts
    cases lifts with
    | more kept => exact kept
    | refused kept _ => exact kept

/-- A module is loaded and called under a looser limit as under a strict one, unless it is cut
short or some call is refused. -/
theorem perform_lifts (loosens : Loosens limit other) (fuel : Nat)
    (settled : Settled (code.perform host (some limit) silent fuel function supply).1) :
    code.perform host other silent fuel function supply =
      ((code.perform host (some limit) silent fuel function supply).1,
        (code.perform host (some limit) silent fuel function supply).2.withLimit other) := by
  obtain ⟨keeps, loads⟩ := load_lifts loosens code fuel host silent
  unfold perform at settled ⊢
  match loaded : Machine.load code fuel host (some limit) silent with
  | (.error failure, machine) =>
    rw [loaded] at settled loads
    rw [loads (Settled.failure settled)]
  | (.ok _, machine) =>
    rw [loaded] at settled keeps loads
    rw [loads (.ok ())]
    have supplied : (machine.withStore (supply machine.store).2).calls.Keeps limit := keeps
    exact (Machine.call_lifts supplied loosens fuel function (supply machine.store).1).2 settled

/-- A limit of nested calls only cuts runs off: what ends within it with anything but a refused
call ends in the same way under every looser limit and under none, with the same counts, the same
lines and the same store; and never are more calls under way than the limit allows. -/
theorem limit_only_cuts_off (code : Module) (host : Host) (silent : Bool) (limit : Nat)
    (function : Symbol) (supply : Store → List Value × Store) :
    (∀ fuel, (code.perform host (some limit) silent fuel function supply).1 ≠ .error .exhausted →
      (∀ most, (code.perform host (some limit) silent fuel function supply).1 ≠
        .error (.error (.stackOverflow most))) →
      ∀ other : Option Nat, (∀ most, other = some most → limit ≤ most) →
        let strict := code.perform host (some limit) silent fuel function supply
        let loose := code.perform host other silent fuel function supply
        loose.1 = strict.1 ∧ loose.2.counts = strict.2.counts ∧
          loose.2.output = strict.2.output ∧ loose.2.store = strict.2.store) ∧
    ∀ state, code.Visits host (some limit) silent function supply state →
      state.machine.calls.frames.length ≤ limit := by
  refine ⟨fun fuel lasts unrefused other loosens => ?_, fun state visited => ?_⟩
  · dsimp only
    rw [perform_lifts loosens fuel ⟨lasts, unrefused⟩]
    exact ⟨rfl, rfl, rfl, rfl⟩
  · rw [← state.machine.calls.depth_eq]
    exact visited.keeps.within

/-- A function that prints a number and calls itself for the next smaller one, down to zero. -/
def countdown : Module := ⟨[], [.define "count" ["n"]
  [.print (.name "n"), .assign "more" (.binary .greater (.name "n") (.int 0)),
    .branch (.name "more")
      [.assign "rest" (.binary .subtract (.name "n") (.int 1)),
        .assign "last" (.call "count" [.name "rest"]), .returns (.name "last")]
      [.returns (.name "n")]]]⟩

theorem countdown_ends : (countdown.perform .empty (some 3) false 30 "count"
    fun store => ([.int 2], store)).1 = .ok (.int 0) := rfl

/-- Three nested calls fit a limit of three, so a limit of five and none give the same. -/
theorem countdown_loosened :
    (countdown.perform .empty (some 5) false 30 "count" fun store => ([.int 2], store)).1 =
        .ok (.int 0) ∧
      (countdown.perform .empty none false 30 "count" fun store => ([.int 2], store)).2.output =
        "2\n1\n0\n" := by
  have cuts := (limit_only_cuts_off countdown .empty false 3 "count"
    fun store => ([.int 2], store)).1 30 (by rw [countdown_ends]; nofun)
      (by rw [countdown_ends]; nofun)
  have five := cuts (some 5) (by rintro most ⟨⟩; decide)
  have unlimited := cuts none nofun
  exact ⟨five.1.trans countdown_ends, unlimited.2.2.1.trans rfl⟩

end Module

end Reduct
