import Reduct.Proofs.AgedStores
import Reduct.Proofs.TameRuns

/-!
# Runs in aged stores

A run of tame code goes the same way on a machine whose store is older: step by step the states
agree up to the age of the store, and a call gives the same result. Only a message could tell the
stores apart, since its text is cut off at a depth that grows with the store; tame code raises
plain values only.
-/

namespace Reduct

/-- A plain value has the same text in an older store. -/
theorem Value.text_shift {value : Value} (plain : value.IsPlain) (age : Age) (store other : Store) :
    (value.shift age).text other = value.text store := by
  cases value with
  | bindings | list | pair => exact plain.elim
  | _ => exact text_of_plain plain other store

/-- The way a block ends in an older store. -/
def Flow.shift (age : Age) : Flow → Flow
  | done => done
  | left => left
  | returned value => returned (value.shift age)

/-- What an older machine is about to do. -/
def Control.shift (age : Age) : Control → Control
  | run statements => run statements
  | leave => leave
  | give value => give (value.shift age)
  | fail cause => fail cause

/-- The same variables hold the same values in an older store. -/
def Table.Ages (age : Age) (fresh aged : Table Value) : Prop :=
  ∀ name, aged.find? name = (fresh.find? name).map (Value.shift age)

/-- A machine with an older store, whose constants are terms. -/
structure Machine.Ages (age : Age) (fresh aged : Machine) : Prop where
  functions : aged.functions = fresh.functions
  globals : aged.globals = fresh.globals
  terms : ∀ name value, fresh.globals.find? name = some value → ∃ term, value = .term term
  host : aged.host = fresh.host
  calls : aged.calls = fresh.calls
  store : fresh.store.Ages age aged.store

/-- The same is suspended on an older machine. -/
inductive Frame.Ages (age : Age) : Frame → Frame → Prop
  | block (rest : List Statement) : Ages age (.block rest) (.block rest)
  | each (targets : List Symbol) (items : List Value) (body : List Statement) :
      Ages age (.each targets items body) (.each targets (items.map (Value.shift age)) body)
  | range (target : Symbol) (next stop : Int64) (body : List Statement) :
      Ages age (.range target next stop body) (.range target next stop body)
  | loop (condition : Symbol) (body : List Statement) :
      Ages age (.loop condition body) (.loop condition body)
  | call (target : Option Symbol) {fresh aged : Table Value} (rest : List Statement)
      (locals : fresh.Ages age aged) : Ages age (.call target fresh rest) (.call target aged rest)

/-- The same run is under way on an older machine. -/
structure State.Ages (age : Age) (fresh aged : State) : Prop where
  control : aged.control = fresh.control.shift age
  locals : fresh.locals.Ages age aged.locals
  frames : List.Forall₂ (Frame.Ages age) fresh.frames aged.frames
  machine : fresh.machine.Ages age aged.machine

/-- A run ends in the same way on an older machine. -/
structure Outcome.Ages (age : Age) (fresh aged : Outcome) : Prop where
  flow : aged.flow = fresh.flow.map (Flow.shift age)
  machine : fresh.machine.Ages age aged.machine

/-- A step leads to the same on an older machine. -/
inductive Progress.Ages (age : Age) : Progress → Progress → Prop
  | more {fresh aged : State} (ages : fresh.Ages age aged) : Ages age (.more fresh) (.more aged)
  | ended {fresh aged : Outcome} (ages : fresh.Ages age aged) :
      Ages age (.ended fresh) (.ended aged)

variable {age : Age}

theorem Table.Ages.insert {fresh aged : Table Value} (ages : fresh.Ages age aged) (name : Symbol)
    (value : Value) : (fresh.insert name value).Ages age (aged.insert name (value.shift age)) := by
  intro other
  rw [Table.find?_insert, Table.find?_insert]
  split
  · rfl
  · exact ages other

theorem Table.Ages.ofList {names : List Symbol} {values : List Value} :
    (Table.ofList (names.zip values)).Ages age
      (Table.ofList (names.zip (values.map (Value.shift age)))) := by
  have each : ∀ (names : List Symbol) (values : List Value) (fresh aged : Table Value),
      fresh.Ages age aged →
      ((names.zip values).foldl (fun table binding => table.insert binding.1 binding.2) fresh).Ages
        age ((names.zip (values.map (Value.shift age))).foldl
          (fun table binding => table.insert binding.1 binding.2) aged) := by
    intro names
    induction names with
    | nil => exact fun _ _ _ ages => ages
    | cons name names ih =>
      intro values fresh aged ages
      cases values with
      | nil => exact ages
      | cons value values => exact ih values _ _ (ages.insert name value)
  exact each names values .empty .empty fun _ => rfl

namespace Machine

variable {fresh aged : Machine} {young old : Table Value}

theorem Ages.lookup (ages : fresh.Ages age aged) (locals : young.Ages age old) (name : Symbol) :
    aged.lookup old name = (fresh.lookup young name).map (Value.shift age) := by
  unfold Machine.lookup
  rw [locals name, ages.globals]
  match young.find? name with
  | some value => rfl
  | none =>
    match found : fresh.globals.find? name with
    | some value =>
      obtain ⟨term, rfl⟩ := ages.terms name value found
      rfl
    | none => rfl

theorem Ages.read (ages : fresh.Ages age aged) (locals : young.Ages age old) (operand : Operand) :
    aged.read old operand = (fresh.read young operand).map (Value.shift age) := by
  cases operand with
  | name symbol => exact ages.lookup locals symbol
  | _ => rfl

theorem Ages.readAll (ages : fresh.Ages age aged) (locals : young.Ages age old)
    (operands : List Operand) :
    aged.readAll old operands = (fresh.readAll young operands).map (List.map (Value.shift age)) := by
  unfold Machine.readAll
  induction operands with
  | nil => rfl
  | cons operand rest ih =>
    rw [List.mapM_cons, List.mapM_cons, ages.read locals, ih]
    cases fresh.read young operand with
    | error cause => rfl
    | ok value => cases rest.mapM (fresh.read young) <;> rfl

theorem Ages.component (ages : fresh.Ages age aged) (locals : young.Ages age old) (base : Symbol)
    (index : Nat) :
    aged.component old base index = (fresh.component young base index).map (Value.shift age) := by
  unfold Machine.component
  rw [ages.lookup locals]
  cases fresh.lookup young base with
  | error cause => rfl
  | ok value =>
    simp only [Except.map, bind, Except.bind, Value.toPair_shift]
    cases value.toPair with
    | error cause => rfl
    | ok pair => match index with
      | 0 | 1 | _ + 2 => rfl

theorem Ages.commit (ages : fresh.Ages age aged) (change : Change) :
    (aged.commit (change.shift age)).1 = (fresh.commit change).1.shift age ∧
      (fresh.commit change).2.Ages age (aged.commit (change.shift age)).2 := by
  obtain ⟨same, store⟩ := ages.store.commit change
  exact ⟨same, ages.functions, ages.globals, ages.terms, ages.host, ages.calls, store⟩

theorem Ages.callHost (ages : fresh.Ages age aged) (function : Symbol) (arguments : List Value) :
    (aged.callHost function (arguments.map (Value.shift age))).1 =
        (fresh.callHost function arguments).1.map (Value.shift age) ∧
      (fresh.callHost function arguments).2.Ages age
        (aged.callHost function (arguments.map (Value.shift age))).2 := by
  have host : aged.host.find? function = fresh.host.find? function := by rw [ages.host]
  unfold Machine.callHost
  match found : fresh.host.find? function with
  | none =>
    simp only [host.trans found]
    exact ⟨rfl, ages⟩
  | some body =>
    simp only [host.trans found]
    have terms : (arguments.map (Value.shift age)).mapM Value.toTerm =
        arguments.mapM Value.toTerm := by
      rw [List.mapM_map]
      exact congrArg (fun read => arguments.mapM read) (funext Value.toTerm_shift)
    refine ⟨?_, ages.functions, ages.globals, ages.terms, ages.host, ages.calls, ages.store⟩
    rw [terms]
    cases arguments.mapM Value.toTerm with
    | error cause => rfl
    | ok found =>
      simp only [bind, Except.bind]
      cases body found <;> rfl

theorem Ages.finish (ages : fresh.Ages age aged) : fresh.finish.Ages age aged.finish :=
  ⟨ages.functions, ages.globals, ages.terms, ages.host, congrArg CallStack.pop ages.calls,
    ages.store⟩

theorem Ages.print (ages : fresh.Ages age aged) (line other : String) :
    (fresh.print line).Ages age (aged.print other) := by
  unfold Machine.print
  split <;> split <;>
    exact ⟨ages.functions, ages.globals, ages.terms, ages.host, ages.calls, ages.store⟩

/-- The targets of a loop are bound alike. -/
theorem bindTargets_ages (locals : young.Ages age old) (targets : List Symbol) (item : Value) :
    (∃ cause, bindTargets young targets item = .error cause ∧
      bindTargets old targets (item.shift age) = .error cause) ∨
      ∃ bound shifted, bindTargets young targets item = .ok bound ∧
        bindTargets old targets (item.shift age) = .ok shifted ∧ bound.Ages age shifted := by
  match targets with
  | [single] => exact .inr ⟨_, _, rfl, rfl, locals.insert single item⟩
  | [left, right] =>
    simp only [bindTargets, Value.toPair_shift]
    cases item.toPair with
    | error cause => exact .inl ⟨cause, rfl, rfl⟩
    | ok pair =>
      exact .inr ⟨_, _, rfl, rfl, (locals.insert left pair.1).insert right pair.2⟩
  | [] | _ :: _ :: _ :: _ =>
    exact .inl ⟨_, rfl, Value.mismatch_shift _ _⟩

end Machine

namespace State

variable {fresh aged : Machine} {young old : Table Value} {below above : List Frame}
  {target : Option Symbol} {rest : List Statement}

theorem bindResult_ages (locals : young.Ages age old) (value : Value) :
    (bindResult target value young).Ages age (bindResult target (value.shift age) old) := by
  cases target with
  | none => exact locals
  | some name => exact locals.insert name value

theorem settle_ages (machine : fresh.Ages age aged) (locals : young.Ages age old)
    (frames : List.Forall₂ (Frame.Ages age) below above) (result : Except EvalError Value) :
    Progress.Ages age (settle target rest young below fresh result)
      (settle target rest old above aged (result.map (Value.shift age))) := by
  cases result with
  | ok value => exact .more ⟨rfl, bindResult_ages locals value, frames, machine⟩
  | error cause => exact .more ⟨rfl, locals, frames, machine⟩

theorem enter_ages (machine : fresh.Ages age aged) (locals : young.Ages age old)
    (frames : List.Forall₂ (Frame.Ages age) below above) (function : Symbol)
    (arguments : List Value) :
    Progress.Ages age (enter function arguments target rest young below fresh)
      (enter function (arguments.map (Value.shift age)) target rest old above aged) := by
  unfold enter
  rw [machine.functions]
  cases fresh.functions.find? function with
  | none =>
    obtain ⟨same, called⟩ := machine.callHost function arguments
    dsimp only
    rw [same]
    exact settle_ages called locals frames _
  | some definition =>
    by_cases fits : definition.parameters.length = arguments.length
    · simp only [Machine.start, List.length_map, fits, ne_eq, not_true_eq_false, if_false,
        machine.calls]
      cases fresh.calls.push function with
      | error cause =>
        exact .more ⟨rfl, locals, frames, machine.functions, machine.globals, machine.terms,
          machine.host, rfl, machine.store⟩
      | ok pushed =>
        exact .more ⟨rfl, .ofList, .cons (.call target rest locals) frames, machine.functions,
          machine.globals, machine.terms, machine.host, rfl, machine.store⟩
    · simp only [Machine.start, List.length_map, ne_eq, fits, not_false_eq_true, if_true]
      exact .more ⟨rfl, locals, frames, machine⟩

theorem evaluate_ages (machine : fresh.Ages age aged) (locals : young.Ages age old)
    (frames : List.Forall₂ (Frame.Ages age) below above) (value : Expression) :
    Progress.Ages age (evaluate target value rest young below fresh)
      (evaluate target value rest old above aged) := by
  cases value with
  | operand operand =>
    simp only [evaluate, machine.read locals]
    exact settle_ages machine locals frames _
  | field base index =>
    simp only [evaluate, machine.component locals]
    exact settle_ages machine locals frames _
  | call function arguments =>
    simp only [evaluate, machine.readAll locals]
    cases fresh.readAll young arguments with
    | ok values => exact enter_ages machine locals frames function values
    | error cause => exact .more ⟨rfl, locals, frames, machine⟩
  | primitive function arguments =>
    simp only [evaluate, machine.readAll locals]
    cases fresh.readAll young arguments with
    | error cause => exact .more ⟨rfl, locals, frames, machine⟩
    | ok values =>
      simp only [Except.map, Primitive.apply_shift machine.store]
      cases function.apply fresh.store values with
      | ok change =>
        obtain ⟨same, changed⟩ := machine.commit change
        refine .more ⟨rfl, ?_, frames, changed⟩
        dsimp only
        rw [same]
        exact bindResult_ages locals _
      | error failure =>
        cases failure with
        | error cause => exact .more ⟨rfl, locals, frames, machine⟩
        | misuse cause => exact .ended ⟨rfl, machine⟩
        | exhausted => exact .ended ⟨rfl, machine⟩
  | binary op left right =>
    simp only [evaluate, machine.read locals]
    have result : (do
        let first ← (fresh.read young left).map (Value.shift age)
        let second ← (fresh.read young right).map (Value.shift age)
        op.apply first second) = (do
        let first ← fresh.read young left
        let second ← fresh.read young right
        op.apply first second).map (Value.shift age) := by
      simp only [Except.bind_map_eq, Except.map_bind_eq, BinaryOp.apply_shift]
    rw [result]
    exact settle_ages machine locals frames _

/-- What tame code raises is plain. -/
theorem plain_of_raised {operand : Operand} (tame : (Control.run (.raise operand :: rest)).IsTame young)
    {value : Value} (found : fresh.read young operand = .ok value) : value.IsPlain := by
  obtain ⟨sum, tame, raised⟩ := tame
  rw [Statement.areTame_cons, Bool.and_eq_true] at tame
  cases operand with
  | name symbol =>
    have here := tame.1
    rw [Statement.isTame] at here
    obtain ⟨plain, known, isPlain⟩ := raised symbol (of_decide_eq_true here)
    rw [Machine.read_name known] at found
    cases found
    exact isPlain
  | _ =>
    cases found
    trivial

theorem execute_ages (machine : fresh.Ages age aged) (locals : young.Ages age old)
    (frames : List.Forall₂ (Frame.Ages age) below above) {statement : Statement}
    (tame : (Control.run (statement :: rest)).IsTame young) :
    Progress.Ages age (execute statement rest young below fresh)
      (execute statement rest old above aged) := by
  have block := List.Forall₂.cons (@Frame.Ages.block age rest) frames
  cases statement with
  | define name parameters body =>
    obtain ⟨sum, tame, _⟩ := tame
    rw [Statement.areTame_cons, Statement.isTame] at tame
    cases tame
  | assign name value => exact evaluate_ages machine locals frames value
  | effect value => exact evaluate_ages machine locals frames value
  | leave => exact .more ⟨rfl, locals, frames, machine⟩
  | loop condition body =>
    exact .more ⟨rfl, locals, .cons (.loop condition body) block, machine⟩
  | branch condition onTrue onFalse =>
    simp only [execute, machine.read locals]
    cases fresh.read young condition with
    | error cause => exact .more ⟨rfl, locals, frames, machine⟩
    | ok value =>
      simp only [Except.map, Except.bind, Value.toBool_shift]
      cases value.toBool with
      | ok holds => cases holds <;> exact .more ⟨rfl, locals, block, machine⟩
      | error cause => exact .more ⟨rfl, locals, frames, machine⟩
  | forEach targets iterable body =>
    simp only [execute, machine.lookup locals]
    cases fresh.lookup young iterable with
    | error cause => exact .more ⟨rfl, locals, frames, machine⟩
    | ok value =>
      simp only [Except.map, Except.bind, Value.toList_shift machine.store]
      cases value.toList fresh.store with
      | ok listed =>
        refine .more ⟨rfl, locals, .cons ?_ block, machine⟩
        rw [Array.toList_map]
        exact .each targets listed.2.toList body
      | error cause => exact .more ⟨rfl, locals, frames, machine⟩
  | forRange target start stop body =>
    simp only [execute, machine.read locals, Except.bind_map_eq, Value.toInt_shift]
    split
    · exact .more ⟨rfl, locals, .cons (.range _ _ _ body) block, machine⟩
    · exact .more ⟨rfl, locals, frames, machine⟩
  | returns value =>
    simp only [execute, machine.read locals]
    cases fresh.read young value with
    | ok result => exact .more ⟨rfl, locals, frames, machine⟩
    | error cause => exact .more ⟨rfl, locals, frames, machine⟩
  | raise value =>
    simp only [execute, machine.read locals]
    cases found : fresh.read young value with
    | error cause => exact .more ⟨rfl, locals, frames, machine⟩
    | ok message =>
      have same := Value.text_shift (plain_of_raised tame found) age fresh.store aged.store
      refine .more ⟨?_, locals, frames, machine⟩
      dsimp only [Except.map]
      rw [same]
      rfl
  | print value =>
    simp only [execute, machine.read locals]
    cases fresh.read young value with
    | error cause => exact .more ⟨rfl, locals, frames, machine⟩
    | ok result => exact .more ⟨rfl, locals, frames, machine.print _ _⟩

theorem resume_ages (machine : fresh.Ages age aged) (locals : young.Ages age old)
    (frames : List.Forall₂ (Frame.Ages age) below above) {frame other : Frame}
    (same : frame.Ages age other) :
    Progress.Ages age (resume young frame below fresh) (resume old other above aged) := by
  cases same with
  | block rest => exact .more ⟨rfl, locals, frames, machine⟩
  | each targets items body =>
    cases items with
    | nil => exact .more ⟨rfl, locals, frames, machine⟩
    | cons item items =>
      rw [List.map_cons]
      simp only [resume]
      rcases Machine.bindTargets_ages locals targets item with
        ⟨cause, one, two⟩ | ⟨bound, shifted, one, two, ages⟩
      · rw [one, two]
        exact .more ⟨rfl, locals, frames, machine⟩
      · rw [one, two]
        exact .more ⟨rfl, ages, .cons (.each targets items body) frames, machine⟩
  | range target next stop body =>
    simp only [resume]
    split
    · exact .more ⟨rfl, locals.insert target (.int next), .cons (.range _ _ _ body) frames, machine⟩
    · exact .more ⟨rfl, locals, frames, machine⟩
  | loop condition body =>
    simp only [resume, machine.lookup locals]
    cases fresh.lookup young condition with
    | error cause => exact .more ⟨rfl, locals, frames, machine⟩
    | ok value =>
      simp only [Except.map, Except.bind, Value.toBool_shift]
      cases value.toBool with
      | ok holds =>
        cases holds with
        | true => exact .more ⟨rfl, locals, .cons (.loop condition body) frames, machine⟩
        | false => exact .more ⟨rfl, locals, frames, machine⟩
      | error cause => exact .more ⟨rfl, locals, frames, machine⟩
  | call target rest outer => exact settle_ages machine.finish outer frames (.ok .none)

/-- A step of tame code on an older machine. -/
theorem step_ages {state other : State} (ages : state.Ages age other)
    (tame : state.control.IsTame state.locals) : Progress.Ages age state.step other.step := by
  obtain ⟨control, young, below, fresh⟩ := state
  obtain ⟨shifted, old, above, aged⟩ := other
  obtain ⟨rfl, locals, frames, machine⟩ := ages
  cases control with
  | run statements =>
    cases statements with
    | cons statement rest => exact execute_ages machine locals frames tame
    | nil =>
      cases frames with
      | nil => exact .ended ⟨rfl, machine⟩
      | cons frame frames => exact resume_ages machine locals frames frame
  | leave =>
    cases frames with
    | nil => exact .ended ⟨rfl, machine⟩
    | cons frame frames =>
      cases frame with
      | call target rest outer => exact .more ⟨rfl, outer, frames, machine.finish⟩
      | _ => exact .more ⟨rfl, locals, frames, machine⟩
  | give value =>
    cases frames with
    | nil => exact .ended ⟨rfl, machine⟩
    | cons frame frames =>
      cases frame with
      | call target rest outer => exact settle_ages machine.finish outer frames (.ok value)
      | _ => exact .more ⟨rfl, locals, frames, machine⟩
  | fail cause =>
    cases frames with
    | nil => exact .ended ⟨rfl, machine⟩
    | cons frame frames =>
      cases frame with
      | call target rest outer => exact .more ⟨rfl, outer, frames, machine.finish⟩
      | _ => exact .more ⟨rfl, locals, frames, machine⟩

/-- A run of tame code on an older machine. -/
theorem run_ages {machine : Machine} {calls : CallStack} (functions : machine.IsTame)
    (fuel : Nat) : ∀ {state other : State}, state.Ages age other → state.Keeps machine calls →
      (run fuel state).Ages age (run fuel other) := by
  induction fuel with
  | zero => exact fun ages _ => ⟨rfl, ages.machine⟩
  | succ fuel ih =>
    intro state other ages keeps
    have stepped := step_ages ages keeps.control
    have kept := step_keeps functions keeps
    match next : state.step, reached : other.step with
    | .more _, .more _ =>
      rw [next, reached] at stepped
      rw [next] at kept
      rw [run_more next, run_more reached]
      cases stepped with
      | more ages => exact ih ages kept
    | .ended _, .ended _ =>
      rw [next, reached] at stepped
      rw [run_ended next, run_ended reached]
      cases stepped with
      | ended ages => exact ages
    | .more _, .ended _ | .ended _, .more _ =>
      rw [next, reached] at stepped
      cases stepped

end State

namespace Machine

variable {fresh aged : Machine}

theorem answer_ages {outcome other : Outcome} (ages : outcome.Ages age other) :
    other.answer.1 = outcome.answer.1.map (Value.shift age) ∧
      outcome.answer.2.Ages age other.answer.2 := by
  obtain ⟨flow, young, fresh⟩ := outcome
  obtain ⟨shifted, old, aged⟩ := other
  obtain ⟨rfl, machine⟩ := ages
  match flow with
  | .ok .done | .ok .left | .ok (.returned _) | .error (.error _) => exact ⟨rfl, machine.finish⟩
  | .error .exhausted | .error (.misuse _) => exact ⟨rfl, machine⟩

/-- A call on an older machine has the same result. -/
theorem call_ages (functions : fresh.IsTame) (ages : fresh.Ages age aged) (fuel : Nat)
    (function : Symbol) (arguments : List Value) :
    (aged.call fuel function (arguments.map (Value.shift age))).1 =
        (fresh.call fuel function arguments).1.map (Value.shift age) ∧
      (fresh.call fuel function arguments).2.Ages age
        (aged.call fuel function (arguments.map (Value.shift age))).2 := by
  cases found : fresh.functions.find? function with
  | none =>
    obtain ⟨same, called⟩ := ages.callHost function arguments
    have there : aged.functions.find? function = none := by rw [ages.functions, found]
    simp only [call, found, there]
    rcases one : fresh.callHost function arguments with ⟨value | cause, first⟩
    all_goals
      rcases two : aged.callHost function (arguments.map (Value.shift age)) with ⟨other, second⟩
      rw [one, two] at same called
      cases same
      exact ⟨rfl, called⟩
  | some definition =>
    have there : aged.functions.find? function = some definition := by rw [ages.functions, found]
    by_cases fits : definition.parameters.length = arguments.length
    · have also : definition.parameters.length = (arguments.map (Value.shift age)).length := by
        rw [List.length_map, fits]
      rw [call_eq found fits, call_eq there also, ages.calls]
      cases started : fresh.calls.push function with
      | error cause =>
        exact ⟨rfl, ages.functions, ages.globals, ages.terms, ages.host, rfl, ages.store⟩
      | ok pushed =>
        have begun : fresh.start function definition arguments =
            (.ok (.ofList (definition.parameters.zip arguments)),
              fresh.moved fresh.store pushed (fresh.journal.record function)) := by
          simp only [start, fits, ne_eq, not_true_eq_false, if_false, started]
          rfl
        refine answer_ages (State.run_ages functions fuel ⟨rfl, .ofList, .nil, ?_⟩
          (start_keeps functions found begun).2)
        exact ⟨ages.functions, ages.globals, ages.terms, ages.host, rfl, ages.store⟩
    · simp only [call, found, there, start, List.length_map, ne_eq, fits, not_false_eq_true,
        if_true]
      exact ⟨rfl, ages⟩

end Machine

end Reduct
