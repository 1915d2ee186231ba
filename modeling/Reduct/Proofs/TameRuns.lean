import Reduct.Proofs.CallResults
import Reduct.Proofs.TameCode

/-!
# Runs of tame code

A run of tame code changes the store, the calls under way and what can be observed, and nothing
else of the machine. Every suspended call accounts for one of the calls under way. So when a call
has ended, at whatever depth, with a value or with a failure, the same calls are under way as
before. One step preserves both; the runs of calls follow by induction.
-/

namespace Reduct

/-- The text of a plain value does not depend on the store. -/
def Value.IsPlain : Value → Prop
  | bindings _ | list _ | pair .. => False
  | _ => True

theorem Value.text_of_plain {value : Value} (plain : value.IsPlain) (store other : Store) :
    value.text store = value.text other := by
  unfold text
  cases value with
  | bool value => cases value <;> rfl
  | bindings | list | pair => exact plain.elim
  | _ => rfl

theorem BinaryOp.plain_of_ofExact {number : Int} {value : Value}
    (applied : ofExact number = .ok value) : value.IsPlain := by
  unfold ofExact at applied
  split at applied
  · cases applied
    trivial
  · cases applied

theorem BinaryOp.plain_of_add {left right value : Value}
    (applied : add.apply left right = .ok value) : value.IsPlain := by
  unfold apply at applied
  split at applied
  · exact plain_of_ofExact applied
  · cases applied
    trivial
  all_goals contradiction

namespace State

/-- The calls that are under way when all suspended calls have ended. -/
def unwind : List Frame → CallStack → CallStack
  | [], calls => calls
  | .call .. :: frames, calls => unwind frames calls.pop
  | _ :: frames, calls => unwind frames calls

end State

/-- What is suspended goes on with tame code. -/
def Frame.IsTame : Frame → Prop
  | block rest | call _ _ rest => Statement.areTame none rest = true
  | each _ _ body | range _ _ _ body | loop _ body => Statement.areTame none body = true

/-- The statements that come next are tame, and what they raise first is plain. -/
def Control.IsTame (locals : Table Value) : Control → Prop
  | run statements => ∃ sum, Statement.areTame sum statements = true ∧
      ∀ name, sum = some name → ∃ value, locals.find? name = some value ∧ value.IsPlain
  | _ => True

theorem Control.IsTame.run {statements : List Statement}
    (tame : Statement.areTame none statements = true) (locals : Table Value) :
    (Control.run statements).IsTame locals := ⟨none, tame, nofun⟩

/-- The functions of a machine have tame code. -/
def Machine.IsTame (machine : Machine) : Prop :=
  ∀ name definition, machine.functions.find? name = some definition →
    Statement.Tame definition.body

/-- The machine in the middle of a run, with some calls under way beside the suspended ones: only
what may change has changed, and what is suspended is tame. -/
structure Machine.Suspends (machine : Machine) (calls : CallStack) (frames : List Frame)
    (current : Machine) : Prop where
  moved : ∃ store under journal, current = machine.moved store under journal
  balanced : State.unwind frames current.calls = calls
  tame : ∀ frame ∈ frames, frame.IsTame

/-- A state of a run of tame code on a machine, with some calls under way beside the suspended
ones. -/
structure State.Keeps (machine : Machine) (calls : CallStack) (state : State) : Prop where
  suspends : machine.Suspends calls state.frames state.machine
  control : state.control.IsTame state.locals

/-- A step goes on with a run of tame code, or ends it; unless the run is abandoned, the machine
has only changed where it may. -/
def Progress.Keeps (machine : Machine) (calls : CallStack) : Progress → Prop
  | .more next => next.Keeps machine calls
  | .ended outcome => State.Abandoned outcome.flow ∨
      ∃ store journal, outcome.machine = machine.moved store calls journal

namespace Machine

/-- A machine differs from another one in its store and in what can be observed. -/
def Drifts (before after : Machine) : Prop :=
  ∃ store journal, after = before.moved store before.calls journal

theorem Drifts.refl (machine : Machine) : machine.Drifts machine :=
  ⟨machine.store, machine.journal, rfl⟩

theorem drifts_commit (machine : Machine) (change : Change) :
    machine.Drifts (machine.commit change).2 :=
  ⟨(machine.store.commit change).2, machine.journal, rfl⟩

theorem drifts_print (machine : Machine) (line : String) : machine.Drifts (machine.print line) := by
  unfold print
  split
  · exact .refl machine
  · exact ⟨machine.store, ⟨machine.counts, _⟩, rfl⟩

theorem drifts_callHost (machine : Machine) (function : Symbol) (arguments : List Value) :
    machine.Drifts (machine.callHost function arguments).2 := by
  unfold callHost
  split
  · exact .refl machine
  · exact ⟨machine.store, machine.journal.record function, rfl⟩

variable {machine current after : Machine} {calls : CallStack} {frames : List Frame}

theorem Suspends.drift (suspends : machine.Suspends calls frames current)
    (drifts : current.Drifts after) : machine.Suspends calls frames after := by
  obtain ⟨store, journal, rfl⟩ := drifts
  obtain ⟨⟨earlier, under, noted, rfl⟩, balanced, tame⟩ := suspends
  exact ⟨⟨store, under, journal, rfl⟩, balanced, tame⟩

/-- A loop or the rest of a block is suspended. -/
theorem Suspends.add (suspends : machine.Suspends calls frames current) {frame : Frame}
    (plain : State.unwind (frame :: frames) current.calls = State.unwind frames current.calls)
    (tame : frame.IsTame) : machine.Suspends calls (frame :: frames) current :=
  ⟨suspends.moved, plain.trans suspends.balanced,
    List.forall_mem_cons.mpr ⟨tame, suspends.tame⟩⟩

theorem Suspends.block (suspends : machine.Suspends calls frames current) {rest : List Statement}
    (tame : Statement.areTame none rest = true) :
    machine.Suspends calls (.block rest :: frames) current :=
  suspends.add rfl tame

/-- A loop or the rest of a block goes on. -/
theorem Suspends.drop {frame : Frame} (suspends : machine.Suspends calls (frame :: frames) current)
    (plain : State.unwind (frame :: frames) current.calls = State.unwind frames current.calls) :
    machine.Suspends calls frames current :=
  ⟨suspends.moved, plain.symm.trans suspends.balanced, fun other listed =>
    suspends.tame other (.tail _ listed)⟩

/-- A call starts. -/
theorem Suspends.push (suspends : machine.Suspends calls frames current) {function : Symbol}
    {pushed : CallStack} (started : current.calls.push function = .ok pushed)
    {target : Option Symbol} {locals : Table Value} {rest : List Statement}
    (tame : Statement.areTame none rest = true) (counts : CallCounts) :
    machine.Suspends calls (.call target locals rest :: frames)
      { current with counts := counts, calls := pushed } := by
  obtain ⟨⟨store, under, journal, rfl⟩, balanced, each⟩ := suspends
  refine ⟨⟨store, pushed, ⟨counts, journal.output⟩, rfl⟩, ?_, List.forall_mem_cons.mpr ⟨tame, each⟩⟩
  change State.unwind frames pushed.pop = calls
  rw [CallStack.pop_push started]
  exact balanced

/-- A suspended call ends. -/
theorem Suspends.pop {target : Option Symbol} {locals : Table Value} {rest : List Statement}
    (suspends : machine.Suspends calls (.call target locals rest :: frames) current) :
    machine.Suspends calls frames current.finish := by
  obtain ⟨⟨store, under, journal, rfl⟩, balanced, each⟩ := suspends
  exact ⟨⟨store, under.pop, journal, rfl⟩, balanced, fun other listed => each other (.tail _ listed)⟩

theorem Suspends.tame_head {frame : Frame}
    (suspends : machine.Suspends calls (frame :: frames) current) : frame.IsTame :=
  suspends.tame frame (.head _)

end Machine

namespace State

variable {machine current : Machine} {calls : CallStack} {frames : List Frame}
  {locals : Table Value} {rest : List Statement} {target : Option Symbol}

/-- The statements after an expression are tame, and raise at first only the sum that the
expression is. -/
def Follows (target : Option Symbol) (value : Expression) (rest : List Statement) : Prop :=
  ∃ sum, Statement.areTame sum rest = true ∧
    ∀ name, sum = some name → target = some name ∧ value.isSum = true

theorem follows_assign {name : Symbol} {value : Expression}
    (tame : Statement.areTame (Statement.assign name value).sum? rest = true) :
    Follows (some name) value rest := by
  refine ⟨_, tame, fun other same => ?_⟩
  by_cases adds : value.isSum = true
  · rw [Statement.sum?, if_pos adds] at same
    exact ⟨same, adds⟩
  · rw [Statement.sum?, if_neg adds] at same
    cases same

theorem Follows.unwritten {value : Expression} (follows : Follows target value rest)
    (silent : value.isSum = false) : Statement.areTame none rest = true := by
  obtain ⟨sum, tame, only⟩ := follows
  cases sum with
  | none => exact tame
  | some name => cases silent.symm.trans (only name rfl).2

theorem Follows.control {value : Expression} (follows : Follows target value rest) {result : Value}
    (plain : value.isSum = true → result.IsPlain) (locals : Table Value) :
    (Control.run rest).IsTame (bindResult target result locals) := by
  obtain ⟨sum, tame, only⟩ := follows
  refine ⟨sum, tame, fun name same => ?_⟩
  obtain ⟨rfl, adds⟩ := only name same
  exact ⟨result, Table.find?_insert_self _ _ _, plain adds⟩

theorem settle_keeps (suspends : machine.Suspends calls frames current)
    {result : Except EvalError Value}
    (onward : ∀ value, result = .ok value →
      (Control.run rest).IsTame (bindResult target value locals)) :
    (settle target rest locals frames current result).Keeps machine calls := by
  cases result with
  | ok value => exact ⟨suspends, onward value rfl⟩
  | error cause => exact ⟨suspends, trivial⟩

theorem enter_keeps (functions : machine.IsTame) (suspends : machine.Suspends calls frames current)
    (tame : Statement.areTame none rest = true) (function : Symbol) (arguments : List Value) :
    (enter function arguments target rest locals frames current).Keeps machine calls := by
  unfold enter
  split
  · rename_i definition found
    have body : Statement.Tame definition.body := by
      obtain ⟨store, under, journal, rfl⟩ := suspends.moved
      exact functions function definition found
    by_cases fits : definition.parameters.length = arguments.length
    · simp only [Machine.start, fits, ne_eq, not_true_eq_false, if_false]
      cases started : current.calls.push function with
      | error cause =>
        exact ⟨suspends.drift ⟨current.store, current.journal.record function, rfl⟩, trivial⟩
      | ok pushed => exact ⟨suspends.push started tame _, .run (body none) _⟩
    · simp only [Machine.start, ne_eq, fits, not_false_eq_true, if_true]
      exact ⟨suspends, trivial⟩
  · have drifts := current.drifts_callHost function arguments
    exact settle_keeps (suspends.drift drifts) fun _ _ => .run tame _

theorem evaluate_keeps (functions : machine.IsTame)
    (suspends : machine.Suspends calls frames current) {value : Expression}
    (follows : Follows target value rest) :
    (evaluate target value rest locals frames current).Keeps machine calls := by
  cases value with
  | operand operand => exact settle_keeps suspends fun _ _ => follows.control (fun adds => by cases adds) _
  | field base index => exact settle_keeps suspends fun _ _ => follows.control (fun adds => by cases adds) _
  | call function arguments =>
    simp only [evaluate]
    split
    · exact enter_keeps functions suspends (follows.unwritten rfl) function _
    · exact ⟨suspends, trivial⟩
  | primitive function arguments =>
    simp only [evaluate]
    split
    · exact ⟨suspends, trivial⟩
    · split
      · rename_i change _
        exact ⟨suspends.drift (current.drifts_commit change), follows.control (fun adds => by cases adds) _⟩
      · exact ⟨suspends, trivial⟩
      · rename_i failure other _
        cases failure with
        | exhausted => exact .inl (.inl rfl)
        | misuse cause => exact .inl (.inr ⟨cause, rfl⟩)
        | error cause => exact absurd rfl (other cause)
  | binary op left right =>
    refine settle_keeps suspends fun result applied => follows.control (fun adds => ?_) _
    cases op with
    | add =>
      obtain ⟨first, _, applied⟩ := Except.bind_eq_ok.mp applied
      obtain ⟨second, _, applied⟩ := Except.bind_eq_ok.mp applied
      exact BinaryOp.plain_of_add applied
    | _ => cases adds

theorem execute_keeps (functions : machine.IsTame)
    (suspends : machine.Suspends calls frames current) {statement : Statement}
    (control : (Control.run (statement :: rest)).IsTame locals) :
    (execute statement rest locals frames current).Keeps machine calls := by
  obtain ⟨sum, tame, shown⟩ := control
  rw [Statement.areTame_cons, Bool.and_eq_true] at tame
  obtain ⟨here, later⟩ := tame
  cases statement with
  | define name parameters body =>
    rw [Statement.isTame] at here
    cases here
  | assign name value => exact evaluate_keeps functions suspends (follows_assign later)
  | effect value => exact evaluate_keeps functions suspends ⟨none, later, nofun⟩
  | branch condition onTrue onFalse =>
    rw [Statement.isTame_branch, Bool.and_eq_true] at here
    have block := suspends.block later
    simp only [execute]
    split
    · exact ⟨block, .run here.1 _⟩
    · exact ⟨block, .run here.2 _⟩
    · exact ⟨suspends, trivial⟩
  | forEach targets iterable body =>
    rw [Statement.isTame_forEach] at here
    simp only [execute]
    split
    · exact ⟨(suspends.block later).add rfl here, .run Statement.areTame_nil _⟩
    · exact ⟨suspends, trivial⟩
  | forRange target start stop body =>
    rw [Statement.isTame_forRange] at here
    simp only [execute]
    split
    · exact ⟨(suspends.block later).add rfl here, .run Statement.areTame_nil _⟩
    · exact ⟨suspends, trivial⟩
  | loop condition body =>
    rw [Statement.isTame_loop] at here
    exact ⟨(suspends.block later).add rfl here, .run Statement.areTame_nil _⟩
  | leave => exact ⟨suspends, trivial⟩
  | returns value =>
    simp only [execute]
    split <;> exact ⟨suspends, trivial⟩
  | raise value =>
    simp only [execute]
    split <;> exact ⟨suspends, trivial⟩
  | print value =>
    simp only [execute]
    split
    · exact ⟨suspends.drift (current.drifts_print _), .run later _⟩
    · exact ⟨suspends, trivial⟩

theorem resume_keeps {frame : Frame} (suspends : machine.Suspends calls (frame :: frames) current) :
    (resume locals frame frames current).Keeps machine calls := by
  have tame := suspends.tame_head
  cases frame with
  | block rest => exact ⟨suspends.drop rfl, .run tame _⟩
  | each targets items body =>
    cases items with
    | nil => exact ⟨suspends.drop rfl, .run Statement.areTame_nil _⟩
    | cons item items =>
      have others := suspends.drop rfl
      simp only [resume]
      split
      · exact ⟨others.add rfl tame, .run tame _⟩
      · exact ⟨others, trivial⟩
  | range target next stop body =>
    have others := suspends.drop rfl
    simp only [resume]
    split
    · exact ⟨others.add rfl tame, .run tame _⟩
    · exact ⟨others, .run Statement.areTame_nil _⟩
  | loop condition body =>
    have others := suspends.drop rfl
    simp only [resume]
    split
    · exact ⟨suspends, .run tame _⟩
    · exact ⟨others, .run Statement.areTame_nil _⟩
    · exact ⟨others, trivial⟩
  | call target outer rest =>
    show (settle target rest outer frames current.finish Flow.done.result).Keeps machine calls
    exact settle_keeps suspends.pop fun _ _ => .run tame _

/-- A step of a run of tame code. -/
theorem step_keeps (functions : machine.IsTame) {state : State} (keeps : state.Keeps machine calls) :
    state.step.Keeps machine calls := by
  obtain ⟨control, locals, frames, current⟩ := state
  obtain ⟨suspends, tame⟩ := keeps
  have ended : ∀ {flow : Except Failure Flow}, frames = [] →
      Progress.Keeps machine calls (.ended ⟨flow, locals, current⟩) := by
    rintro flow rfl
    obtain ⟨⟨store, under, journal, rfl⟩, balanced, _⟩ := suspends
    exact .inr ⟨store, journal, by rw [← balanced]; rfl⟩
  cases control with
  | run statements =>
    cases statements with
    | cons statement rest => exact execute_keeps functions suspends tame
    | nil =>
      cases frames with
      | nil => exact ended rfl
      | cons frame frames => exact resume_keeps suspends
  | leave =>
    cases frames with
    | nil => exact ended rfl
    | cons frame frames =>
      cases frame with
      | call target outer rest =>
        show (settle target rest outer frames current.finish Flow.left.result).Keeps machine calls
        exact settle_keeps suspends.pop fun _ _ => .run suspends.tame_head _
      | block => exact ⟨suspends.drop rfl, trivial⟩
      | _ => exact ⟨suspends.drop rfl, .run Statement.areTame_nil _⟩
  | give value =>
    cases frames with
    | nil => exact ended rfl
    | cons frame frames =>
      cases frame with
      | call target outer rest =>
        show (settle target rest outer frames current.finish
          (Flow.returned value).result).Keeps machine calls
        exact settle_keeps suspends.pop fun _ _ => .run suspends.tame_head _
      | _ => exact ⟨suspends.drop rfl, trivial⟩
  | fail cause =>
    cases frames with
    | nil => exact ended rfl
    | cons frame frames =>
      cases frame with
      | call target outer rest => exact ⟨suspends.pop, trivial⟩
      | _ => exact ⟨suspends.drop rfl, trivial⟩

/-- Unless it is abandoned, a run of tame code ends with no more than the other calls under way. -/
theorem run_keeps (functions : machine.IsTame) (fuel : Nat) :
    ∀ {state : State}, state.Keeps machine calls → Abandoned (run fuel state).flow ∨
      ∃ store journal, (run fuel state).machine = machine.moved store calls journal := by
  induction fuel with
  | zero => exact fun _ => .inl (.inl rfl)
  | succ fuel ih =>
    intro state keeps
    have stepped := step_keeps functions keeps
    match next : state.step with
    | .more other =>
      rw [next] at stepped
      rw [run_more next]
      exact ih stepped
    | .ended outcome =>
      rw [next] at stepped
      rw [run_ended next]
      exact stepped

/-- A state without what is suspended in it. -/
def alone (state : State) : State := { state with frames := [] }

theorem Keeps.alone {state : State} (keeps : state.Keeps machine calls) :
    state.alone.Keeps state.machine state.machine.calls where
  suspends := ⟨⟨state.machine.store, state.machine.calls, state.machine.journal, rfl⟩, rfl, nofun⟩
  control := keeps.control

/-- Only the execution of a statement suspends more. -/
theorem length_of_alone_ended {state next : State} (ended : state.alone.Ended)
    (stepped : state.step = .more next) : next.frames.length ≤ state.frames.length := by
  obtain ⟨control, locals, frames, current⟩ := state
  cases frames with
  | nil =>
    cases control with
    | run statements =>
      cases statements with
      | nil => cases stepped
      | cons statement rest => cases ended
    | _ => cases stepped
  | cons frame frames =>
    cases control with
    | run statements =>
      cases statements with
      | cons statement rest => cases ended
      | nil =>
        change resume locals frame frames current = _ at stepped
        cases frame with
        | call | block =>
          cases stepped
          exact Nat.le_succ _
        | each targets items body =>
          cases items with
          | nil =>
            cases stepped
            exact Nat.le_succ _
          | cons item items =>
            simp only [resume] at stepped
            split at stepped <;> cases stepped <;> simp
        | range | loop =>
          simp only [resume] at stepped
          split at stepped <;> cases stepped <;> simp
    | leave | give | fail =>
      cases frame <;> cases stepped <;> exact Nat.le_succ _

/-- Steps lead from a state to another, and more than some frames are suspended all the way. -/
inductive During (depth : Nat) : State → State → Prop
  | here {state : State} (deep : depth < state.frames.length) : During depth state state
  | step {first second last : State} (deep : depth < first.frames.length)
      (stepped : first.step = .more second) (rest : During depth second last) :
      During depth first last

/-- A state of a run above suspended frames: by itself it is a state of a run of tame code. -/
def KeepsAbove (frames : List Frame) (machine : Machine) (state : State) : Prop :=
  ∃ inner, state.frames = inner ++ frames ∧
    State.Keeps machine machine.calls { state with frames := inner }

theorem KeepsAbove.step (functions : machine.IsTame) {state next : State}
    (keeps : state.KeepsAbove frames machine)
    (running : ¬ state.alone.Ended ∨ frames.length < state.frames.length)
    (stepped : state.step = .more next) : next.KeepsAbove frames machine := by
  obtain ⟨control, locals, all, current⟩ := state
  obtain ⟨inner, same, keeps⟩ := keeps
  obtain rfl : all = inner ++ frames := same
  have going : ¬ State.Ended ⟨control, locals, inner, current⟩ := by
    rcases running with going | deep
    · cases inner with
      | nil => exact going
      | cons frame inner => cases control with
        | run statements => cases statements <;> nofun
        | _ => nofun
    · cases inner with
      | nil => simp at deep
      | cons frame inner => cases control with
        | run statements => cases statements <;> nofun
        | _ => nofun
  have under := step_under going frames
  have inside := step_keeps functions keeps
  dsimp only at under
  rw [stepped] at under
  match reached : State.step ⟨control, locals, inner, current⟩ with
  | .more other =>
    rw [reached] at under inside
    cases under
    exact ⟨other.frames, rfl, inside⟩
  | .ended outcome =>
    rw [reached] at under
    cases under

theorem During.keeps (functions : machine.IsTame) {first last : State}
    (during : During frames.length first last) (keeps : first.KeepsAbove frames machine) :
    last.KeepsAbove frames machine ∧ frames.length < last.frames.length := by
  induction during with
  | here deep => exact ⟨keeps, deep⟩
  | step deep stepped _ ih => exact ih (keeps.step functions (.inr deep) stepped)

/-- What a state enters, a call, a branch or a loop, leaves the calls under way, the functions and
the constants as they were when it has ended, with or without a failure. -/
theorem Keeps.returns (functions : machine.IsTame) {before inside last after : State}
    (keeps : before.Keeps machine calls) (entered : before.step = .more inside)
    (during : During before.frames.length inside last) (ended : last.step = .more after)
    (shallow : after.frames.length ≤ before.frames.length) :
    after.frames = before.frames ∧ before.machine.Drifts after.machine := by
  have same : before.machine.IsTame := by
    obtain ⟨store, under, journal, moved⟩ := keeps.suspends.moved
    rw [moved]
    exact functions
  have going : ¬ before.alone.Ended := by
    intro finished
    have short := length_of_alone_ended finished entered
    have deep : before.frames.length < inside.frames.length := by
      cases during <;> assumption
    omega
  have start : before.KeepsAbove before.frames before.machine := ⟨[], rfl, keeps.alone⟩
  have inner := start.step same (.inl going) entered
  obtain ⟨above, deep⟩ := during.keeps same inner
  obtain ⟨left, frames, kept⟩ := above.step same (.inr deep) ended
  have none : left = [] := by
    rw [frames, List.length_append] at shallow
    exact List.eq_nil_of_length_eq_zero (by omega)
  subst none
  refine ⟨frames, ?_⟩
  obtain ⟨store, under, journal, moved⟩ := kept.suspends.moved
  have balanced : after.machine.calls = before.machine.calls := kept.suspends.balanced
  refine ⟨store, journal, ?_⟩
  rw [← balanced]
  change after.machine = _ at moved
  rw [moved]
  rfl

end State

namespace Machine

/-- A call returns, with a value or with a failure. -/
def Returns (machine : Machine) (fuel : Nat) (function : Symbol) (arguments : List Value)
    (result : Except EvalError Value) (after : Machine) : Prop :=
  machine.call fuel function arguments = (result.mapError .error, after)

/-- The states of the calls of functions on a machine. -/
inductive Reaches (machine : Machine) : State → Prop
  | start {function : Symbol} {definition : Function} {arguments : List Value}
      {locals : Table Value} {started : Machine}
      (found : machine.functions.find? function = some definition)
      (begun : machine.start function definition arguments = (.ok locals, started)) :
      Reaches machine ⟨.run definition.body, locals, [], started⟩
  | step {state next : State} (reached : Reaches machine state) (stepped : state.step = .more next) :
      Reaches machine next

/-- A machine serves calls one after the other, as long as they return. -/
inductive ServesCalls : Machine → Machine → Prop
  | none {machine : Machine} : ServesCalls machine machine
  | call {first middle last : Machine} {fuel : Nat} {function : Symbol} {arguments : List Value}
      {result : Except EvalError Value} (earlier : ServesCalls first middle)
      (returned : middle.Returns fuel function arguments result last) : ServesCalls first last

variable {machine after : Machine} {function : Symbol} {definition : Function}
  {arguments : List Value}

theorem start_keeps (functions : machine.IsTame)
    (found : machine.functions.find? function = some definition) {locals : Table Value}
    {started : Machine} (begun : machine.start function definition arguments = (.ok locals, started)) :
    started.calls.pop = machine.calls ∧
      State.Keeps machine started.calls ⟨.run definition.body, locals, [], started⟩ := by
  unfold start at begun
  split at begun
  · cases begun
  · dsimp only at begun
    split at begun
    · cases begun
    · rename_i pushed same
      cases begun
      have tame := functions function definition found none
      exact ⟨CallStack.pop_push same, ⟨⟨machine.store, pushed, machine.journal.record function, rfl⟩,
        rfl, nofun⟩, .run tame _⟩

theorem Reaches.keeps (functions : machine.IsTame) {state : State} (reached : machine.Reaches state) :
    ∃ calls, calls.pop = machine.calls ∧ state.Keeps machine calls := by
  induction reached with
  | start found begun => exact ⟨_, start_keeps functions found begun⟩
  | step _ stepped ih =>
    obtain ⟨calls, popped, keeps⟩ := ih
    have next := State.step_keeps functions keeps
    rw [stepped] at next
    exact ⟨calls, popped, next⟩

/-- The end of a call pops it from the calls under way, unless the run is abandoned. -/
theorem drifts_of_answer {calls : CallStack} (popped : calls.pop = machine.calls)
    {outcome : Outcome} (ended : State.Abandoned outcome.flow ∨
      ∃ store journal, outcome.machine = machine.moved store calls journal) :
    (outcome.answer.1 = .error .exhausted ∨ ∃ cause, outcome.answer.1 = .error (.misuse cause)) ∨
      machine.Drifts outcome.answer.2 := by
  obtain ⟨flow, locals, last⟩ := outcome
  rcases ended with (rfl | ⟨cause, rfl⟩) | ⟨store, journal, moved⟩
  · exact .inl (.inl rfl)
  · exact .inl (.inr ⟨cause, rfl⟩)
  · have finished : machine.Drifts last.finish := by
      refine ⟨store, journal, ?_⟩
      rw [← popped]
      change last = _ at moved
      rw [moved]
      rfl
    match flow with
    | .ok .done | .ok .left | .ok (.returned _) | .error (.error _) => exact .inr finished
    | .error .exhausted => exact .inl (.inl rfl)
    | .error (.misuse cause) => exact .inl (.inr ⟨cause, rfl⟩)

/-- A call that is not abandoned leaves the calls under way, the functions and the constants as
they were. -/
theorem call_drifts (functions : machine.IsTame) (fuel : Nat) (function : Symbol)
    (arguments : List Value) :
    ((machine.call fuel function arguments).1 = .error .exhausted ∨
      ∃ cause, (machine.call fuel function arguments).1 = .error (.misuse cause)) ∨
      machine.Drifts (machine.call fuel function arguments).2 := by
  cases found : machine.functions.find? function with
  | none =>
    have drifts := machine.drifts_callHost function arguments
    simp only [call, found]
    split <;> rename_i called <;> rw [called] at drifts <;> exact .inr drifts
  | some definition =>
    by_cases fits : definition.parameters.length = arguments.length
    · rw [call_eq found fits]
      cases started : machine.calls.push function with
      | error cause => exact .inr ⟨machine.store, machine.journal.record function, rfl⟩
      | ok pushed =>
        have begun : machine.start function definition arguments =
            (.ok (.ofList (definition.parameters.zip arguments)),
              machine.moved machine.store pushed (machine.journal.record function)) := by
          simp only [start, fits, ne_eq, not_true_eq_false, if_false, started]
          rfl
        obtain ⟨popped, keeps⟩ := start_keeps functions found begun
        exact drifts_of_answer popped (State.run_keeps functions fuel keeps)
    · simp only [call, found, start, ne_eq, fits, not_false_eq_true, if_true]
      exact .inr (.refl machine)

theorem Returns.drifts (functions : machine.IsTame) {fuel : Nat} {result : Except EvalError Value}
    (returned : machine.Returns fuel function arguments result after) : machine.Drifts after := by
  have drifts := call_drifts functions fuel function arguments
  unfold Returns at returned
  rw [returned] at drifts
  cases result with
  | ok value =>
    rcases drifts with (cut | ⟨cause, cut⟩) | drifts
    · cases cut
    · cases cut
    · exact drifts
  | error cause =>
    rcases drifts with (cut | ⟨other, cut⟩) | drifts
    · cases cut
    · cases cut
    · exact drifts

theorem ServesCalls.drifts (functions : machine.IsTame) (serves : machine.ServesCalls after) :
    machine.Drifts after := by
  induction serves with
  | none => exact .refl _
  | call _ returned ih =>
    obtain ⟨store, journal, rfl⟩ := ih
    have same : (machine.moved store machine.calls journal).IsTame := functions
    obtain ⟨later, noted, rfl⟩ := returned.drifts same
    exact ⟨later, noted, rfl⟩

end Machine

end Reduct
