import Reduct.Machine.Calls
import Reduct.Machine.Host
import Reduct.Machine.Primitive

/-!
# The machine that runs statement code

A machine is a loaded module: its functions, its module-level constants, the store, and what
can be observed of a run (the calls made and the lines printed). One step executes one statement
or resumes one suspended block; what is suspended is kept in a list of frames, so the depth of
calls is bounded by the limit of the call stack alone. `run` takes steps until the outermost
block ends, at most as many as its fuel.

A failure ends the calls under way one by one. Bindings that are used out of turn end the run at
once, and the calls that were under way stay on the call stack.
-/

namespace Reduct

/-- A function of a module. -/
structure Function where
  parameters : List Symbol
  body : List Statement

/-- A loaded module. -/
structure Machine where
  functions : Table Function
  /-- The module-level constants. -/
  globals : Table Value
  host : Host
  store : Store
  calls : CallStack
  counts : CallCounts
  /-- Whether printed lines are dropped. -/
  silent : Bool
  /-- The lines printed so far. -/
  output : String

namespace Machine

/-- A machine with no functions. -/
def empty (host : Host) (limit : Option Nat) (silent : Bool) : Machine where
  functions := .empty
  globals := .empty
  host := host
  store := .empty
  calls := .empty limit
  counts := .empty
  silent := silent
  output := ""

/-- Define a function, over any earlier one of its name. -/
def define (machine : Machine) (name : Symbol) (parameters : List Symbol)
    (body : List Statement) : Machine :=
  { machine with functions := machine.functions.insert name ⟨parameters, body⟩ }

/-- Print a line. -/
def print (machine : Machine) (line : String) : Machine :=
  if machine.silent then machine else { machine with output := machine.output ++ line ++ "\n" }

/-- Forget the lines printed so far. -/
def clearOutput (machine : Machine) : Machine := { machine with output := "" }

/-- Forget the calls made so far. -/
def resetCounts (machine : Machine) : Machine := { machine with counts := .empty }

/-- Carry out a change of the store. -/
def commit : Machine → Change → Value × Machine
  | ⟨functions, globals, host, store, calls, counts, silent, output⟩, change =>
    let (value, changed) := store.commit change
    (value, ⟨functions, globals, host, changed, calls, counts, silent, output⟩)

/-- The value of a variable: a local one, or else a module-level constant. -/
def lookup (machine : Machine) (locals : Table Value) (name : Symbol) : Except EvalError Value :=
  match locals.find? name with
  | some value => .ok value
  | none =>
    match machine.globals.find? name with
    | some value => .ok value
    | none => .error (.undefinedVariable name)

/-- The value of an operand. -/
def read (machine : Machine) (locals : Table Value) : Operand → Except EvalError Value
  | .name symbol => machine.lookup locals symbol
  | .none => .ok .none
  | .bool value => .ok (.bool value)
  | .int value => .ok (.int value)
  | .string text => .ok (.string text)

/-- The values of operands, from left to right. -/
def readAll (machine : Machine) (locals : Table Value) (operands : List Operand) :
    Except EvalError (List Value) :=
  operands.mapM (machine.read locals)

/-- A component of the pair that a variable holds. -/
def component (machine : Machine) (locals : Table Value) (base : Symbol) (index : Nat) :
    Except EvalError Value := do
  let (first, second) ← (← machine.lookup locals base).toPair
  match index with
  | 0 => .ok first
  | 1 => .ok second
  | _ => .error (.term (.indexOutOfBounds index 2))

/-- Bind the targets of a loop to the next value; two targets take a pair apart. -/
def bindTargets (locals : Table Value) (targets : List Symbol) (item : Value) :
    Except EvalError (Table Value) :=
  match targets with
  | [single] => .ok (locals.insert single item)
  | [left, right] => do
    let (first, second) ← item.toPair
    .ok ((locals.insert left first).insert right second)
  | _ => Value.mismatch "one or two loop targets" item

/-- Call a function of the host. A call of a function that the host lacks is not counted. -/
def callHost (machine : Machine) (function : Symbol) (arguments : List Value) :
    Except EvalError Value × Machine :=
  match machine.host.find? function with
  | none => (.error (.unknownFunction function), machine)
  | some body =>
    let result := do
      let terms ← arguments.mapM Value.toTerm
      match body terms with
      | .ok term => .ok (.term term)
      | .error message => .error (.foreign function message)
    (result, { machine with counts := machine.counts.record function })

/-- Start a call of a function of the module, and give its first variables. A call beyond the
limit of the call stack is counted, and one with a wrong number of arguments is not. -/
def start (machine : Machine) (name : Symbol) (function : Function) (arguments : List Value) :
    Except EvalError (Table Value) × Machine :=
  if function.parameters.length ≠ arguments.length then
    (.error (.wrongArgumentCount name function.parameters.length arguments.length), machine)
  else
    let counts := machine.counts.record name
    match machine.calls.push name with
    | .error cause => (.error cause, { machine with counts := counts })
    | .ok calls =>
      (.ok (.ofList (function.parameters.zip arguments)),
        { machine with counts := counts, calls := calls })

/-- End the innermost call. -/
def finish (machine : Machine) : Machine := { machine with calls := machine.calls.pop }

end Machine

/-- How a block ends without a failure. -/
inductive Flow where
  /-- After its last statement. -/
  | done
  /-- By leaving a loop around it. -/
  | left
  /-- By returning a value. -/
  | returned (value : Value)

/-- The value of a function whose body ends in a way. -/
def Flow.result : Flow → Except EvalError Value
  | done => .ok .none
  | left => .error .leaveOutsideLoop
  | returned value => .ok value

/-- What is suspended while a block runs. -/
inductive Frame where
  /-- The statements after a branch or a loop. -/
  | block (rest : List Statement)
  /-- The coming rounds of a loop over values. -/
  | each (targets : List Symbol) (items : List Value) (body : List Statement)
  /-- The coming rounds of a loop over integers. -/
  | range (target : Symbol) (next stop : Int64) (body : List Statement)
  /-- The coming rounds of a loop with a condition. -/
  | loop (condition : Symbol) (body : List Statement)
  /-- The rest of the block that calls: where the value goes, and the variables there. -/
  | call (target : Option Symbol) (locals : Table Value) (rest : List Statement)

/-- What the machine is about to do. -/
inductive Control where
  /-- Execute statements. -/
  | run (statements : List Statement)
  /-- Leave the innermost loop. -/
  | leave
  /-- Return a value from the innermost call. -/
  | give (value : Value)
  /-- End all calls with a failure. -/
  | fail (cause : EvalError)

/-- A run under way. -/
structure State where
  control : Control
  locals : Table Value
  frames : List Frame
  machine : Machine

/-- The end of a run: how the outermost block ended, with its variables. -/
structure Outcome where
  flow : Except Failure Flow
  locals : Table Value
  machine : Machine

/-- What a step leads to. -/
inductive Progress where
  | more (state : State)
  | ended (outcome : Outcome)

namespace State

/-- Store the value of an expression, if it has a target. -/
def bindResult (target : Option Symbol) (value : Value) (locals : Table Value) : Table Value :=
  match target with
  | some name => locals.insert name value
  | none => locals

/-- Go on after an expression with its value, or with its failure. -/
def settle (target : Option Symbol) (rest : List Statement) (locals : Table Value)
    (frames : List Frame) (machine : Machine) : Except EvalError Value → Progress
  | .ok value => .more ⟨.run rest, bindResult target value locals, frames, machine⟩
  | .error cause => .more ⟨.fail cause, locals, frames, machine⟩

/-- Call a function of the module, or else of the host. -/
def enter (function : Symbol) (arguments : List Value) (target : Option Symbol)
    (rest : List Statement) (locals : Table Value) (frames : List Frame) (machine : Machine) :
    Progress :=
  match machine.functions.find? function with
  | some definition =>
    match machine.start function definition arguments with
    | (.ok inner, started) =>
      .more ⟨.run definition.body, inner, .call target locals rest :: frames, started⟩
    | (.error cause, started) => .more ⟨.fail cause, locals, frames, started⟩
  | none =>
    let (result, called) := machine.callHost function arguments
    settle target rest locals frames called result

/-- Evaluate an expression and go on with its value. -/
def evaluate (target : Option Symbol) (expression : Expression) (rest : List Statement)
    (locals : Table Value) (frames : List Frame) (machine : Machine) : Progress :=
  match expression with
  | .operand value => settle target rest locals frames machine (machine.read locals value)
  | .call function arguments =>
    match machine.readAll locals arguments with
    | .ok values => enter function values target rest locals frames machine
    | .error cause => .more ⟨.fail cause, locals, frames, machine⟩
  | .primitive function arguments =>
    match machine.readAll locals arguments with
    | .error cause => .more ⟨.fail cause, locals, frames, machine⟩
    | .ok values =>
      match function.apply machine.store values with
      | .ok change =>
        let (value, changed) := machine.commit change
        .more ⟨.run rest, bindResult target value locals, frames, changed⟩
      | .error (.error cause) => .more ⟨.fail cause, locals, frames, machine⟩
      | .error failure => .ended ⟨.error failure, locals, machine⟩
  | .field base index =>
    settle target rest locals frames machine (machine.component locals base index)
  | .binary op left right =>
    settle target rest locals frames machine do
      let first ← machine.read locals left
      let second ← machine.read locals right
      op.apply first second

/-- Execute one statement. -/
def execute (statement : Statement) (rest : List Statement) (locals : Table Value)
    (frames : List Frame) (machine : Machine) : Progress :=
  match statement with
  | .define name parameters body =>
    .more ⟨.run rest, locals, frames, machine.define name parameters body⟩
  | .assign target value => evaluate (some target) value rest locals frames machine
  | .branch condition onTrue onFalse =>
    match (machine.read locals condition).bind Value.toBool with
    | .ok true => .more ⟨.run onTrue, locals, .block rest :: frames, machine⟩
    | .ok false => .more ⟨.run onFalse, locals, .block rest :: frames, machine⟩
    | .error cause => .more ⟨.fail cause, locals, frames, machine⟩
  | .forEach targets iterable body =>
    match (machine.lookup locals iterable).bind (Value.toList machine.store) with
    | .ok (_, items) =>
      .more ⟨.run [], locals, .each targets items.toList body :: .block rest :: frames, machine⟩
    | .error cause => .more ⟨.fail cause, locals, frames, machine⟩
  | .forRange target start stop body =>
    let bounds := do
      let first ← (← machine.read locals start).toInt
      let last ← (← machine.read locals stop).toInt
      .ok (first, last)
    match bounds with
    | .ok (first, last) =>
      .more ⟨.run [], locals, .range target first last body :: .block rest :: frames, machine⟩
    | .error cause => .more ⟨.fail cause, locals, frames, machine⟩
  | .loop condition body =>
    .more ⟨.run [], locals, .loop condition body :: .block rest :: frames, machine⟩
  | .leave => .more ⟨.leave, locals, frames, machine⟩
  | .returns value =>
    match machine.read locals value with
    | .ok result => .more ⟨.give result, locals, frames, machine⟩
    | .error cause => .more ⟨.fail cause, locals, frames, machine⟩
  | .raise value =>
    match machine.read locals value with
    | .ok message => .more ⟨.fail (.raised (message.text machine.store)), locals, frames, machine⟩
    | .error cause => .more ⟨.fail cause, locals, frames, machine⟩
  | .print value =>
    match machine.read locals value with
    | .ok result => .more ⟨.run rest, locals, frames, machine.print (result.text machine.store)⟩
    | .error cause => .more ⟨.fail cause, locals, frames, machine⟩
  | .effect value => evaluate none value rest locals frames machine

/-- Go on after the last statement of a block with what was suspended. -/
def resume (locals : Table Value) (frame : Frame) (frames : List Frame) (machine : Machine) :
    Progress :=
  match frame with
  | .block rest => .more ⟨.run rest, locals, frames, machine⟩
  | .each _ [] _ => .more ⟨.run [], locals, frames, machine⟩
  | .each targets (item :: items) body =>
    match Machine.bindTargets locals targets item with
    | .ok bound => .more ⟨.run body, bound, .each targets items body :: frames, machine⟩
    | .error cause => .more ⟨.fail cause, locals, frames, machine⟩
  | .range target next stop body =>
    if next < stop then
      .more ⟨.run body, locals.insert target (.int next),
        .range target (next + 1) stop body :: frames, machine⟩
    else .more ⟨.run [], locals, frames, machine⟩
  | .loop condition body =>
    match (machine.lookup locals condition).bind Value.toBool with
    | .ok true => .more ⟨.run body, locals, .loop condition body :: frames, machine⟩
    | .ok false => .more ⟨.run [], locals, frames, machine⟩
    | .error cause => .more ⟨.fail cause, locals, frames, machine⟩
  | .call target outer rest => settle target rest outer frames machine.finish Flow.done.result

/-- One step of a run. -/
def step : State → Progress
  | ⟨.run (statement :: rest), locals, frames, machine⟩ =>
    execute statement rest locals frames machine
  | ⟨.run [], locals, frame :: frames, machine⟩ => resume locals frame frames machine
  | ⟨.run [], locals, [], machine⟩ => .ended ⟨.ok .done, locals, machine⟩
  | ⟨.leave, locals, .block _ :: frames, machine⟩ => .more ⟨.leave, locals, frames, machine⟩
  | ⟨.leave, _, .call target outer rest :: frames, machine⟩ =>
    settle target rest outer frames machine.finish Flow.left.result
  | ⟨.leave, locals, _ :: frames, machine⟩ => .more ⟨.run [], locals, frames, machine⟩
  | ⟨.leave, locals, [], machine⟩ => .ended ⟨.ok .left, locals, machine⟩
  | ⟨.give value, _, .call target outer rest :: frames, machine⟩ =>
    settle target rest outer frames machine.finish (Flow.returned value).result
  | ⟨.give value, locals, _ :: frames, machine⟩ => .more ⟨.give value, locals, frames, machine⟩
  | ⟨.give value, locals, [], machine⟩ => .ended ⟨.ok (.returned value), locals, machine⟩
  | ⟨.fail cause, _, .call _ outer _ :: frames, machine⟩ =>
    .more ⟨.fail cause, outer, frames, machine.finish⟩
  | ⟨.fail cause, locals, _ :: frames, machine⟩ => .more ⟨.fail cause, locals, frames, machine⟩
  | ⟨.fail cause, locals, [], machine⟩ => .ended ⟨.error (.error cause), locals, machine⟩

/-- Take steps until the outermost block ends, at most as many as the fuel. -/
def run : Nat → State → Outcome
  | 0, ⟨_, locals, _, machine⟩ => ⟨.error .exhausted, locals, machine⟩
  | fuel + 1, state =>
    match step state with
    | .more next => run fuel next
    | .ended outcome => outcome

end State

namespace Machine

/-- The fuel of a run that is not meant to be cut short. -/
def ampleFuel : Nat := 1000000000000000000

/-- Call a function of the module, or else of the host. -/
def call (machine : Machine) (fuel : Nat) (function : Symbol) (arguments : List Value) :
    Except Failure Value × Machine :=
  match machine.functions.find? function with
  | none =>
    match machine.callHost function arguments with
    | (.ok value, called) => (.ok value, called)
    | (.error cause, called) => (.error (.error cause), called)
  | some definition =>
    match machine.start function definition arguments with
    | (.error cause, started) => (.error (.error cause), started)
    | (.ok locals, started) =>
      match State.run fuel ⟨.run definition.body, locals, [], started⟩ with
      | ⟨.ok flow, _, ended⟩ =>
        match flow.result with
        | .ok value => (.ok value, ended.finish)
        | .error cause => (.error (.error cause), ended.finish)
      | ⟨.error (.error cause), _, ended⟩ => (.error (.error cause), ended.finish)
      | ⟨.error failure, _, ended⟩ => (.error failure, ended)

/-- Whether a statement defines a function. -/
def isDefinition : Statement → Bool
  | .define .. => true
  | _ => false

/-- Define the functions of a module. -/
def defineAll (machine : Machine) (statements : List Statement) : Machine :=
  statements.foldl (fun machine statement =>
    match statement with
    | .define name parameters body => machine.define name parameters body
    | _ => machine) machine

/-- Load a module: define its functions, then execute its other statements in order. Their
variables become the module-level constants. -/
def load (code : Module) (fuel : Nat) (host : Host) (limit : Option Nat) (silent : Bool) :
    Except Failure Unit × Machine :=
  let defined := (empty host limit silent).defineAll code.body
  let statements := code.body.filter fun statement => !isDefinition statement
  match State.run fuel ⟨.run statements, .empty, [], defined⟩ with
  | ⟨.ok .left, _, machine⟩ => (.error (.error .leaveOutsideLoop), machine)
  | ⟨.ok _, locals, machine⟩ => (.ok (), { machine with globals := locals })
  | ⟨.error failure, _, machine⟩ => (.error failure, machine)

end Machine

end Reduct
