import Reduct.Proofs.CountWords
import Reduct.Proofs.Judgement
import Reduct.Proofs.SortedTable
import Reduct.Proofs.StoredLists

/-!
# Rules for code

One rule for each kind of statement. A rule asks what the statement needs, its operands and the
conditions of its effect, and leaves the statements after it.
-/

namespace Reduct

/-- What a run leaves behind beside the store: the calls made and the lines printed. -/
structure Journal where
  counts : CallCounts
  output : String

/-- One more call of a function was made. -/
def Journal.record (journal : Journal) (function : Symbol) : Journal :=
  { journal with counts := journal.counts.record function }

namespace Machine

/-- What the runs of a machine have left behind. -/
def journal (machine : Machine) : Journal := ⟨machine.counts, machine.output⟩

/-- The machine in the middle of a run: the store, the calls under way and the journal have
moved on. -/
def moved (machine : Machine) (store : Store) (calls : CallStack) (journal : Journal) : Machine :=
  { machine with
    store := store, calls := calls, counts := journal.counts, output := journal.output }

end Machine

/-- The places where code stops: after its last statement, where it gives a value, or where it
has failed in a way that is excused. -/
inductive Stops (policy : Policy) (machine : Machine) (rest : List Statement)
    (frames : List Frame) (calls : CallStack) (ends : Table Value → Store → Prop)
    (gives : Value → Store → Prop) : State → Prop
  | ends {locals : Table Value} {store : Store} {journal : Journal} (reached : ends locals store) :
      Stops policy machine rest frames calls ends gives
        ⟨.run rest, locals, frames, machine.moved store calls journal⟩
  | gives {value : Value} {locals : Table Value} {store : Store} {journal : Journal}
      (given : gives value store) :
      Stops policy machine rest frames calls ends gives
        ⟨.give value, locals, frames, machine.moved store calls journal⟩
  | fails {cause : EvalError} {locals : Table Value} {store : Store} {journal : Journal}
      (excused : policy.excuses cause) :
      Stops policy machine rest frames calls ends gives
        ⟨.fail cause, locals, frames, machine.moved store calls journal⟩

/-- The places where a call ends: in the block that calls, with a value, or with a failure that is
excused. -/
inductive Settles (policy : Policy) (machine : Machine) (target : Option Symbol)
    (rest : List Statement) (locals : Table Value) (frames : List Frame) (calls : CallStack)
    (gives : Value → Store → Prop) : State → Prop
  | gives {value : Value} {store : Store} {journal : Journal} (given : gives value store) :
      Settles policy machine target rest locals frames calls gives
        ⟨.run rest, State.bindResult target value locals, frames,
          machine.moved store calls journal⟩
  | fails {cause : EvalError} {store : Store} {journal : Journal}
      (excused : policy.excuses cause) :
      Settles policy machine target rest locals frames calls gives
        ⟨.fail cause, locals, frames, machine.moved store calls journal⟩

/-- Code comes to its end with variables and a store of one set, or gives a value with a store of
another. -/
def Runs (judgement : Judgement) (machine : Machine) (code : List Statement)
    (locals : Table Value) (store : Store) (ends : Table Value → Store → Prop)
    (gives : Value → Store → Prop) : Prop :=
  ∀ rest frames calls journal, judgement.admits calls →
    judgement.holds ⟨.run (code ++ rest), locals, frames, machine.moved store calls journal⟩
      (Stops judgement.toPolicy machine rest frames calls ends gives)

/-- The coming rounds of a loop end, or give a value, in the same sense. -/
def Loops (judgement : Judgement) (machine : Machine) (frame : Frame) (locals : Table Value)
    (store : Store) (ends : Table Value → Store → Prop) (gives : Value → Store → Prop) : Prop :=
  ∀ rest frames calls journal, judgement.admits calls →
    judgement.holds ⟨.run [], locals, frame :: .block rest :: frames,
        machine.moved store calls journal⟩
      (Stops judgement.toPolicy machine rest frames calls ends gives)

/-- The body of a function gives a value with a store of a set. -/
def Performs (judgement : Judgement) (machine : Machine) (function : Symbol)
    (arguments : List Value) (store : Store) (gives : Value → Store → Prop) : Prop :=
  ∃ definition : Function, machine.functions.find? function = some definition ∧
    definition.parameters.length = arguments.length ∧
    Runs judgement machine definition.body (.ofList (definition.parameters.zip arguments)) store
      (fun _ _ => False) gives

/-- A call of a function gives a value with a store of a set. -/
def Calls (judgement : Judgement) (machine : Machine) (function : Symbol)
    (arguments : List Value) (store : Store) (gives : Value → Store → Prop) : Prop :=
  ∀ target rest locals frames calls journal, judgement.admits calls →
    judgement.next
      (State.enter function arguments target rest locals frames
        (machine.moved store calls journal))
      (Settles judgement.toPolicy machine target rest locals frames calls gives)

section Rules

variable {judgement : Judgement} {machine : Machine} {rest : List Statement}
  {locals : Table Value} {store : Store} {ends : Table Value → Store → Prop}
  {gives : Value → Store → Prop}

theorem Runs.nil (reached : ends locals store) :
    Runs judgement machine [] locals store ends gives := by
  intro rest frames calls journal _
  exact judgement.done (.ends reached)

/-- One step that leads to the code after a statement. -/
theorem Runs.step {statement : Statement} {after : Table Value} {changed : Store}
    (stepped : ∀ rest frames calls journal,
      State.execute statement rest locals frames (machine.moved store calls journal) =
        .more ⟨.run rest, after, frames, machine.moved changed calls journal⟩)
    (others : Runs judgement machine rest after changed ends gives) :
    Runs judgement machine (statement :: rest) locals store ends gives := by
  intro later frames calls journal admitted
  refine judgement.step ?_
  rw [List.cons_append, State.step, stepped]
  exact judgement.more (others later frames calls journal admitted)

theorem Runs.weaken {code : List Statement} {fewer : Table Value → Store → Prop}
    {less : Value → Store → Prop} (runs : Runs judgement machine code locals store fewer less)
    (ending : ∀ locals store, fewer locals store → ends locals store)
    (giving : ∀ value store, less value store → gives value store) :
    Runs judgement machine code locals store ends gives := by
  intro rest frames calls journal admitted
  refine judgement.bind (runs rest frames calls journal admitted) ?_
  rintro _ (reached | given | excused)
  · exact judgement.done (.ends (ending _ _ reached))
  · exact judgement.done (.gives (giving _ _ given))
  · exact judgement.done (.fails excused)

/-- Code runs part by part. -/
theorem Runs.append {first second : List Statement} {middle : Table Value → Store → Prop}
    (before : Runs judgement machine first locals store middle gives)
    (after : ∀ locals store, middle locals store →
      Runs judgement machine second locals store ends gives) :
    Runs judgement machine (first ++ second) locals store ends gives := by
  intro rest frames calls journal admitted
  rw [List.append_assoc]
  refine judgement.bind (before (second ++ rest) frames calls journal admitted) ?_
  rintro _ (reached | given | excused)
  · exact after _ _ reached rest frames calls _ admitted
  · exact judgement.done (.gives given)
  · exact judgement.done (.fails excused)

end Rules

namespace Machine

variable {machine : Machine} {locals : Table Value}

theorem read_name {name : Symbol} {value : Value} (known : locals.find? name = some value) :
    machine.read locals (.name name) = .ok value := by
  simp only [read, lookup, known]

theorem read_global {name : Symbol} {value : Value} (free : locals.find? name = none)
    (known : machine.globals.find? name = some value) :
    machine.read locals (.name name) = .ok value := by
  simp only [read, lookup, free, known]

theorem component_first {base : Symbol} {identity : Nat} {first second : Value}
    (known : locals.find? base = some (.pair identity first second)) :
    machine.component locals base 0 = .ok first := by
  simp only [component, lookup, known, bind, Except.bind, Value.toPair]

theorem component_second {base : Symbol} {identity : Nat} {first second : Value}
    (known : locals.find? base = some (.pair identity first second)) :
    machine.component locals base 1 = .ok second := by
  simp only [component, lookup, known, bind, Except.bind, Value.toPair]

theorem readAll_cons {operand : Operand} {operands : List Operand} {value : Value}
    {values : List Value} (first : machine.read locals operand = .ok value)
    (others : machine.readAll locals operands = .ok values) :
    machine.readAll locals (operand :: operands) = .ok (value :: values) := by
  unfold readAll at others ⊢
  rw [List.mapM_cons, first, others]
  rfl

theorem readAll_one {first : Operand} {value : Value}
    (one : machine.read locals first = .ok value) :
    machine.readAll locals [first] = .ok [value] :=
  readAll_cons one rfl

theorem readAll_two {first second : Operand} {left right : Value}
    (one : machine.read locals first = .ok left) (two : machine.read locals second = .ok right) :
    machine.readAll locals [first, second] = .ok [left, right] :=
  readAll_cons one (readAll_one two)

end Machine

/-- A change may be made if what comes after it is right; no room is an excuse in a crowded store,
and so is a misuse for a tolerant judgement. A failure has to be excused. -/
def Judgement.Allows (judgement : Judgement) (store : Store) (outcome : Except Failure Change)
    (after : Change → Prop) : Prop :=
  match outcome with
  | .ok change => after change
  | .error .exhausted => store.Crowded
  | .error (.misuse _) => judgement.tolerant
  | .error (.error cause) => judgement.excuses cause

theorem Judgement.Allows.imp {judgement : Judgement} {store : Store}
    {outcome : Except Failure Change} {after other : Change → Prop}
    (allowed : judgement.Allows store outcome after)
    (weaker : ∀ change, after change → other change) : judgement.Allows store outcome other := by
  match outcome, allowed with
  | .ok change, allowed => exact weaker change allowed
  | .error .exhausted, crowded => exact crowded
  | .error (.misuse _), tolerant => exact tolerant
  | .error (.error _), excused => exact excused

/-- A result is there, unless its absence is excused. -/
def Judgement.Expects {α : Type} (judgement : Judgement) (result : Option α) : Prop :=
  judgement.tolerant ∨ result.isSome = true

section Primitives

variable {judgement : Judgement} {machine : Machine} {rest : List Statement}
  {locals : Table Value} {store : Store} {ends : Table Value → Store → Prop}
  {gives : Value → Store → Prop}

theorem holds_primitive {target : Option Symbol} {function : Primitive}
    {arguments : List Operand} {values : List Value} {later last : List Statement}
    {frames : List Frame} {calls : CallStack} {journal : Journal}
    (known : machine.readAll locals arguments = .ok values)
    (allowed : judgement.Allows store (function.apply store values) fun change =>
      judgement.holds ⟨.run later, State.bindResult target (store.commit change).1 locals, frames,
        machine.moved (store.commit change).2 calls journal⟩
        (Stops judgement.toPolicy machine last frames calls ends gives)) :
    judgement.next (State.evaluate target (.primitive function arguments) later locals frames
      (machine.moved store calls journal))
      (Stops judgement.toPolicy machine last frames calls ends gives) := by
  have same : (machine.moved store calls journal).readAll locals arguments = .ok values := known
  have applied : function.apply (machine.moved store calls journal).store values =
      function.apply store values := rfl
  simp only [State.evaluate, same, applied]
  generalize function.apply store values = outcome at allowed ⊢
  match outcome, allowed with
  | .ok _, allowed => exact judgement.more allowed
  | .error .exhausted, crowded =>
    have crowdedAfter : (machine.moved store calls journal).store.Crowded := crowded
    exact judgement.exhausted crowdedAfter _ _
  | .error (.misuse _), tolerant => exact judgement.misuse tolerant _ _ _ _
  | .error (.error _), excused => exact judgement.more (judgement.done (.fails excused))

theorem Runs.assignPrimitive {target : Symbol} {function : Primitive} {arguments : List Operand}
    {values : List Value} (known : machine.readAll locals arguments = .ok values)
    (allowed : judgement.Allows store (function.apply store values) fun change =>
      Runs judgement machine rest (locals.insert target (store.commit change).1)
        (store.commit change).2 ends gives) :
    Runs judgement machine (Statement.assignPrimitive target function arguments :: rest) locals
      store ends gives := by
  intro later frames calls journal admitted
  refine judgement.step (holds_primitive known (allowed.imp ?_))
  intro change others
  exact others later frames calls journal admitted

theorem Runs.perform {function : Primitive} {arguments : List Operand} {values : List Value}
    (known : machine.readAll locals arguments = .ok values)
    (allowed : judgement.Allows store (function.apply store values) fun change =>
      Runs judgement machine rest locals (store.commit change).2 ends gives) :
    Runs judgement machine (Statement.perform function arguments :: rest) locals store ends
      gives := by
  intro later frames calls journal admitted
  refine judgement.step (holds_primitive known (allowed.imp ?_))
  intro change others
  exact others later frames calls journal admitted

/-- A primitive that only looks at its arguments. -/
theorem Runs.keep {target : Symbol} {function : Primitive} {arguments : List Operand}
    {values : List Value} {value : Value}
    (known : machine.readAll locals arguments = .ok values)
    (applied : function.apply store values = .ok (.keep value))
    (others : Runs judgement machine rest (locals.insert target value) store ends gives) :
    Runs judgement machine (Statement.assignPrimitive target function arguments :: rest) locals
      store ends gives := by
  refine Runs.assignPrimitive known ?_
  rw [applied]
  exact others

theorem Runs.newList {target : Symbol}
    (others : Runs judgement machine rest (locals.insert target (.list store.size))
      (store.addCell (.list #[])) ends gives) :
    Runs judgement machine (Statement.assignPrimitive target .newList [] :: rest) locals store
      ends gives :=
  Runs.assignPrimitive rfl others

theorem Runs.newMatch {target : Symbol}
    (others : Runs judgement machine rest (locals.insert target (.bindings store.size))
      (store.addCell (.bindings .empty)) ends gives) :
    Runs judgement machine (Statement.assignPrimitive target .newMatch [] :: rest) locals store
      ends gives :=
  Runs.assignPrimitive rfl others

theorem Runs.makePair {target : Symbol} {first second : Operand} {left right : Value}
    (one : machine.read locals first = .ok left) (two : machine.read locals second = .ok right)
    (others : Runs judgement machine rest
      (locals.insert target (.pair store.pairCount left right)) store.addPair ends gives) :
    Runs judgement machine (Statement.assignPrimitive target .makePair [first, second] :: rest)
      locals store ends gives :=
  Runs.assignPrimitive (Machine.readAll_two one two) others

theorem Runs.matchCopy {target : Symbol} {source : Operand} {place : Nat} {content : Bindings}
    (known : machine.read locals source = .ok (.bindings place))
    (held : store.cell? place = some (.bindings content))
    (others : Runs judgement machine rest (locals.insert target (.bindings store.size))
      (store.addCell (.bindings content)) ends gives) :
    Runs judgement machine (Statement.assignPrimitive target .matchCopy [source] :: rest)
      locals store ends gives := by
  refine Runs.assignPrimitive (Machine.readAll_one known) ?_
  change Runs judgement machine rest (locals.insert target (.bindings store.size))
    (store.addCell (.bindings ((store.bindings? place).getD .empty))) ends gives
  rw [store.bindings?_of_cell? held]
  exact others

/-- A list grows, if it has room. -/
theorem Runs.growList {function : Primitive} {arguments : List Operand} {values : List Value}
    {place : Nat} {items : Array Value} {added : List Value}
    (known : machine.readAll locals arguments = .ok values)
    (applied : function.apply store values = Primitive.growList place items.size added)
    (full : mostCount < items.size + added.length → store.Crowded)
    (others : items.size + added.length ≤ mostCount →
      Runs judgement machine rest locals (store.extendList place added) ends gives) :
    Runs judgement machine (Statement.perform function arguments :: rest) locals store ends
      gives := by
  refine Runs.perform known ?_
  rw [applied]
  unfold Primitive.growList
  split
  · rename_i room
    exact others room
  · rename_i none_
    exact full (Nat.lt_of_not_le none_)

theorem Runs.listAppend {list value : Operand} {place : Nat} {items : Array Value} {added : Value}
    (known : machine.read locals list = .ok (.list place))
    (held : store.cell? place = some (.list items))
    (given : machine.read locals value = .ok added)
    (others : items.size + 1 ≤ mostCount →
      Runs judgement machine rest locals (store.extendList place [added]) ends gives) :
    Runs judgement machine (Statement.perform .listAppend [list, value] :: rest) locals store
      ends gives := by
  have more : items.size + [added].length ≤ mostCount →
      Runs judgement machine rest locals (store.extendList place [added]) ends gives := others
  refine Runs.growList (Machine.readAll_two known given) ?_ ?_ more
  · change Primitive.growList place ((store.list? place).getD #[]).size [added] = _
    rw [store.list?_of_cell? held]
    rfl
  · intro full
    refine ⟨place, items, store.list?_of_cell? held, ?_⟩
    rw [List.length_singleton] at full
    unfold mostCount at full
    omega

theorem Runs.listExtend {list other : Operand} {place source : Nat} {items added : Array Value}
    (known : machine.read locals list = .ok (.list place))
    (held : store.cell? place = some (.list items))
    (given : machine.read locals other = .ok (.list source))
    (there : store.cell? source = some (.list added))
    (others : items.size + added.toList.length ≤ mostCount →
      Runs judgement machine rest locals (store.extendList place added.toList) ends gives) :
    Runs judgement machine (Statement.perform .listExtend [list, other] :: rest) locals store
      ends gives := by
  refine Runs.growList (Machine.readAll_two known given) ?_ ?_ others
  · change Primitive.growList place ((store.list? place).getD #[]).size
      ((store.list? source).getD #[]).toList = _
    rw [store.list?_of_cell? held, store.list?_of_cell? there]
    rfl
  · intro full
    rw [Array.length_toList] at full
    by_cases large : 2 ^ 62 ≤ items.size
    · exact ⟨place, items, store.list?_of_cell? held, large⟩
    · refine ⟨source, added, store.list?_of_cell? there, ?_⟩
      unfold mostCount at full
      omega

theorem Runs.listLength {target : Symbol} {list : Operand} {place : Nat} {items : Array Value}
    (known : machine.read locals list = .ok (.list place))
    (held : store.cell? place = some (.list items))
    (others : Runs judgement machine rest
      (locals.insert target (.int (wordOfCount items.size))) store ends gives) :
    Runs judgement machine (Statement.assignPrimitive target .listLength [list] :: rest) locals
      store ends gives := by
  refine Runs.keep (Machine.readAll_one known) ?_ others
  change Except.ok (Change.keep (.ofLength ((store.list? place).getD #[]).size)) = _
  rw [store.list?_of_cell? held]
  rfl

/-- Bindings in place are changed by an operation that may refuse. -/
theorem Runs.changeBindings {function : Primitive} {arguments : List Operand}
    {values : List Value} {place : Nat} {result : Except Misuse Bindings}
    (known : machine.readAll locals arguments = .ok values)
    (applied : function.apply store values =
      (Primitive.ofBindings result).bind fun changed => .ok (.setBindings place changed))
    (expected : judgement.Expects result.toOption)
    (others : ∀ changed, result.toOption = some changed →
      Runs judgement machine rest locals (store.setBindings place changed) ends gives) :
    Runs judgement machine (Statement.perform function arguments :: rest) locals store ends
      gives := by
  refine Runs.perform known ?_
  rw [applied]
  cases result with
  | ok changed => exact others changed rfl
  | error misuse => exact expected.resolve_right nofun

theorem Runs.matchAdd {source value : Operand} {symbol : String} {place : Nat}
    {content : Bindings} {term : Term}
    (known : machine.read locals source = .ok (.bindings place))
    (held : store.cell? place = some (.bindings content))
    (given : machine.read locals value = .ok (.term term))
    (expected : judgement.Expects (content.add symbol term).toOption)
    (others : ∀ changed, (content.add symbol term).toOption = some changed →
      Runs judgement machine rest locals (store.setBindings place changed) ends gives) :
    Runs judgement machine (Statement.perform .matchAdd [source, .string symbol, value] :: rest)
      locals store ends gives := by
  refine Runs.changeBindings (Machine.readAll_cons known (Machine.readAll_two rfl given)) ?_
    expected others
  change (Primitive.ofBindings (((store.bindings? place).getD .empty).add symbol term)).bind _ = _
  rw [store.bindings?_of_cell? held]
  rfl

theorem Primitive.apply_matchIncreaseDepth {place : Nat} {content : Bindings} (symbol : Symbol)
    (held : store.cell? place = some (.bindings content)) :
    Primitive.matchIncreaseDepth.apply store [.bindings place, .string symbol] =
      (Primitive.ofBindings (content.increaseDepth symbol)).bind fun changed =>
        .ok (.setBindings place changed) := by
  change (Primitive.ofBindings (((store.bindings? place).getD .empty).increaseDepth symbol)).bind _ = _
  rw [store.bindings?_of_cell? held]
  rfl

theorem Primitive.apply_matchDecreaseDepth {place : Nat} {content : Bindings} (symbol : Symbol)
    (held : store.cell? place = some (.bindings content)) :
    Primitive.matchDecreaseDepth.apply store [.bindings place, .string symbol] =
      (Primitive.ofBindings (content.decreaseDepth symbol)).bind fun changed =>
        .ok (.setBindings place changed) := by
  change (Primitive.ofBindings (((store.bindings? place).getD .empty).decreaseDepth symbol)).bind _ = _
  rw [store.bindings?_of_cell? held]
  rfl

theorem Runs.matchMerge {source other : Operand} {place added : Nat} {content more : Bindings}
    (known : machine.read locals source = .ok (.bindings place))
    (held : store.cell? place = some (.bindings content))
    (given : machine.read locals other = .ok (.bindings added))
    (there : store.cell? added = some (.bindings more))
    (expected : judgement.Expects (content.merge more).toOption)
    (others : ∀ changed, (content.merge more).toOption = some changed →
      Runs judgement machine rest locals (store.setBindings place changed) ends gives) :
    Runs judgement machine (Statement.perform .matchMerge [source, other] :: rest) locals store
      ends gives := by
  refine Runs.changeBindings (Machine.readAll_two known given) ?_ expected others
  change (Primitive.ofBindings (((store.bindings? place).getD .empty).merge
    ((store.bindings? added).getD .empty))).bind _ = _
  rw [store.bindings?_of_cell? held, store.bindings?_of_cell? there]
  rfl

theorem Primitive.apply_matchRemove {place : Nat} {content : Bindings} (symbol : Symbol)
    (held : store.cell? place = some (.bindings content)) :
    Primitive.matchRemove.apply store [.bindings place, .string symbol] =
      (Primitive.ofBindings (.ok (content.erase symbol))).bind fun changed =>
        .ok (.setBindings place changed) := by
  change Except.ok (Change.setBindings place (((store.bindings? place).getD .empty).erase symbol)) =
    _
  rw [store.bindings?_of_cell? held]
  rfl

theorem Runs.matchCompare {target : Symbol} {source : Operand} {left right : String} {place : Nat}
    {content : Bindings} (known : machine.read locals source = .ok (.bindings place))
    (held : store.cell? place = some (.bindings content))
    (others : Runs judgement machine rest
      (locals.insert target (.bool (content.agree left right))) store ends gives) :
    Runs judgement machine (Statement.assignPrimitive target .matchCompare
      [source, .string left, .string right] :: rest) locals store ends gives := by
  refine Runs.keep (Machine.readAll_cons known (Machine.readAll_two rfl rfl)) ?_ others
  change Except.ok (Change.keep (.bool (((store.bindings? place).getD .empty).agree left right))) = _
  rw [store.bindings?_of_cell? held]
  rfl

theorem Runs.listGet {target : Symbol} {list position : Operand} {place index : Nat}
    {items : Array Value} {value : Value} (small : index ≤ mostCount)
    (known : machine.read locals list = .ok (.list place))
    (held : store.cell? place = some (.list items))
    (given : machine.read locals position = .ok (.int (wordOfCount index)))
    (there : items[index]? = some value)
    (others : Runs judgement machine rest (locals.insert target value) store ends gives) :
    Runs judgement machine (Statement.assignPrimitive target .listGet [list, position] :: rest)
      locals store ends gives := by
  refine Runs.keep (Machine.readAll_two known given) ?_ others
  change (Primitive.ofCheck (Value.int (wordOfCount index)).toIndex).bind (fun found => _) = _
  rw [toIndex_wordOfCount, capped_eq small]
  simp only [Primitive.ofCheck, Value.toList, store.list?_of_cell? held, Option.getD_some, bind,
    Except.bind, there]

theorem Runs.sequenceGet {target : Symbol} {source position : Operand} {index : Nat}
    {items : List Term} {item : Term} (small : index ≤ mostCount)
    (known : machine.read locals source = .ok (.term (.sequence items)))
    (given : machine.read locals position = .ok (.int (wordOfCount index)))
    (there : items[index]? = some item)
    (others : Runs judgement machine rest (locals.insert target (.term item)) store ends gives) :
    Runs judgement machine
      (Statement.assignPrimitive target .sequenceGet [source, position] :: rest) locals store ends
      gives := by
  refine Runs.keep (Machine.readAll_two known given) ?_ others
  change (Primitive.ofCheck (Value.int (wordOfCount index)).toIndex).bind (fun found =>
    (Primitive.ofTerm ((Term.sequence items).child found)).bind fun child =>
      Except.ok (Change.keep (.term child))) = _
  have child : (Term.sequence items).child index = .ok item := by
    simp only [Term.child, Term.children, bind, Except.bind, there]
  rw [toIndex_wordOfCount, capped_eq small]
  simp only [Primitive.ofCheck, Except.bind, child, Primitive.ofTerm]

theorem Runs.sequenceLength {target : Symbol} {source : Operand} {items : List Term}
    (known : machine.read locals source = .ok (.term (.sequence items)))
    (others : Runs judgement machine rest
      (locals.insert target (.int (wordOfCount items.length))) store ends gives) :
    Runs judgement machine (Statement.assignPrimitive target .sequenceLength [source] :: rest)
      locals store ends gives :=
  Runs.keep (Machine.readAll_one known) rfl others

/-- Two lengths are compared, and have to be equal unless their difference is excused. -/
theorem Runs.checkEllipsisCounts {source bound : Operand} {items : List Term} {count : Nat}
    (small : count ≤ mostCount)
    (known : machine.read locals source = .ok (.term (.sequence items)))
    (given : machine.read locals bound = .ok (.int (wordOfCount count)))
    (differ : items.length ≠ count →
      judgement.excuses (.term (.inconsistentCounts count items.length)))
    (others : items.length = count → Runs judgement machine rest locals store ends gives) :
    Runs judgement machine (Statement.perform .checkEllipsisCounts [source, bound] :: rest) locals
      store ends gives := by
  refine Runs.perform (Machine.readAll_two known given) ?_
  change judgement.Allows store ((Primitive.ofCheck (Value.int (wordOfCount count)).toIndex).bind
    fun expected => (Primitive.ofTerm ((Term.sequence items).checkCount expected)).bind
      fun _ => Except.ok (Change.keep .none)) _
  rw [toIndex_wordOfCount, capped_eq small]
  by_cases same : items.length = count
  · have checked : (Term.sequence items).checkCount count = .ok () := by
      simp only [Term.checkCount, Term.children, bind, Except.bind, if_pos same]
    simp only [Primitive.ofCheck, Except.bind, checked, Primitive.ofTerm]
    exact others same
  · have checked : (Term.sequence items).checkCount count =
        .error (.inconsistentCounts count items.length) := by
      simp only [Term.checkCount, Term.children, bind, Except.bind, if_neg same]
    simp only [Primitive.ofCheck, Except.bind, checked, Primitive.ofTerm]
    exact differ same

theorem Display.Lists.toTerms {store : Store} {place : Nat} {terms : List Term}
    (lists : Display.term.Lists store place terms) :
    (Value.list place).toTerms store = .ok terms := by
  obtain ⟨items, held, shown⟩ := lists
  have all : ∀ {values : List Value} {contents : List Term},
      List.Forall₂ (Display.term.shows store) values contents →
      values.mapM Value.toTerm = .ok contents := by
    intro values contents pointwise
    induction pointwise with
    | nil => rfl
    | cons one _ ih =>
      obtain rfl := one
      rw [List.mapM_cons, ih]
      rfl
  change ((Value.list place).toList store >>= fun found => found.2.toList.mapM Value.toTerm) = _
  simp only [Value.toList, store.list?_of_cell? held, Option.getD_some, bind, Except.bind]
  exact all shown

theorem Runs.makeSequence {target : Symbol} {list : Operand} {place : Nat} {terms : List Term}
    (known : machine.read locals list = .ok (.list place))
    (lists : Display.term.Lists store place terms)
    (others : Runs judgement machine rest (locals.insert target (.term (.sequence terms))) store
      ends gives) :
    Runs judgement machine (Statement.assignPrimitive target .makeSequence [list] :: rest) locals
      store ends gives := by
  refine Runs.keep (Machine.readAll_one known) ?_ others
  change (Primitive.ofCheck ((Value.list place).toTerms store)).bind
    (fun terms => Except.ok (Change.keep (.term (.sequence terms)))) = _
  rw [lists.toTerms]
  rfl

/-- A new list gets the children of a term, which has to have some unless that is excused. -/
theorem Runs.sequenceChildren {target : Symbol} {source : Operand} {term : Term}
    (known : machine.read locals source = .ok (.term term))
    (childless : term.children? = none → judgement.excuses (.term (.wrongKind .sequence term)))
    (others : ∀ items, term.children? = some items →
      Runs judgement machine rest (locals.insert target (.list store.size))
        (store.addCell (.list (items.map Value.term).toArray)) ends gives) :
    Runs judgement machine (Statement.assignPrimitive target .sequenceChildren [source] :: rest)
      locals store ends gives := by
  refine Runs.assignPrimitive (Machine.readAll_one known) ?_
  cases term with
  | sequence items => exact others items rfl
  | atom value => exact childless rfl
  | hole => exact childless rfl

/-- The first hole of a context is filled, and has to be there unless that is excused. -/
theorem Runs.plug {target : Symbol} {context contents : Operand} {outer inner : Term}
    (known : machine.read locals context = .ok (.term outer))
    (given : machine.read locals contents = .ok (.term inner))
    (closed : outer.plug? inner = none → judgement.excuses (.term (.noHole outer)))
    (others : ∀ term, outer.plug? inner = some term →
      Runs judgement machine rest (locals.insert target (.term term)) store ends gives) :
    Runs judgement machine (Statement.assignPrimitive target .plug [context, contents] :: rest)
      locals store ends gives := by
  refine Runs.assignPrimitive (Machine.readAll_two known given) ?_
  change judgement.Allows store ((Primitive.ofTerm (outer.plug inner)).bind
    fun result => Except.ok (Change.keep (.term result))) _
  cases plugged : outer.plug? inner with
  | none =>
    simp only [Term.plug, plugged, Primitive.ofTerm, Except.bind]
    exact closed plugged
  | some term =>
    simp only [Term.plug, plugged, Primitive.ofTerm, Except.bind]
    exact others term plugged

theorem Runs.matchGet {target : Symbol} {source : Operand} {symbol : String} {place : Nat}
    {content : Bindings} {term : Term} (known : machine.read locals source = .ok (.bindings place))
    (held : store.cell? place = some (.bindings content)) (bound : content.lookup symbol = some term)
    (others : Runs judgement machine rest (locals.insert target (.term term)) store ends gives) :
    Runs judgement machine
      (Statement.assignPrimitive target .matchGet [source, .string symbol] :: rest) locals store
      ends gives := by
  refine Runs.keep (Machine.readAll_two known rfl) ?_ others
  change (Primitive.ofBindings (((store.bindings? place).getD .empty).get symbol)).bind
    (fun term => Except.ok (Change.keep (.term term))) = _
  rw [store.bindings?_of_cell? held]
  simp only [Option.getD_some, Bindings.get, bound, Primitive.ofBindings, Except.bind]

end Primitives

section Expressions

variable {judgement : Judgement} {machine : Machine} {rest : List Statement}
  {locals : Table Value} {store : Store} {ends : Table Value → Store → Prop}
  {gives : Value → Store → Prop}

theorem Runs.assignOperand {target : Symbol} {operand : Operand} {value : Value}
    (known : machine.read locals operand = .ok value)
    (others : Runs judgement machine rest (locals.insert target value) store ends gives) :
    Runs judgement machine (.assign target (.operand operand) :: rest) locals store ends gives := by
  refine Runs.step ?_ others
  intro later frames calls journal
  have same : (machine.moved store calls journal).read locals operand = .ok value := known
  simp only [State.execute, State.evaluate, same, State.settle, State.bindResult]

theorem Runs.assignField {target base : Symbol} {index : Nat} {value : Value}
    (known : machine.component locals base index = .ok value)
    (others : Runs judgement machine rest (locals.insert target value) store ends gives) :
    Runs judgement machine (.assign target (.field base index) :: rest) locals store ends
      gives := by
  refine Runs.step ?_ others
  intro later frames calls journal
  have same : (machine.moved store calls journal).component locals base index = .ok value := known
  simp only [State.execute, State.evaluate, same, State.settle, State.bindResult]

theorem Runs.assignBinary {target : Symbol} {op : BinaryOp} {left right : Operand}
    {first second value : Value} (one : machine.read locals left = .ok first)
    (two : machine.read locals right = .ok second) (applied : op.apply first second = .ok value)
    (others : Runs judgement machine rest (locals.insert target value) store ends gives) :
    Runs judgement machine (Statement.assignBinary target op left right :: rest) locals store
      ends gives := by
  refine Runs.step ?_ others
  intro later frames calls journal
  have before : (machine.moved store calls journal).read locals left = .ok first := one
  have after : (machine.moved store calls journal).read locals right = .ok second := two
  simp only [Statement.assignBinary, State.execute, State.evaluate, before, after, bind,
    Except.bind, applied, State.settle, State.bindResult]

theorem Runs.returns {operand : Operand} {value : Value}
    (known : machine.read locals operand = .ok value) (given : gives value store) :
    Runs judgement machine (.returns operand :: rest) locals store ends gives := by
  intro later frames calls journal admitted
  refine judgement.step ?_
  have same : (machine.moved store calls journal).read locals operand = .ok value := known
  simp only [List.cons_append, State.step, State.execute, same]
  exact judgement.more (judgement.done (.gives given))

end Expressions

section Control

variable {judgement : Judgement} {machine : Machine} {rest : List Statement}
  {locals : Table Value} {store : Store} {ends : Table Value → Store → Prop}
  {gives : Value → Store → Prop}

/-- Whether what is suspended is a call. -/
def Frame.isCall : Frame → Bool
  | .call .. => true
  | _ => false

/-- A value that is given passes what is suspended inside a function. -/
theorem holds_give {frame : Frame} (inner : frame.isCall = false) {value : Value}
    {frames : List Frame} {goal : State → Prop}
    (outer : judgement.holds ⟨.give value, locals, frames, machine⟩ goal) :
    judgement.holds ⟨.give value, locals, frame :: frames, machine⟩ goal := by
  refine judgement.step ?_
  cases frame with
  | call => cases inner
  | _ => exact judgement.more outer

/-- A failure passes what is suspended inside a function. -/
theorem holds_fail {frame : Frame} (inner : frame.isCall = false) {cause : EvalError}
    {frames : List Frame} {goal : State → Prop}
    (outer : judgement.holds ⟨.fail cause, locals, frames, machine⟩ goal) :
    judgement.holds ⟨.fail cause, locals, frame :: frames, machine⟩ goal := by
  refine judgement.step ?_
  cases frame with
  | call => cases inner
  | _ => exact judgement.more outer

/-- A block inside another one goes on with what is suspended around it. -/
theorem Runs.inside {code : List Statement} {middle : Table Value → Store → Prop}
    (runs : Runs judgement machine code locals store middle gives) {frame : Frame}
    {frames : List Frame} {calls : CallStack} {journal : Journal} {goal : State → Prop}
    (admitted : judgement.admits calls)
    (ending : ∀ after changed noted, middle after changed →
      judgement.holds ⟨.run [], after, frame :: frames, machine.moved changed calls noted⟩ goal)
    (giving : ∀ value after changed noted, gives value changed →
      judgement.holds ⟨.give value, after, frame :: frames,
        machine.moved changed calls noted⟩ goal)
    (failing : ∀ cause after changed noted, judgement.excuses cause →
      judgement.holds ⟨.fail cause, after, frame :: frames,
        machine.moved changed calls noted⟩ goal) :
    judgement.holds ⟨.run code, locals, frame :: frames, machine.moved store calls journal⟩ goal := by
  have inner := runs [] (frame :: frames) calls journal admitted
  rw [List.append_nil] at inner
  refine judgement.bind inner ?_
  rintro _ (reached | given | excused)
  · exact ending _ _ _ reached
  · exact giving _ _ _ _ given
  · exact failing _ _ _ _ excused

/-- A branch runs one of its blocks, and then what comes after it. -/
theorem Runs.branch {condition : Operand} {holds : Bool} {onTrue onFalse : List Statement}
    (middle : Table Value → Store → Prop)
    (known : machine.read locals condition = .ok (.bool holds))
    (taken : holds = true → Runs judgement machine onTrue locals store middle gives)
    (skipped : holds = false → Runs judgement machine onFalse locals store middle gives)
    (others : ∀ locals store, middle locals store →
      Runs judgement machine rest locals store ends gives) :
    Runs judgement machine (.branch condition onTrue onFalse :: rest) locals store ends gives := by
  intro later frames calls journal admitted
  have same : (machine.moved store calls journal).read locals condition = .ok (.bool holds) := known
  have goesOn : ∀ block, Runs judgement machine block locals store middle gives →
      judgement.holds ⟨.run block, locals, .block (rest ++ later) :: frames,
        machine.moved store calls journal⟩
        (Stops judgement.toPolicy machine later frames calls ends gives) := by
    intro block runs
    refine runs.inside admitted ?_ ?_ ?_
    · intro after changed noted reached
      refine judgement.step ?_
      exact judgement.more (others after changed reached later frames calls noted admitted)
    · exact fun _ _ _ _ given => holds_give rfl (judgement.done (.gives given))
    · exact fun _ _ _ _ excused => holds_fail rfl (judgement.done (.fails excused))
  refine judgement.step ?_
  simp only [List.cons_append, State.step, State.execute, same, Except.bind, Value.toBool]
  cases holds with
  | true => exact judgement.more (goesOn onTrue (taken rfl))
  | false => exact judgement.more (goesOn onFalse (skipped rfl))

theorem Runs.whenTrue {condition : Symbol} {holds : Bool} {body : List Statement}
    (middle : Table Value → Store → Prop)
    (known : locals.find? condition = some (.bool holds))
    (taken : holds = true → Runs judgement machine body locals store middle gives)
    (skipped : holds = false → middle locals store)
    (others : ∀ locals store, middle locals store →
      Runs judgement machine rest locals store ends gives) :
    Runs judgement machine (Statement.whenTrue condition body :: rest) locals store ends gives :=
  Runs.branch middle (Machine.read_name known) taken (fun no => .nil (skipped no)) others

/-- A loop runs its rounds, and then what comes after it. -/
theorem Runs.ofLoops {statement : Statement} {frame : Frame}
    {middle : Table Value → Store → Prop}
    (entered : ∀ rest frames calls journal,
      State.execute statement rest locals frames (machine.moved store calls journal) =
        .more ⟨.run [], locals, frame :: .block rest :: frames, machine.moved store calls journal⟩)
    (loops : Loops judgement machine frame locals store middle gives)
    (others : ∀ locals store, middle locals store →
      Runs judgement machine rest locals store ends gives) :
    Runs judgement machine (statement :: rest) locals store ends gives := by
  intro later frames calls journal admitted
  refine judgement.step ?_
  rw [List.cons_append, State.step, entered]
  refine judgement.more (judgement.bind (loops (rest ++ later) frames calls journal admitted) ?_)
  rintro _ (reached | given | excused)
  · exact others _ _ reached later frames calls _ admitted
  · exact judgement.done (.gives given)
  · exact judgement.done (.fails excused)

theorem Runs.forEach {targets : List Symbol} {iterable : Symbol} {body : List Statement}
    {place : Nat} {items : Array Value} {middle : Table Value → Store → Prop}
    (known : locals.find? iterable = some (.list place))
    (held : store.cell? place = some (.list items))
    (loops : Loops judgement machine (.each targets items.toList body) locals store middle gives)
    (others : ∀ locals store, middle locals store →
      Runs judgement machine rest locals store ends gives) :
    Runs judgement machine (.forEach targets iterable body :: rest) locals store ends gives := by
  refine Runs.ofLoops ?_ loops others
  intro later frames calls journal
  have found : (machine.moved store calls journal).lookup locals iterable = .ok (.list place) := by
    simp only [Machine.lookup, known]
  have there : (machine.moved store calls journal).store.list? place = some items :=
    store.list?_of_cell? held
  simp only [State.execute, found, Except.bind, Value.toList, there, Option.getD_some]

theorem Runs.loop {condition : Symbol} {body : List Statement}
    {middle : Table Value → Store → Prop}
    (loops : Loops judgement machine (.loop condition body) locals store middle gives)
    (others : ∀ locals store, middle locals store →
      Runs judgement machine rest locals store ends gives) :
    Runs judgement machine (.loop condition body :: rest) locals store ends gives :=
  Runs.ofLoops (fun _ _ _ _ => rfl) loops others

theorem Runs.forRange {target : Symbol} {start stop : Operand} {first last : Int64}
    {body : List Statement} {middle : Table Value → Store → Prop}
    (one : machine.read locals start = .ok (.int first))
    (two : machine.read locals stop = .ok (.int last))
    (loops : Loops judgement machine (.range target first last body) locals store middle gives)
    (others : ∀ locals store, middle locals store →
      Runs judgement machine rest locals store ends gives) :
    Runs judgement machine (.forRange target start stop body :: rest) locals store ends gives := by
  refine Runs.ofLoops ?_ loops others
  intro later frames calls journal
  have before : (machine.moved store calls journal).read locals start = .ok (.int first) := one
  have after : (machine.moved store calls journal).read locals stop = .ok (.int last) := two
  simp only [State.execute, before, after, bind, Except.bind, Value.toInt]

/-- A loop that has no further round ends. -/
theorem Loops.ofDone {frame : Frame}
    (resumed : ∀ frames calls journal,
      State.resume locals frame frames (machine.moved store calls journal) =
        .more ⟨.run [], locals, frames, machine.moved store calls journal⟩)
    (reached : ends locals store) :
    Loops judgement machine frame locals store ends gives := by
  intro rest frames calls journal admitted
  refine judgement.step ?_
  rw [State.step, resumed]
  refine judgement.more (judgement.step ?_)
  exact judgement.more (judgement.done (.ends reached))

/-- A loop runs a round, and then the coming rounds. -/
theorem Loops.ofRound {frame next : Frame} {bound : Table Value} {body : List Statement}
    {middle : Table Value → Store → Prop}
    (resumed : ∀ frames calls journal,
      State.resume locals frame frames (machine.moved store calls journal) =
        .more ⟨.run body, bound, next :: frames, machine.moved store calls journal⟩)
    (suspended : next.isCall = false)
    (round : Runs judgement machine body bound store middle gives)
    (others : ∀ locals store, middle locals store →
      Loops judgement machine next locals store ends gives) :
    Loops judgement machine frame locals store ends gives := by
  intro rest frames calls journal admitted
  refine judgement.step ?_
  rw [State.step, resumed]
  refine judgement.more (round.inside admitted ?_ ?_ ?_)
  · intro after changed noted reached
    exact others after changed reached rest frames calls noted admitted
  · exact fun _ _ _ _ given => holds_give suspended (holds_give rfl (judgement.done (.gives given)))
  · exact fun _ _ _ _ excused =>
      holds_fail suspended (holds_fail rfl (judgement.done (.fails excused)))

theorem Loops.weaken {frame : Frame} {fewer : Table Value → Store → Prop}
    {less : Value → Store → Prop} (loops : Loops judgement machine frame locals store fewer less)
    (ending : ∀ locals store, fewer locals store → ends locals store)
    (giving : ∀ value store, less value store → gives value store) :
    Loops judgement machine frame locals store ends gives := by
  intro rest frames calls journal admitted
  refine judgement.bind (loops rest frames calls journal admitted) ?_
  rintro _ (reached | given | excused)
  · exact judgement.done (.ends (ending _ _ reached))
  · exact judgement.done (.gives (giving _ _ given))
  · exact judgement.done (.fails excused)

theorem Loops.eachNil {targets : List Symbol} {body : List Statement}
    (reached : ends locals store) :
    Loops judgement machine (.each targets [] body) locals store ends gives :=
  Loops.ofDone (fun _ _ _ => rfl) reached

theorem Loops.eachCons {targets : List Symbol} {item : Value} {items : List Value}
    {body : List Statement} {bound : Table Value} {middle : Table Value → Store → Prop}
    (taken : Machine.bindTargets locals targets item = .ok bound)
    (round : Runs judgement machine body bound store middle gives)
    (others : ∀ locals store, middle locals store →
      Loops judgement machine (.each targets items body) locals store ends gives) :
    Loops judgement machine (.each targets (item :: items) body) locals store ends gives := by
  refine Loops.ofRound ?_ rfl round others
  intro frames calls journal
  simp only [State.resume, taken]

theorem Loops.loopFalse {condition : Symbol} {body : List Statement}
    (known : locals.find? condition = some (.bool false)) (reached : ends locals store) :
    Loops judgement machine (.loop condition body) locals store ends gives := by
  refine Loops.ofDone ?_ reached
  intro frames calls journal
  have found : (machine.moved store calls journal).lookup locals condition = .ok (.bool false) := by
    simp only [Machine.lookup, known]
  simp only [State.resume, found, Except.bind, Value.toBool]

theorem Loops.loopTrue {condition : Symbol} {body : List Statement}
    {middle : Table Value → Store → Prop} (known : locals.find? condition = some (.bool true))
    (round : Runs judgement machine body locals store middle gives)
    (others : ∀ locals store, middle locals store →
      Loops judgement machine (.loop condition body) locals store ends gives) :
    Loops judgement machine (.loop condition body) locals store ends gives := by
  refine Loops.ofRound ?_ rfl round others
  intro frames calls journal
  have found : (machine.moved store calls journal).lookup locals condition = .ok (.bool true) := by
    simp only [Machine.lookup, known]
  simp only [State.resume, found, Except.bind, Value.toBool]

/-- The rounds of a loop over positions keep an invariant that counts them. -/
theorem Loops.rounds {target : Symbol} {body : List Statement} {count : Nat}
    {invariant : Nat → Table Value → Store → Prop} (small : count ≤ mostCount)
    (round : ∀ index < count, ∀ locals store, invariant index locals store →
      Runs judgement machine body (locals.insert target (.int (wordOfCount index))) store
        (invariant (index + 1)) gives) :
    ∀ left index, index + left = count → ∀ locals store, invariant index locals store →
      Loops judgement machine (.range target (wordOfCount index) (wordOfCount count) body) locals
        store (invariant count) gives := by
  intro left
  induction left with
  | zero =>
    rintro index rfl locals store holds
    refine Loops.ofDone ?_ holds
    intro frames calls journal
    have same : ¬ wordOfCount (index + 0) < wordOfCount (index + 0) := by
      rw [wordOfCount_lt]
      exact Nat.lt_irrefl _
    simp only [State.resume, Nat.add_zero] at same ⊢
    rw [if_neg same]
  | succ left ih =>
    intro index sum locals store holds
    have below : index < count := by omega
    have less : wordOfCount index < wordOfCount count := by
      rw [wordOfCount_lt, capped_eq (by omega), capped_eq small]
      exact below
    refine Loops.ofRound ?_ rfl (round index below locals store holds)
      (ih (index + 1) (by omega))
    intro frames calls journal
    simp only [State.resume, if_pos less, wordOfCount_succ (Nat.lt_of_lt_of_le below small)]

end Control

section Calling

variable {judgement : Judgement} {machine : Machine} {rest : List Statement}
  {locals : Table Value} {store : Store} {ends : Table Value → Store → Prop}
  {gives : Value → Store → Prop}

theorem Calls.weaken {function : Symbol} {arguments : List Value} {less : Value → Store → Prop}
    (called : Calls judgement machine function arguments store less)
    (giving : ∀ value store, less value store → gives value store) :
    Calls judgement machine function arguments store gives := by
  intro target later outer frames calls journal admitted
  refine judgement.bindNext (called target later outer frames calls journal admitted) ?_
  rintro _ (given | excused)
  · exact judgement.done (.gives (giving _ _ given))
  · exact judgement.done (.fails excused)

theorem Runs.assignCall {target function : Symbol} {arguments : List Operand}
    {values : List Value} {middle : Value → Store → Prop}
    (known : machine.readAll locals arguments = .ok values)
    (called : Calls judgement machine function values store middle)
    (others : ∀ value store, middle value store →
      Runs judgement machine rest (locals.insert target value) store ends gives) :
    Runs judgement machine (Statement.assignCall target function arguments :: rest) locals store
      ends gives := by
  intro later frames calls journal admitted
  refine judgement.step ?_
  have same : (machine.moved store calls journal).readAll locals arguments = .ok values := known
  simp only [Statement.assignCall, List.cons_append, State.step, State.execute, State.evaluate,
    same]
  refine judgement.bindNext
    (called (some target) (rest ++ later) locals frames calls journal admitted) ?_
  rintro _ (given | excused)
  · exact others _ _ given later frames calls _ admitted
  · exact judgement.done (.fails excused)

/-- What a call leads to first: the body, with the rest of the calling block suspended, or a
failure if the call is refused. -/
theorem enter_eq {function : Symbol} {definition : Function} {arguments : List Value}
    (found : machine.functions.find? function = some definition)
    (fits : definition.parameters.length = arguments.length) (target : Option Symbol)
    (later : List Statement) (outer : Table Value) (frames : List Frame) (calls : CallStack)
    (journal : Journal) :
    State.enter function arguments target later outer frames (machine.moved store calls journal) =
      match calls.push function with
      | .ok pushed => .more ⟨.run definition.body, .ofList (definition.parameters.zip arguments),
          .call target outer later :: frames,
          machine.moved store pushed (journal.record function)⟩
      | .error cause =>
        .more ⟨.fail cause, outer, frames, machine.moved store calls (journal.record function)⟩ := by
  have same : (machine.moved store calls journal).functions.find? function = some definition :=
    found
  have under : (machine.moved store calls journal).calls = calls := rfl
  simp only [State.enter, same, Machine.start, fits, under, ne_eq, not_true_eq_false, if_false]
  cases calls.push function <;> rfl

/-- What a body does goes to the block that calls. -/
theorem Runs.giveCall {definition : Function} {arguments : List Value}
    (body : Runs judgement machine definition.body
      (.ofList (definition.parameters.zip arguments)) store (fun _ _ => False) gives)
    {target : Option Symbol} {later : List Statement} {outer : Table Value} {frames : List Frame}
    {pushed calls : CallStack} {journal : Journal} (admitted : judgement.admits pushed)
    (popped : pushed.pop = calls) :
    judgement.holds ⟨.run definition.body, .ofList (definition.parameters.zip arguments),
        .call target outer later :: frames, machine.moved store pushed journal⟩
      (Settles judgement.toPolicy machine target later outer frames calls gives) := by
  subst popped
  refine body.inside admitted (fun _ _ _ none => none.elim) ?_ ?_
  · intro value after changed noted given
    exact judgement.step (judgement.more (judgement.done (.gives given)))
  · intro cause after changed noted excused
    exact judgement.step (judgement.more (judgement.done (.fails excused)))

/-- A call is as the body of its function. -/
theorem Performs.calls {function : Symbol} {arguments : List Value}
    (performs : Performs judgement machine function arguments store gives) :
    Calls judgement machine function arguments store gives := by
  intro target later outer frames calls journal admitted
  obtain ⟨definition, found, fits, body⟩ := performs
  rw [enter_eq found fits]
  match started : calls.push function with
  | .ok pushed =>
    exact judgement.more
      (body.giveCall (judgement.pushed admitted started) (CallStack.pop_push started))
  | .error cause =>
    exact judgement.more (judgement.done (.fails (judgement.refused admitted started)))

/-- Judgements by number, in which a call is as its body in the lower ones. -/
def Descends (family : Nat → Judgement) : Prop :=
  ∀ {machine : Machine} {function : Symbol} {definition : Function} {arguments : List Value}
    {store : Store} {gives : Value → Store → Prop} {number : Nat},
    machine.functions.find? function = some definition →
    definition.parameters.length = arguments.length →
    (∀ lower < number, Runs (family lower) machine definition.body
      (.ofList (definition.parameters.zip arguments)) store (fun _ _ => False) gives) →
    Calls (family number) machine function arguments store gives

/-- Up to a number of steps, a call is as its body up to fewer steps. -/
theorem descends_upTo (policy : Policy) (tolerant : Prop) :
    Descends (.upTo policy tolerant) := by
  intro machine function definition arguments store gives count found fits body target later outer
    frames calls journal admitted
  rw [enter_eq found fits]
  cases count with
  | zero => trivial
  | succ count =>
    have lower := body count (Nat.lt_succ_self count)
    match started : calls.push function with
    | .ok pushed =>
      exact lower.giveCall (policy.pushed admitted started) (CallStack.pop_push started)
    | .error cause =>
      exact (Judgement.upTo policy tolerant count).done (.fails (policy.refused admitted started))

end Calling

end Reduct
