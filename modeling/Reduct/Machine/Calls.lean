import Reduct.Machine.Value

/-!
# Calls under way and calls made

The call stack holds the functions whose calls are under way, innermost first, and refuses a
call beyond its limit. The call counts record how often each function was entered.
-/

namespace Reduct

/-- The calls under way. -/
structure CallStack where
  /-- The called functions, innermost first. -/
  frames : List Symbol
  /-- The number of calls under way. -/
  depth : Nat
  /-- The most calls that may be under way at once, if there is a limit. -/
  limit : Option Nat
  depth_eq : depth = frames.length

namespace CallStack

/-- No call under way. -/
def empty (limit : Option Nat) : CallStack := ⟨[], 0, limit, rfl⟩

instance : Inhabited CallStack := ⟨empty none⟩

/-- Start a call. -/
def push (stack : CallStack) (function : Symbol) : Except EvalError CallStack :=
  match stack with
  | ⟨frames, depth, some limit, depth_eq⟩ =>
    if depth < limit then
      .ok ⟨function :: frames, depth + 1, some limit, by rw [depth_eq, List.length_cons]⟩
    else .error (.stackOverflow limit)
  | ⟨frames, depth, none, depth_eq⟩ =>
    .ok ⟨function :: frames, depth + 1, none, by rw [depth_eq, List.length_cons]⟩

/-- End the innermost call; `none` if no call is under way. -/
def pop? (stack : CallStack) : Option CallStack :=
  match stack with
  | ⟨[], _, _, _⟩ => none
  | ⟨_ :: rest, depth, limit, depth_eq⟩ =>
    some ⟨rest, depth - 1, limit, by rw [depth_eq, List.length_cons, Nat.add_sub_cancel]⟩

/-- End the innermost call, if any. -/
def pop (stack : CallStack) : CallStack := (pop? stack).getD stack

/-- The words for ending a call when none is under way. -/
def underflowMessage : String := "CallStack::pop on empty stack"

/-- The called functions, innermost last. -/
def toList (stack : CallStack) : List Symbol := stack.frames.reverse

/-- A call that starts is the new innermost call. -/
theorem frames_push {stack pushed : CallStack} {function : Symbol}
    (started : stack.push function = .ok pushed) : pushed.frames = function :: stack.frames := by
  unfold push at started
  split at started
  · split at started
    · cases started
      rfl
    · cases started
  · cases started
    rfl

/-- Ending a call that has just started restores the calls under way. -/
theorem pop_push {stack pushed : CallStack} {function : Symbol}
    (started : stack.push function = .ok pushed) : pushed.pop = stack := by
  unfold push at started
  split at started
  · split at started
    · cases started
      rfl
    · cases started
  · cases started
    rfl

end CallStack

/-- How often each function was entered. -/
structure CallCounts where
  calls : Table Nat

namespace CallCounts

/-- No function entered yet. -/
def empty : CallCounts := ⟨.empty⟩

instance : Inhabited CallCounts := ⟨empty⟩

/-- The number of times a function was entered. -/
def count (counts : CallCounts) (function : Symbol) : Nat := (counts.calls.find? function).getD 0

/-- Count one more call of a function. -/
def record (counts : CallCounts) (function : Symbol) : CallCounts :=
  ⟨counts.calls.insert function (counts.count function + 1)⟩

/-- The number of calls of the functions whose names start with a text. -/
def countStarting (counts : CallCounts) (start : String) : Nat :=
  (counts.calls.entries.filter fun entry => Text.startsWith entry.1 start).foldl
    (fun sum entry => sum + entry.2) 0

/-- The number of calls of all functions. -/
def total (counts : CallCounts) : Nat := counts.calls.values.foldl (· + ·) 0

/-- One more call is counted for its own function only. -/
theorem count_record (counts : CallCounts) (function other : Symbol) :
    (counts.record function).count other =
      if function = other then counts.count function + 1 else counts.count other := by
  unfold record count
  rw [Table.find?_insert]
  by_cases same : function = other <;> simp [same]

end CallCounts

end Reduct
