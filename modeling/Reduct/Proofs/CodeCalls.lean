import Reduct.Compile.Draft

/-!
# The functions that code calls

A call names a function of the module or of the host. The names in a block are those of its
statements, so what a generator puts together calls what its parts call.
-/

namespace Reduct

/-- The function that an expression calls. -/
def Expression.calls : Expression → List Symbol
  | .call function _ => [function]
  | _ => []

namespace Statement

mutual

/-- The functions that a statement calls, in the order of the calls. -/
def calls : Statement → List Symbol
  | .define _ _ body => callsAll body
  | .assign _ value => value.calls
  | .branch _ onTrue onFalse => callsAll onTrue ++ callsAll onFalse
  | .forEach _ _ body => callsAll body
  | .forRange _ _ _ body => callsAll body
  | .loop _ body => callsAll body
  | .effect value => value.calls
  | _ => []

/-- The functions that a block calls. -/
def callsAll : List Statement → List Symbol
  | [] => []
  | statement :: rest => statement.calls ++ callsAll rest

end

@[simp]
theorem callsAll_nil : callsAll [] = [] := rfl

@[simp]
theorem callsAll_cons (statement : Statement) (rest : List Statement) :
    callsAll (statement :: rest) = statement.calls ++ callsAll rest := rfl

@[simp]
theorem callsAll_append (code rest : List Statement) :
    callsAll (code ++ rest) = callsAll code ++ callsAll rest := by
  induction code with
  | nil => rfl
  | cons statement code ih =>
    rw [List.cons_append, callsAll_cons, callsAll_cons, ih, List.append_assoc]

@[simp]
theorem calls_assign (target : Symbol) (value : Expression) :
    calls (.assign target value) = value.calls := rfl

@[simp]
theorem calls_operand (value : Operand) : (Expression.operand value).calls = [] := rfl

@[simp]
theorem calls_field (base : Symbol) (index : Nat) : (Expression.field base index).calls = [] := rfl

@[simp]
theorem calls_branch (condition : Operand) (onTrue onFalse : List Statement) :
    calls (.branch condition onTrue onFalse) = callsAll onTrue ++ callsAll onFalse := rfl

@[simp]
theorem calls_forEach (targets : List Symbol) (iterable : Symbol) (body : List Statement) :
    calls (.forEach targets iterable body) = callsAll body := rfl

@[simp]
theorem calls_loop (condition : Symbol) (body : List Statement) :
    calls (.loop condition body) = callsAll body := rfl

@[simp]
theorem calls_returns (value : Operand) : calls (.returns value) = [] := rfl

@[simp]
theorem calls_assignPrimitive (target : Symbol) (function : Primitive)
    (arguments : List Operand) : calls (assignPrimitive target function arguments) = [] := rfl

@[simp]
theorem calls_assignCall (target function : Symbol) (arguments : List Operand) :
    calls (assignCall target function arguments) = [function] := rfl

@[simp]
theorem calls_assignBinary (target : Symbol) (op : BinaryOp) (left right : Operand) :
    calls (assignBinary target op left right) = [] := rfl

@[simp]
theorem calls_perform (function : Primitive) (arguments : List Operand) :
    calls (perform function arguments) = [] := rfl

@[simp]
theorem calls_whenTrue (condition : Symbol) (body : List Statement) :
    calls (whenTrue condition body) = callsAll body :=
  (calls_branch _ _ _).trans (List.append_nil _)

/-- Calls of primitives are no calls of functions. -/
@[simp]
theorem callsAll_performs {α : Type} (function : Primitive) (arguments : α → List Operand)
    (items : List α) :
    callsAll (items.map fun item => perform function (arguments item)) = [] := by
  induction items with
  | nil => rfl
  | cons item items ih => rw [List.map_cons, callsAll_cons, calls_perform, ih, List.append_nil]

end Statement

end Reduct
