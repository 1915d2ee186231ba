import Mathlib.Algebra.GroupWithZero.Nat
import Mathlib.Data.List.Basic
import Reduct.Compile.Draft

/-!
# Where code sets variables

The places of code that set a variable are counted, those outside of all `while` loops apart from
those inside of one: a loop may update what the code before it has set, and nothing else in
compiled code updates a variable. Both counts add up along a block, so what a block sets can be
compared with the names that its compilation has drawn.
-/

namespace Reduct

/-- One for a name, and zero for every other. -/
def tally (wanted name : Symbol) : Nat := if name = wanted then 1 else 0

/-- The count of a name in a list is the sum of its tallies. -/
theorem count_cons_tally (wanted name : Symbol) (rest : List Symbol) :
    (name :: rest).count wanted = tally wanted name + rest.count wanted := by
  rw [List.count_cons, Nat.add_comm, tally]
  simp only [beq_iff_eq]

namespace Statement

mutual

/-- The number of places of a statement that set a variable: inside of a `while` loop, or outside
of all. -/
def places (wanted : Symbol) (looped : Bool) : Statement → Nat
  | .assign target _ => if looped then 0 else tally wanted target
  | .branch _ onTrue onFalse => placesAll wanted looped onTrue + placesAll wanted looped onFalse
  | .forEach targets _ body =>
    (if looped then 0 else targets.count wanted) + placesAll wanted looped body
  | .forRange target _ _ body =>
    (if looped then 0 else tally wanted target) + placesAll wanted looped body
  | .loop _ body => if looped then placesAll wanted false body + placesAll wanted true body else 0
  | _ => 0

/-- The number of places of a block that set a variable. -/
def placesAll (wanted : Symbol) (looped : Bool) : List Statement → Nat
  | [] => 0
  | statement :: rest => statement.places wanted looped + placesAll wanted looped rest

end

section Counts

variable {wanted : Symbol} {looped : Bool}

@[simp]
theorem placesAll_nil : placesAll wanted looped [] = 0 := rfl

@[simp]
theorem placesAll_cons (statement : Statement) (rest : List Statement) :
    placesAll wanted looped (statement :: rest) =
      statement.places wanted looped + placesAll wanted looped rest := rfl

@[simp]
theorem placesAll_append (code rest : List Statement) :
    placesAll wanted looped (code ++ rest) =
      placesAll wanted looped code + placesAll wanted looped rest := by
  induction code with
  | nil => rw [List.nil_append, placesAll_nil, Nat.zero_add]
  | cons statement code ih =>
    rw [List.cons_append, placesAll_cons, placesAll_cons, ih, Nat.add_assoc]

@[simp]
theorem places_assign (target : Symbol) (value : Expression) :
    places wanted looped (.assign target value) = if looped then 0 else tally wanted target := rfl

@[simp]
theorem places_branch (condition : Operand) (onTrue onFalse : List Statement) :
    places wanted looped (.branch condition onTrue onFalse) =
      placesAll wanted looped onTrue + placesAll wanted looped onFalse := rfl

@[simp]
theorem places_forEach (targets : List Symbol) (iterable : Symbol) (body : List Statement) :
    places wanted looped (.forEach targets iterable body) =
      (if looped then 0 else targets.count wanted) + placesAll wanted looped body := rfl

@[simp]
theorem places_forRange (target : Symbol) (start stop : Operand) (body : List Statement) :
    places wanted looped (.forRange target start stop body) =
      (if looped then 0 else tally wanted target) + placesAll wanted looped body := rfl

@[simp]
theorem places_loop (condition : Symbol) (body : List Statement) :
    places wanted looped (.loop condition body) =
      if looped then placesAll wanted false body + placesAll wanted true body else 0 := rfl

@[simp]
theorem places_leave : places wanted looped .leave = 0 := rfl

@[simp]
theorem places_returns (value : Operand) : places wanted looped (.returns value) = 0 := rfl

@[simp]
theorem places_raise (value : Operand) : places wanted looped (.raise value) = 0 := rfl

@[simp]
theorem places_print (value : Operand) : places wanted looped (.print value) = 0 := rfl

@[simp]
theorem places_effect (value : Expression) : places wanted looped (.effect value) = 0 := rfl

@[simp]
theorem places_assignPrimitive (target : Symbol) (function : Primitive)
    (arguments : List Operand) :
    places wanted looped (assignPrimitive target function arguments) =
      if looped then 0 else tally wanted target := places_assign _ _

@[simp]
theorem places_assignCall (target function : Symbol) (arguments : List Operand) :
    places wanted looped (assignCall target function arguments) =
      if looped then 0 else tally wanted target := places_assign _ _

@[simp]
theorem places_assignBinary (target : Symbol) (op : BinaryOp) (left right : Operand) :
    places wanted looped (assignBinary target op left right) =
      if looped then 0 else tally wanted target := places_assign _ _

@[simp]
theorem places_perform (function : Primitive) (arguments : List Operand) :
    places wanted looped (perform function arguments) = 0 := places_effect _

@[simp]
theorem places_whenTrue (condition : Symbol) (body : List Statement) :
    places wanted looped (whenTrue condition body) = placesAll wanted looped body := by
  rw [whenTrue, places_branch, placesAll_nil, Nat.add_zero]

@[simp]
theorem places_whenFalse (condition : Symbol) (body : List Statement) :
    places wanted looped (whenFalse condition body) = placesAll wanted looped body := by
  rw [whenFalse, places_branch, placesAll_nil, Nat.zero_add]

/-- Calls for their effect set no variable. -/
@[simp]
theorem placesAll_performs {α : Type} (function : Primitive) (arguments : α → List Operand)
    (items : List α) :
    placesAll wanted looped (items.map fun item => perform function (arguments item)) = 0 := by
  induction items with
  | nil => exact placesAll_nil
  | cons item items ih => rw [List.map_cons, placesAll_cons, places_perform, ih]

end Counts

/-- The number of places of a block that set a variable, where the updates in `while` loops do not
count beside the places before them. -/
def introductions (code : List Statement) (wanted : Symbol) : Nat :=
  max (placesAll wanted false code) (placesAll wanted true code)

/-- The number of places of the body of a function that set a variable. -/
def introduced (wanted : Symbol) : Statement → Nat
  | .define _ _ body => introductions body wanted
  | _ => 0

theorem introductions_append_le (wanted : Symbol) (code rest : List Statement) :
    introductions (code ++ rest) wanted ≤
      introductions code wanted + introductions rest wanted := by
  simp only [introductions, placesAll_append]
  omega

theorem introductions_le {wanted : Symbol} {code : List Statement} {most : Nat}
    (each : ∀ looped, placesAll wanted looped code ≤ most) : introductions code wanted ≤ most :=
  Nat.max_le.mpr ⟨each false, each true⟩

theorem placesAll_le (wanted : Symbol) (looped : Bool) (code : List Statement) :
    placesAll wanted looped code ≤ introductions code wanted := by
  cases looped with
  | false => exact Nat.le_max_left _ _
  | true => exact Nat.le_max_right _ _

/-- What blocks set together is no more than what each of them sets. -/
theorem placesAll_flatten_le (wanted : Symbol) (looped : Bool) (blocks : List (List Statement)) :
    placesAll wanted looped blocks.flatten ≤ (blocks.map (introductions · wanted)).sum := by
  induction blocks with
  | nil => exact Nat.le_of_eq placesAll_nil
  | cons block blocks ih =>
    have first := placesAll_le wanted looped block
    rw [List.flatten_cons, List.map_cons, List.sum_cons, placesAll_append]
    omega

theorem introductions_flatten_le (wanted : Symbol) (blocks : List (List Statement)) :
    introductions blocks.flatten wanted ≤ (blocks.map (introductions · wanted)).sum :=
  introductions_le fun looped => placesAll_flatten_le wanted looped blocks

/-- What statements set together is no more than what each of them sets. -/
theorem placesAll_le_sum (wanted : Symbol) (looped : Bool) (code : List Statement) :
    placesAll wanted looped code ≤ (code.map (introductions [·] wanted)).sum := by
  induction code with
  | nil => exact Nat.le_of_eq placesAll_nil
  | cons statement code ih =>
    have first := placesAll_le wanted looped [statement]
    rw [placesAll_cons, placesAll_nil] at first
    rw [List.map_cons, List.sum_cons, placesAll_cons]
    omega

end Statement

end Reduct
