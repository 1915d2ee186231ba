import Reduct.Term

/-!
# Paths into terms

A path lists child positions from a term down to one of its subterms. Here are the subterm at a
path, the term with that subterm replaced, the listing of all subterms in pre-order, the path of
the first hole, and plugging, which replaces the first hole.
-/

namespace Reduct

/-- Positions of children from a root down; the empty path is the root itself. -/
abbrev Path := List Nat

namespace Term

/-- The subterm at a path. -/
def subterm? : Term → Path → Option Term
  | term, [] => some term
  | .sequence items, index :: rest =>
    match items[index]? with
    | some item => item.subterm? rest
    | none => none
  | _, _ :: _ => none

theorem subterm?_nil (term : Term) : term.subterm? [] = some term := by
  cases term <;> rfl

theorem subterm?_sequence (items : List Term) (index : Nat) (rest : Path) :
    (sequence items).subterm? (index :: rest) = items[index]?.bind (subterm? · rest) := by
  change (match items[index]? with
    | some item => item.subterm? rest
    | none => none) = _
  cases items[index]? <;> rfl

/-- The term with the subterm at a path replaced. -/
def replace? : Term → Path → Term → Option Term
  | _, [], replacement => some replacement
  | .sequence items, index :: rest, replacement =>
    match items[index]? with
    | some item =>
      (item.replace? rest replacement).map fun child => .sequence (items.set index child)
    | none => none
  | _, _ :: _, _ => none

theorem replace?_nil (term replacement : Term) :
    term.replace? [] replacement = some replacement := by
  cases term <;> rfl

theorem replace?_sequence (items : List Term) (index : Nat) (rest : Path) (replacement : Term) :
    (sequence items).replace? (index :: rest) replacement =
      items[index]?.bind fun item =>
        (item.replace? rest replacement).map fun child => sequence (items.set index child) := by
  change (match items[index]? with
    | some item =>
      (item.replace? rest replacement).map fun child => sequence (items.set index child)
    | none => none) = _
  cases items[index]? <;> rfl

mutual

/-- Every subterm with its path, the term before its children and these in order. -/
def subterms : Term → List (Path × Term)
  | .sequence items => ([], .sequence items) :: subtermsFrom 0 items
  | term => [([], term)]

/-- The subterms of consecutive children, the first at the given position. -/
def subtermsFrom (index : Nat) : List Term → List (Path × Term)
  | [] => []
  | item :: rest =>
    (item.subterms.map fun found => (index :: found.1, found.2)) ++ subtermsFrom (index + 1) rest

end

theorem subterms_sequence (items : List Term) :
    (sequence items).subterms = ([], .sequence items) :: subtermsFrom 0 items := rfl

theorem subtermsFrom_cons (index : Nat) (item : Term) (rest : List Term) :
    subtermsFrom index (item :: rest) =
      (item.subterms.map fun found => (index :: found.1, found.2)) ++
        subtermsFrom (index + 1) rest := rfl

mutual

/-- The path of the first hole in pre-order. -/
def findHole : Term → Option Path
  | .hole => some []
  | .sequence items => findHoleFrom 0 items
  | .atom _ => none

/-- The path of the first hole of consecutive children, the first at the given position. -/
def findHoleFrom (index : Nat) : List Term → Option Path
  | [] => none
  | item :: rest =>
    match item.findHole with
    | some path => some (index :: path)
    | none => findHoleFrom (index + 1) rest

end

theorem findHole_sequence (items : List Term) :
    (sequence items).findHole = findHoleFrom 0 items := rfl

theorem findHoleFrom_cons (index : Nat) (item : Term) (rest : List Term) :
    findHoleFrom index (item :: rest) =
      match item.findHole with
      | some path => some (index :: path)
      | none => findHoleFrom (index + 1) rest := rfl

mutual

/-- The number of holes of a term. -/
def holes : Term → Nat
  | .hole => 1
  | .sequence items => holesAll items
  | .atom _ => 0

/-- The number of holes of a list of terms. -/
def holesAll : List Term → Nat
  | [] => 0
  | item :: rest => item.holes + holesAll rest

end

theorem holes_sequence (items : List Term) : (sequence items).holes = holesAll items := rfl

theorem holesAll_nil : holesAll [] = 0 := rfl

theorem holesAll_cons (item : Term) (rest : List Term) :
    holesAll (item :: rest) = item.holes + holesAll rest := rfl

/-- The term with its first hole replaced. -/
def plug? (context contents : Term) : Option Term :=
  context.findHole.bind fun path => context.replace? path contents

end Term

/-- A path as a sequence of integers. -/
def Path.toTerm (path : Path) : Term :=
  .sequence (path.map fun index => .integer (wordOfCount index))

end Reduct
