/-!
# Hole counts

How many holes the terms of a pattern have, counted as none, one or many. A range gives the
least and the greatest count.
-/

namespace Reduct

/-- A number of holes, with two and more taken together. -/
inductive HoleCount where
  | zero
  | one
  | many
deriving DecidableEq

namespace HoleCount

/-- The place of a count in the order none, one, many. -/
def rank : HoleCount → Nat
  | zero => 0
  | one => 1
  | many => 2

/-- The lesser of two counts. -/
def least (left right : HoleCount) : HoleCount := if right.rank < left.rank then right else left

/-- The greater of two counts. -/
def greatest (left right : HoleCount) : HoleCount := if left.rank < right.rank then right else left

/-- The count of two terms side by side. -/
def add : HoleCount → HoleCount → HoleCount
  | zero, count => count
  | count, zero => count
  | _, _ => many

/-- The count that a number of holes falls under. -/
def ofHoles : Nat → HoleCount
  | 0 => zero
  | 1 => one
  | _ => many

/-- The written form of a count. -/
def text : HoleCount → String
  | zero => "0"
  | one => "1"
  | many => "many"

/-- Adding counts is counting sums. -/
theorem ofHoles_add (left right : Nat) :
    ofHoles (left + right) = (ofHoles left).add (ofHoles right) := by
  match left, right with
  | 0, count => simp [ofHoles, add]
  | 1, 0 => rfl
  | 1, 1 => rfl
  | 1, count + 2 => simp [ofHoles, add, Nat.add_comm 1]
  | count + 2, 0 => rfl
  | count + 2, 1 => simp [ofHoles, add]
  | count + 2, other + 2 => simp [ofHoles, add, Nat.add_add_add_comm]

end HoleCount

/-- The least and the greatest number of holes. -/
structure HoleRange where
  least : HoleCount
  greatest : HoleCount
deriving DecidableEq

namespace HoleRange

/-- The range of one count. -/
def exactly (count : HoleCount) : HoleRange := ⟨count, count⟩

/-- No hole. -/
def zero : HoleRange := exactly .zero

/-- One hole. -/
def one : HoleRange := exactly .one

/-- The least range that contains both. -/
def hull (left right : HoleRange) : HoleRange :=
  ⟨left.least.least right.least, left.greatest.greatest right.greatest⟩

/-- The holes of two terms side by side. -/
def sum (left right : HoleRange) : HoleRange :=
  ⟨left.least.add right.least, left.greatest.add right.greatest⟩

/-- The holes of any number of repetitions. -/
def repeated (range : HoleRange) : HoleRange :=
  ⟨.zero, if range.greatest = .zero then .zero else .many⟩

/-- The written form of a range. -/
def text (range : HoleRange) : String :=
  "(" ++ range.least.text ++ ", " ++ range.greatest.text ++ ")"

end HoleRange

end Reduct
