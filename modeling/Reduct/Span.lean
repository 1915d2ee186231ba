/-!
# Spans of source text

A span is a range of byte offsets of a source text, the end excluded. Spans say where a form,
an expression or a fault stands.
-/

namespace Reduct

/-- A range of byte offsets, from `start` up to and without `stop`. -/
structure Span where
  /-- Offset of the first byte. -/
  start : Nat
  /-- Offset after the last byte. -/
  stop : Nat
deriving DecidableEq, Inhabited

namespace Span

/-- The number of bytes covered. -/
def length (span : Span) : Nat := span.stop - span.start

/-- Whether no byte is covered. -/
def isEmpty (span : Span) : Bool := span.start == span.stop

/-- The least span that covers both. -/
def merge (left right : Span) : Span :=
  ⟨min left.start right.start, max left.stop right.stop⟩

/-- The span of a whole source of the given number of bytes. -/
def whole (bytes : Nat) : Span := ⟨0, bytes⟩

/-- The empty span at an offset. -/
def point (offset : Nat) : Span := ⟨offset, offset⟩

/-- A span is written as its two offsets. -/
def text (span : Span) : String := toString span.start ++ ".." ++ toString span.stop

/-- The merged span starts no later than either part and stops no earlier. -/
theorem merge_covers (left right : Span) :
    (left.merge right).start ≤ left.start ∧ (left.merge right).start ≤ right.start ∧
      left.stop ≤ (left.merge right).stop ∧ right.stop ≤ (left.merge right).stop := by
  simp only [merge]
  omega

end Span

end Reduct
