import Reduct.Proofs.GenerationFaults
import Reduct.Proofs.SlicedForms
import Reduct.Proofs.SlicedPasses

/-!
# How specifications are refused

A specification that is not compiled is refused with a fault of its own, never one of the compiler,
and the fault points into its source. Nothing that reads a specification or prepares its patterns
leaves the range of a list or of a text on the way, and what it takes for granted holds.
-/

namespace Reduct

/-- Reading and preparing take everything by position in range: they give what is read and prepared
by the shape of the data. -/
structure Slicing.StaysInRange : Prop where
  /-- The body of a string literal is between its quotes. -/
  lexemes : ∀ total offset first rest,
    Slicing.lexeme total offset first rest = some (Token.lexeme total offset first rest)
  /-- The parts of a form, its patterns and its templates are there. -/
  forms : ∀ sexp, (Slicing.form sexp).run = some (Form.ofSexp sexp)
  /-- The stem of a symbol ends at a character. -/
  stems : ∀ symbol : Symbol,
    ((partAt? symbol.toList (Token.byteLength (symbol.toList.takeWhile (· ≠ '_')))).map
      fun parts => String.ofList parts.1) = some (Symbol.stem symbol)
  /-- Rules are found at their positions, and a cycle of aliases starts at a rule. -/
  languages : ∀ definition span,
    (Slicing.define definition span).run = some (Language.define definition span)
  /-- The rules of a language keep their positions. -/
  rules : ∀ definition span language, Language.define definition span = .ok language →
    language.rules.map (·.name) = definition.rules.map (·.name)
  /-- The steps before a check are the start of a path. -/
  places : ∀ earlier later test,
    Slicing.checkPlace earlier later test = some (Pattern.checkPlace earlier later test)
  /-- What follows a repetition is behind it. -/
  modes : ∀ closures mentioned items, Slicing.chooseModes closures mentioned items =
    some (Pattern.chooseModes closures mentioned items)
  /-- Checks leave the depths of a pattern as they are. -/
  depths : ∀ language pattern, Slicing.KeepsDepths language pattern

theorem Slicing.staysInRange : Slicing.StaysInRange where
  lexemes := lexeme_eq
  forms := gives_form
  stems := partAt?_stem
  languages := gives_define
  rules _ _ _ := map_name_of_define
  places := checkPlace_eq
  modes := chooseModes_eq
  depths := keepsDepths

namespace Program

/-- The text of a specification is compiled or refused without leaving the range of anything. A
refusal is not a fault of the compiler, it has a primary label, and all of its labels are spans of
the text. -/
theorem refusals_point_into_source {source : String} (sized : source.utf8ByteSize < 2 ^ 32)
    (prints : Bool) :
    Slicing.StaysInRange ∧ ∀ fault, ofSource source prints = .error fault →
      fault.diagnostic.code ≠ .internal ∧
      (∃ label ∈ fault.diagnostic.labels, label.isPrimary = true) ∧
      ∀ label ∈ fault.diagnostic.labels,
        label.span.start ≤ label.span.stop ∧ label.span.stop ≤ source.utf8ByteSize := by
  refine ⟨Slicing.staysInRange, fun fault refused => ?_⟩
  have small : source.utf8ByteSize ≤ mostCount :=
    Nat.le_trans (Nat.le_of_lt sized) (by decide)
  have meets := meets_ofSource small prints
  rw [refused] at meets
  have points : fault.Points source.utf8ByteSize := meets
  exact ⟨points.external, points.primary, fun label among =>
    ⟨(points.within label among).ordered, (points.within label among).bounded⟩⟩

/-- A specification whose second form has a context without a hole. -/
def holeless : String :=
  "(define-language L (e ::= number (e ...))) (redex-match L (in-hole e_1 e_2) 1)"

theorem refusals_point_into_source_holeless :
    holeless.utf8ByteSize < 2 ^ 32 ∧ ∃ fault, ofSource holeless false = .error fault ∧
      fault.diagnostic.code = .contextHoles ∧
      (∃ label ∈ fault.diagnostic.labels, label.isPrimary = true) ∧
      ∀ label ∈ fault.diagnostic.labels,
        label.span.start ≤ label.span.stop ∧ label.span.stop ≤ holeless.utf8ByteSize := by
  have sized : holeless.utf8ByteSize < 2 ^ 32 := by decide
  have tested : (match ofSource holeless false with
      | .error fault => decide (fault.diagnostic.code = .contextHoles)
      | .ok _ => false) = true := by decide +kernel
  match refused : ofSource holeless false with
  | .ok _ =>
    rw [refused] at tested
    cases tested
  | .error fault =>
    rw [refused] at tested
    have found := (refusals_point_into_source sized false).2 fault refused
    exact ⟨sized, fault, rfl, of_decide_eq_true tested, found.2⟩

end Program

end Reduct
