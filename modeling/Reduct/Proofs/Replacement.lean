import Reduct.Proofs.InHoleCode

/-!
# Replacement as a lens

A path that leads to a subterm can be read and written, and the two fit together as they do for a
field of a record: what was written is read back, writing what was read changes nothing, and the
last of two writes counts. Where neither of two paths goes on from the other, writing at one leaves
what is read at the other, and the order of the writes plays no part. Compiled code gives paths as
terms. Such a term is read back as its path while the steps can be counted, so replacing at it is
the same operation, refused exactly where the path leads out of the term.
-/

namespace Reduct

/-- Neither of two paths goes on from the other. -/
structure Path.Apart (one other : Path) : Prop where
  notBefore : ¬ one <+: other
  notAfter : ¬ other <+: one

namespace Path

variable {one other : Path}

theorem Apart.symm (apart : one.Apart other) : other.Apart one :=
  ⟨apart.notAfter, apart.notBefore⟩

theorem not_apart_nil (other : Path) : ¬ Path.Apart [] other :=
  fun apart => apart.notBefore List.nil_prefix

/-- Two paths part at their first step or behind it. -/
theorem apart_cons {first second : Nat} :
    Path.Apart (first :: one) (second :: other) ↔ (first = second → one.Apart other) := by
  constructor
  · rintro apart rfl
    constructor
    · intro before
      exact apart.notBefore (List.cons_prefix_cons.mpr ⟨rfl, before⟩)
    · intro after
      exact apart.notAfter (List.cons_prefix_cons.mpr ⟨rfl, after⟩)
  · intro behind
    constructor
    · intro before
      obtain ⟨same, rest⟩ := List.cons_prefix_cons.mp before
      exact (behind same).notBefore rest
    · intro after
      obtain ⟨same, rest⟩ := List.cons_prefix_cons.mp after
      exact (behind same.symm).notAfter rest

/-- Paths that are apart have a first step each. -/
theorem Apart.exists_cons (apart : one.Apart other) :
    ∃ first above second below, one = first :: above ∧ other = second :: below := by
  cases one with
  | nil => exact absurd apart (not_apart_nil other)
  | cons first above =>
    cases other with
    | nil => exact absurd apart.symm (not_apart_nil _)
    | cons second below => exact ⟨first, above, second, below, rfl, rfl⟩

end Path

namespace Term

/-- A replacement leaves the subterm at every path apart from its own. -/
theorem subterm?_of_apart {one other : Path} {term result replacement : Term}
    (apart : one.Apart other) (replaced : term.replace? one replacement = some result) :
    result.subterm? other = term.subterm? other := by
  induction one generalizing other term result with
  | nil => exact absurd apart (Path.not_apart_nil other)
  | cons step above ih =>
    obtain ⟨_, _, second, below, ⟨⟩, rfl⟩ := apart.exists_cons
    obtain ⟨items, item, child, rfl, listed, inner, rfl⟩ := replace?_cons.mp replaced
    rw [subterm?_sequence, subterm?_sequence]
    by_cases same : step = second
    · subst same
      have inside : step < items.length := (List.getElem?_eq_some_iff.mp listed).1
      rw [List.getElem?_set_self inside, listed]
      exact ih (Path.apart_cons.mp apart rfl) inner
    · rw [List.getElem?_set_ne same]

/-- Replacements at paths apart from each other can be made in the other order. -/
theorem replace?_swap {one other : Path} {term middle result first second : Term}
    (apart : one.Apart other) (before : term.replace? one first = some middle)
    (after : middle.replace? other second = some result) :
    ∃ between, term.replace? other second = some between ∧
      between.replace? one first = some result := by
  induction one generalizing other term middle result with
  | nil => exact absurd apart (Path.not_apart_nil other)
  | cons step above ih =>
    obtain ⟨_, _, turn, below, ⟨⟩, rfl⟩ := apart.exists_cons
    obtain ⟨items, item, child, rfl, listed, inner, rfl⟩ := replace?_cons.mp before
    obtain ⟨_, visited, grown, ⟨⟩, there, within, rfl⟩ := replace?_cons.mp after
    by_cases same : step = turn
    · subst same
      have inside : step < items.length := (List.getElem?_eq_some_iff.mp listed).1
      rw [List.getElem?_set_self inside] at there
      obtain rfl := Option.some.inj there
      obtain ⟨swapped, early, late⟩ := ih (Path.apart_cons.mp apart rfl) inner within
      refine ⟨_, replace?_cons.mpr ⟨items, item, swapped, rfl, listed, early, rfl⟩, ?_⟩
      refine replace?_cons.mpr ⟨_, swapped, grown, rfl, ?_, late, ?_⟩
      · exact List.getElem?_set_self inside
      · rw [List.set_set, List.set_set]
    · rw [List.getElem?_set_ne same] at there
      refine ⟨_, replace?_cons.mpr ⟨items, visited, grown, rfl, there, within, rfl⟩, ?_⟩
      refine replace?_cons.mpr ⟨_, item, child, rfl, ?_, inner, ?_⟩
      · rw [List.getElem?_set_ne (Ne.symm same), listed]
      · rw [List.set_comm _ _ same]

/-- Replacements at paths apart from each other commute, whether they succeed or not. -/
theorem replace?_comm {one other : Path} (apart : one.Apart other) (term first second : Term) :
    ((term.replace? one first).bind fun middle => middle.replace? other second) =
      (term.replace? other second).bind fun middle => middle.replace? one first := by
  ext result
  rw [Option.bind_eq_some_iff, Option.bind_eq_some_iff]
  constructor
  · rintro ⟨middle, before, after⟩
    exact replace?_swap apart before after
  · rintro ⟨middle, before, after⟩
    exact replace?_swap apart.symm before after

/-- A path without a subterm cannot be replaced. -/
theorem replace?_eq_none {term : Term} {path : Path} (replacement : Term) :
    term.replace? path replacement = none ↔ term.subterm? path = none := by
  have both : (∃ result, term.replace? path replacement = some result) ↔
      ∃ found, term.subterm? path = some found := exists_replace?_iff replacement
  rw [← Option.isSome_iff_exists, ← Option.isSome_iff_exists] at both
  rw [← Option.not_isSome_iff_eq_none, ← Option.not_isSome_iff_eq_none, both]

/-- Replacing at a path that is given as a term. -/
theorem replaceAt_toTerm {path : Path} (small : ∀ index ∈ path, index ≤ mostCount)
    (term replacement : Term) :
    term.replaceAt (Path.toTerm path) replacement =
      ((term.replace? path replacement).elim (.error (.invalidPath term path)) .ok) := by
  cases replaced : term.replace? path replacement with
  | none => simp only [replaceAt, toPath_toTerm small, bind, Except.bind, replaced, Option.elim]
  | some result =>
    simp only [replaceAt, toPath_toTerm small, bind, Except.bind, replaced, Option.elim]

/-- What reading and replacing the subterm at a path have to do with each other. -/
structure Lens (term : Term) (path : Path) : Prop where
  /-- A subterm can be replaced exactly where there is one. -/
  addressed : ∀ replacement, (∃ result, term.replace? path replacement = some result) ↔
    ∃ found, term.subterm? path = some found
  /-- What was put in is read back. -/
  read : ∀ replacement result, term.replace? path replacement = some result →
    result.subterm? path = some replacement
  /-- A subterm put in its own place changes nothing. -/
  restored : ∀ found, term.subterm? path = some found → term.replace? path found = some term
  /-- Of two replacements the last one counts. -/
  last : ∀ first result, term.replace? path first = some result →
    ∀ second, result.replace? path second = term.replace? path second
  /-- Every path apart from this one leads where it led. -/
  kept : ∀ other, path.Apart other → ∀ replacement result,
    term.replace? path replacement = some result → result.subterm? other = term.subterm? other
  /-- Replacements at paths apart from each other commute. -/
  commutes : ∀ other, path.Apart other → ∀ first second,
    ((term.replace? path first).bind fun middle => middle.replace? other second) =
      (term.replace? other second).bind fun middle => middle.replace? path first
  /-- A path whose steps can be counted is read back from its term. -/
  encoded : (∀ index ∈ path, index ≤ mostCount) → (Path.toTerm path).toPath = .ok path
  /-- Replacing at the term of such a path is replacing at the path. -/
  replaces : (∀ index ∈ path, index ≤ mostCount) → ∀ replacement result,
    term.replaceAt (Path.toTerm path) replacement = .ok result ↔
      term.replace? path replacement = some result
  /-- It is refused as an invalid path, exactly where there is no subterm. -/
  refused : (∀ index ∈ path, index ≤ mostCount) → ∀ replacement error,
    term.replaceAt (Path.toTerm path) replacement = .error error ↔
      error = .invalidPath term path ∧ term.subterm? path = none

/-- Every path of every term is a lens. -/
theorem path_lens (term : Term) (path : Path) : term.Lens path where
  addressed := exists_replace?_iff
  read _ _ := subterm?_replace?
  restored _ := replace?_self
  last _ _ := replace?_replace?
  kept _ apart _ _ := subterm?_of_apart apart
  commutes _ apart := replace?_comm apart term
  encoded := toPath_toTerm
  replaces small replacement result := by
    rw [replaceAt_toTerm small]
    cases replaced : term.replace? path replacement with
    | none => simp
    | some other => simp
  refused small replacement error := by
    rw [replaceAt_toTerm small, ← replace?_eq_none replacement]
    cases replaced : term.replace? path replacement with
    | none => simp [eq_comm]
    | some other => simp

end Term

end Reduct
