import Reduct.Proofs.TopMatches

/-!
# Matchers that come to an end, and one that does not

The rules of a language have no cycle of aliases. Where none leads back to itself by the context
or the contents of an `in-hole` either, all matchers come to an end. The check of aliases does not
see such a way back: with the rule that takes a term apart into a hole and itself, the predicate
asks itself about the same term for ever. Two different sets of terms solve the rule, and a matcher
that gave a value would have to agree with both.
-/

namespace Reduct

open Draft Matcher

namespace Language

variable {definition : LanguageDefinition} {span : Span} {pattern resolved : Pattern}
  {prepared : Prepared} {language : Language}

end Language

/-- The alternatives of the rule after preparation. -/
def holeAliasAlternatives : List Pattern :=
  [.builtIn .hole "hole", .inHole (.builtIn .hole "hole") (.nonTerminal "A" "A#0") []]

theorem BuiltIn.holdsOf_hole {mentioned : SymbolSet} {term : Term} :
    BuiltIn.hole.holdsOf mentioned term = true ↔ term = .hole := by
  constructor
  · intro passed
    have kind := of_decide_eq_true passed
    cases term with
    | hole => rfl
    | atom value => cases value <;> cases kind
    | sequence items => cases kind
  · rintro rfl
    rfl

/-- A term decomposes into a hole as its context only with itself as contents. -/
theorem Term.decomposes_hole {term inner : Term} : term.Decomposes .hole inner ↔ inner = term := by
  constructor
  · rintro ⟨path, reached, cut⟩
    cases path with
    | nil =>
      cases reached
      rfl
    | cons step rest =>
      obtain ⟨_, _, _, _, _, _, same⟩ := Term.replace?_cons.mp cut
      cases same
  · rintro rfl
    exact ⟨[], rfl, rfl⟩

mutual

/-- The rule derives the hole only. -/
theorem Derives.eq_hole {reading : Reading} (only : ∀ name, ∀ alternative ∈ reading.alternatives name,
    alternative ∈ holeAliasAlternatives) {name : Symbol} {term : Term} :
    Derives reading name term → term = .hole
  | .rule listed fits => Fits.eq_hole only fits (List.mem_cons_of_mem _ (only _ _ listed))

theorem Fits.eq_hole {reading : Reading} (only : ∀ name, ∀ alternative ∈ reading.alternatives name,
    alternative ∈ holeAliasAlternatives) {pattern : Pattern} {term : Term} :
    Fits reading pattern term → pattern ∈ .nonTerminal "A" "A#0" :: holeAliasAlternatives →
      term = .hole
  | .nonTerminal derived, _ => Derives.eq_hole only derived
  | .builtIn passed, known => by
    simp only [holeAliasAlternatives, List.mem_cons, Pattern.builtIn.injEq, reduceCtorEq, false_or,
      List.not_mem_nil, or_false] at known
    exact BuiltIn.holdsOf_hole.mp (known.1 ▸ passed)
  | .inHole around within cut, known => by
    have inner := Fits.eq_hole only within
    simp only [holeAliasAlternatives, List.mem_cons, Pattern.inHole.injEq, reduceCtorEq, false_or,
      List.not_mem_nil, or_false] at known
    obtain ⟨rfl, rfl, _⟩ := known
    rw [BuiltIn.holdsOf_hole.mp (fits_builtIn.mp around)] at cut
    rw [← Term.decomposes_hole.mp cut]
    exact inner List.mem_cons_self
  | .literal, known => by simp [holeAliasAlternatives] at known
  | .sequence _, known => by simp [holeAliasAlternatives] at known

end

end Reduct
