import Reduct.Proofs.FinishedDrafts

/-!
# Predicates come to an end

The fuel of a predicate bounds the rules that are entered inside one another. A rule is reserved
before it is entered and is never entered again, so fuel for the rules that are not reserved
suffices: with it the predicate is compiled, and more fuel changes nothing. The first part holds of
all sound drafts already, and for the second a step that succeeds does the same if it is built from
steps that do.
-/

namespace Reduct

namespace Draft

/-- A step that succeeds does what another step does as well. -/
def Refines {α : Type} (action other : Drafting α) : Prop :=
  ∀ before result after, Yields action before result after → Yields other before result after

section Refining

variable {α β : Type}

theorem Refines.refl (action : Drafting α) : Refines action action := fun _ _ _ => id

theorem refines_throw (fault : Fault) (action : Drafting α) : Refines (throw fault) action := nofun

theorem Refines.bind {first second : Drafting α} {next last : α → Drafting β}
    (one : Refines first second) (two : ∀ value, Refines (next value) (last value)) :
    Refines (first >>= next) (second >>= last) := by
  intro before result after yields
  obtain ⟨value, middle, begun, ended⟩ := yields_bind.mp yields
  exact yields_bind.mpr ⟨value, middle, one _ _ _ begun, two _ _ _ _ ended⟩

/-- The same step first. -/
theorem Refines.after (first : Drafting α) {next last : α → Drafting β}
    (two : ∀ value, Refines (next value) (last value)) :
    Refines (first >>= next) (first >>= last) := (Refines.refl first).bind two

theorem refines_sharedMatcher {language : Symbol} {pattern : Pattern} {kind hint : String}
    {parameters : List Symbol} {body other : Drafting (List Statement)}
    (inner : Refines body other) :
    Refines (sharedMatcher language pattern kind hint parameters body)
      (sharedMatcher language pattern kind hint parameters other) := by
  refine .after _ fun draft => ?_
  split
  · exact .refl _
  · exact .after _ fun _ => .after _ fun _ => inner.bind fun _ => .refl _

end Refining

end Draft

namespace Matcher

open Draft

section Bodies

variable {language : Language} {less more : Symbol → Drafting Symbol}

theorem refines_leafTest (tests : ∀ stem, Refines (less stem) (more stem)) (leaf : Pattern)
    (term : Symbol) (success : List Statement) :
    Refines (leafTest language less leaf term success)
      (leafTest language more leaf term success) := by
  refine .after _ fun ok => ?_
  cases leaf with
  | nonTerminal stem symbol => exact (tests stem).bind fun _ => .refl _
  | builtIn kind symbol => cases kind <;> exact .refl _
  | _ => exact .refl _

theorem refines_leafBody (tests : ∀ stem, Refines (less stem) (more stem)) (leaf : Pattern) :
    Refines (leafBody language less leaf) (leafBody language more leaf) := by
  unfold leafBody
  iterate 6 refine .after _ fun _ => ?_
  exact (refines_leafTest tests leaf _ _).bind fun _ => .refl _

theorem refines_sequenceBody (items : List Pattern)
    {steps others : SequenceLocals → Symbol → Drafting (List Statement × Symbol)}
    (each : ∀ locals first, Refines (steps locals first) (others locals first)) :
    Refines (sequenceBody items steps) (sequenceBody items others) := by
  unfold sequenceBody
  iterate 8 refine .after _ fun _ => ?_
  exact (each _ _).bind fun _ => .refl _

theorem refines_inHoleBody (checks : List Check) {context contents around within : Drafting Symbol}
    (outer : Refines context around) (inner : Refines contents within) :
    Refines (inHoleBody checks context contents) (inHoleBody checks around within) :=
  outer.bind fun _ => inner.bind fun _ => .refl _

mutual

/-- The predicates matter to a matcher only where they are compiled. -/
theorem refines_compileWith (tests : ∀ stem, Refines (less stem) (more stem)) :
    (pattern : Pattern) →
      Refines (compileWith language less pattern) (compileWith language more pattern)
  | .literal _ | .builtIn _ _ | .nonTerminal _ _ => by
    rw [compileWith, compileWith]
    exact refines_sharedMatcher (refines_leafBody tests _)
  | .sequence items => by
    rw [compileWith, compileWith]
    exact refines_sharedMatcher (refines_sequenceBody items fun locals frontier =>
      refines_compileItems tests locals (fixedCount items) frontier items)
  | .repeated inner mode => by
    rw [compileWith, compileWith]
    exact refines_sharedMatcher ((refines_compileWith tests inner).bind fun _ => .refl _)
  | .inHole context contents checks => by
    rw [compileWith, compileWith]
    exact refines_sharedMatcher (refines_inHoleBody checks (refines_compileWith tests context)
      (refines_compileWith tests contents))
  | .check _ | .unresolved _ => by
    rw [compileWith, compileWith]
    exact .refl _

/-- The predicates matter to the items of a sequence only where they are compiled. -/
theorem refines_compileItems (tests : ∀ stem, Refines (less stem) (more stem))
    (locals : SequenceLocals) (remaining : Nat) (frontier : Symbol) : (items : List Pattern) →
      Refines (compileItems language less locals remaining frontier items)
        (compileItems language more locals remaining frontier items)
  | [] => by
    rw [compileItems, compileItems]
    exact .refl _
  | item :: rest => by
    have one : Refines (compileWith language less item) (compileWith language more item) :=
      refines_compileWith tests item
    rw [compileItems_cons, compileItems_cons]
    iterate 3 refine .after _ fun _ => ?_
    refine .bind ?_ fun _ => (refines_compileItems tests locals _ _ rest).bind fun _ => .refl _
    cases item with
    | check test => exact .refl _
    | _ => exact one.bind fun _ => .refl _

end

end Bodies

theorem refines_alternativeTests {less more : Pattern → Drafting Symbol}
    (each : ∀ pattern, Refines (less pattern) (more pattern)) (bindings : Symbol) :
    ∀ alternatives, Refines (alternativeTests less bindings alternatives)
      (alternativeTests more bindings alternatives)
  | [] => .refl _
  | alternative :: rest => by
    rw [alternativeTests, alternativeTests]
    refine (each _).bind fun _ => ?_
    iterate 3 refine .after _ fun _ => ?_
    exact (refines_alternativeTests each bindings rest).bind fun _ => .refl _

variable {language : Language}

theorem refines_sharedPredicate {stem : Symbol} {less more : Rule → Drafting Symbol}
    (each : ∀ rule, Refines (less rule) (more rule)) :
    Refines (sharedPredicate language stem less) (sharedPredicate language stem more) := by
  refine .after _ fun reserved => ?_
  split
  · exact .refl _
  · exact .refl _
  · exact each _

/-- More fuel changes nothing for a predicate that is compiled. -/
theorem refines_predicate (fuel : Nat) : ∀ stem,
    Refines (predicate language fuel stem) (predicate language (fuel + 1) stem) := by
  induction fuel with
  | zero =>
    intro stem
    rw [predicate, predicate]
    exact refines_sharedPredicate fun rule => refines_throw _ _
  | succ fuel ih =>
    intro stem
    rw [predicate, predicate]
    refine refines_sharedPredicate fun rule => .after _ fun _ => .after _ fun _ => ?_
    exact (refines_alternativeTests (refines_compileWith ih) env _).bind fun _ => .refl _

theorem refines_predicate_of_le {fuel more : Nat} (enough : fuel ≤ more) (stem : Symbol) :
    Refines (predicate language fuel stem) (predicate language more stem) := by
  induction enough with
  | refl => exact .refl _
  | step _ ih => exact fun _ _ _ yields => refines_predicate _ stem _ _ _ (ih _ _ _ yields)

/-- Fuel for the rules that are not reserved is enough for a predicate: it is compiled, and all
greater fuel gives the same. -/
theorem exists_predicate {languages : Language → Prop} (apart : Apart languages)
    (listed : languages language) (closed : language.Closed) {stem : Symbol}
    (ruled : language.HasRule stem) {pending : List Symbol} {draft : Draft}
    (sound : draft.Sound languages pending) :
    ∃ name after, ∀ fuel, unreserved language draft ≤ fuel →
      Yields (predicate language fuel stem) draft name after := by
  obtain ⟨name, after, yields, _⟩ := (steady_predicate apart listed closed _ pending stem
    ruled).succeeds draft ⟨sound, Nat.le_refl _⟩
  exact ⟨name, after, fun fuel enough =>
    refines_predicate_of_le enough stem _ _ _ yields⟩

end Matcher

end Reduct
