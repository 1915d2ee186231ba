import Reduct.Proofs.ClauseMeaning
import Reduct.Proofs.ComparedBindings

/-!
# What entries mean

The clauses and the languages of a specification decide what its entries come to. An entry that
matches comes to an end. An assertion about matches compares them with bindings that are built from
what is expected, one about a relation compares the results, and one about a template builds a term
from the first match of each pattern. What fails is the first of these that does, with a message
that shows what was expected.
-/

namespace Reduct

namespace Bindings

/-- The terms of some bindings together. -/
def joint : List Bindings → Assignment
  | [] => .empty
  | first :: rest => Assignment.union first.lookup (joint rest)

end Bindings

namespace World

open Template

variable (world : World)

/-- The relation of a name. -/
def relation? (name : Symbol) : Option RelationDefinition :=
  (world.forms.filterMap Form.relation?).find? fun definition => definition.name = name

/-- The first match of a pattern of a language at a term. A message is raised if there is none. -/
noncomputable def firstMatch (language : Symbol) (lead : String) (pattern : Pattern)
    (term : Term) : Attempt Bindings := do
  match ← world.found language pattern term with
  | [] => throw (.raised (lead ++ term.text))
  | first :: _ => pure first

/-- The text that a message starts with if a pattern has no match. -/
def unmatched (shown : Pattern) : String := "term-let: `" ++ shown.text ++ "` does not match "

/-- The first match of every pattern at its term. Messages show the patterns in a form of their
own. -/
noncomputable def firstMatches (language : Symbol) (shown : List Pattern)
    (bindings : List (Pattern × Term)) : Attempt (List Bindings) :=
  (shown.zip bindings).mapM fun binding =>
    world.firstMatch language (unmatched binding.1) binding.2.1 binding.2.2

/-- Results have to be the same as those expected, or else a message shows both. -/
def compare (same : Bool) (wanted got : String) : Attempt Unit :=
  if same then pure () else throw (.raised ("expected " ++ wanted ++ ", got " ++ got))

/-- Whether matches are those expected, each of which has its bindings built first. -/
def compareMatches (found : List Bindings) (expected : List (List (Symbol × Term))) :
    Attempt Unit := do
  let wanted ← ExceptT.lift (expected.mapM fun pairs => Bindings.empty.addAll? pairs)
  let same ← ExceptT.lift (Bindings.sameMatches found wanted).toOption
  compare same (Bindings.listText wanted) (Bindings.listText found)

section Entries

variable (apply : Symbol → Term → Attempt Term)

/-- What the first matches of some patterns build with a template. -/
noncomputable def builtFrom (language : Symbol) (shown : List Pattern)
    (bindings : List (Pattern × Term)) (template : Template) : Attempt Term := do
  let firsts ← world.firstMatches language shown bindings
  instantiate (world.scene apply (world.depths language (bindings.map (·.1)))
    (Bindings.joint firsts)) template

/-- What an entry comes to. The forms that are no entries come to nothing. Messages show the
patterns of the form as they were prepared. -/
noncomputable def verdict (shown : List Pattern) : FormBody → Attempt Unit
  | .redexMatch language pattern term => do
    let _ ← world.found language pattern term
    pure ()
  | .assertMatch language pattern term expected => do
    let found ← world.found language pattern term
    compareMatches found expected
  | .assertTerm language bindings template expected => do
    let built ← world.builtFrom apply language shown bindings template
    if built = expected then pure ()
      else throw (.raised ("term-let: expected " ++ expected.text ++ ", got " ++ built.text))
  | .assertReduction relation term expected =>
    match world.relation? relation with
    | some definition => do
      let terms ← world.related apply definition term
      compare (sameMembers terms expected) (Term.listText expected) (Term.listText terms)
    | none => none
  | _ => none

end Entries

variable {world : World}

theorem firstMatches_cons (language : Symbol) (pattern : Pattern) (shown : List Pattern)
    (binding : Pattern × Term) (bindings : List (Pattern × Term)) :
    world.firstMatches language (pattern :: shown) (binding :: bindings) = (do
      let first ← world.firstMatch language (unmatched pattern) binding.1 binding.2
      let others ← world.firstMatches language shown bindings
      pure (first :: others)) := by
  rw [firstMatches, List.zip_cons_cons, List.mapM_cons]
  rfl

/-- The relation of a name is one that a form defines under it. -/
theorem exists_of_relation? {name : Symbol} {definition : RelationDefinition}
    (found : world.relation? name = some definition) :
    definition.name = name ∧ ∃ span, ⟨.relation definition, span⟩ ∈ world.forms := by
  obtain ⟨⟨body, span⟩, listed, defines⟩ := List.mem_filterMap.mp (List.mem_of_find?_eq_some found)
  obtain rfl : body = .relation definition := Form.relation?_eq_some.mp defines
  exact ⟨by simpa using List.find?_some found, span, listed⟩

/-- A name stands for a relation if a form defines one under it. -/
theorem exists_relation? (world : World) {definition : RelationDefinition} {span : Span}
    (listed : ⟨.relation definition, span⟩ ∈ world.forms) :
    ∃ other, world.relation? definition.name = some other :=
  Option.isSome_iff_exists.mp (List.find?_isSome.mpr
    ⟨definition, List.mem_filterMap.mpr ⟨_, listed, rfl⟩, decide_eq_true rfl⟩)

open Attempt

/-- Matches are compared with bindings that can be built. -/
theorem compareMatches_eq {found results : List Bindings} {expected : List (List (Symbol × Term))}
    (built : expected.mapM (fun pairs => Bindings.empty.addAll? pairs) = some results) {same : Bool}
    (compared : Bindings.sameMatches found results = .ok same) :
    compareMatches found expected =
      compare same (Bindings.listText results) (Bindings.listText found) := by
  rw [compareMatches, bind_of_ok (lift_eq_some.mpr ⟨results, built, rfl⟩),
    bind_of_ok (lift_eq_some.mpr ⟨same, by rw [compared]; rfl, rfl⟩)]

section Levels

variable {one two : Symbol → Term → Attempt Term}
  (below : ∀ function argument, Below (one function argument) (two function argument))

include below

/-- An entry keeps its outcome where metafunctions have more of them. -/
theorem verdict_below (shown : List Pattern) (body : FormBody) :
    Below (world.verdict one shown body) (world.verdict two shown body) := by
  cases body with
  | assertTerm language bindings template expected =>
    refine Below.bind ?_ fun _ _ => .refl _
    exact (Below.refl _).bind fun _ _ => instantiate_below (scene_below below _ _ _)
  | assertReduction relation term expected =>
    cases known : world.relation? relation with
    | some definition =>
      simp only [verdict, known]
      exact (related_below below _ _).bind fun _ _ => .refl _
    | none =>
      simp only [verdict, known]
      exact .refl _
  | _ => exact .refl _

end Levels

/-- An entry has one outcome at most. -/
theorem verdict_unique {level other : Nat} {shown : List Pattern} {body : FormBody}
    {first second : Except EvalError Unit}
    (one : world.verdict (world.applyAt level) shown body = some first)
    (two : world.verdict (world.applyAt other) shown body = some second) : first = second := by
  have here := verdict_below (applyAt_below (Nat.le_max_left level other)) shown body _ one
  have there := verdict_below (applyAt_below (Nat.le_max_right level other)) shown body _ two
  exact Option.some.inj (here.symm.trans there)

section Failures

theorem fails_firstMatch {language : Symbol} {lead : String} {pattern : Pattern} {term : Term}
    {cause : EvalError}
    (failed : world.firstMatch language lead pattern term = some (.error cause)) :
    world.Fails cause := by
  rcases bind_error.mp failed with searching | ⟨found, _, raised⟩
  · exact absurd searching not_found_error
  · cases found with
    | nil =>
      cases raised
      exact .raised _
    | cons => cases raised

theorem fails_compare {same : Bool} {wanted got : String} {cause : EvalError}
    (failed : compare same wanted got = some (.error cause)) : world.Fails cause := by
  cases same with
  | true => cases failed
  | false =>
    cases failed
    exact .raised _

theorem fails_compareMatches {found : List Bindings} {expected : List (List (Symbol × Term))}
    {cause : EvalError} (failed : compareMatches found expected = some (.error cause)) :
    world.Fails cause := by
  rcases bind_error.mp failed with building | ⟨_, _, failed⟩
  · obtain ⟨_, _, same⟩ := lift_eq_some.mp building
    cases same
  rcases bind_error.mp failed with comparing | ⟨_, _, failed⟩
  · obtain ⟨_, _, same⟩ := lift_eq_some.mp comparing
    cases same
  · exact fails_compare failed

/-- What an entry fails with. -/
theorem fails_verdict {apply : Symbol → Term → Attempt Term}
    (applying : ∀ function argument cause,
      apply function argument = some (.error cause) → world.Fails cause)
    {form : Form} (listed : form ∈ world.forms) {shown : List Pattern} {cause : EvalError}
    (failed : world.verdict apply shown form.body = some (.error cause)) : world.Fails cause := by
  obtain ⟨body, span⟩ := form
  cases body with
  | redexMatch =>
    rcases bind_error.mp failed with searching | ⟨_, _, never⟩
    · exact absurd searching not_found_error
    · cases never
  | assertMatch =>
    rcases bind_error.mp failed with searching | ⟨_, _, failed⟩
    · exact absurd searching not_found_error
    · exact fails_compareMatches failed
  | assertTerm =>
    rcases bind_error.mp failed with building | ⟨built, _, raised⟩
    · rcases bind_error.mp building with merging | ⟨_, _, failed⟩
      · obtain ⟨_, _, failed⟩ := exists_of_mapM_error merging
        exact fails_firstMatch failed
      · exact fails_template applying listed (List.mem_singleton.mpr rfl) failed
    · split at raised
      · cases raised
      · cases raised
        exact .raised _
  | assertReduction relation =>
    simp only [verdict] at failed
    split at failed
    · rename_i definition found
      obtain ⟨_, _, defined⟩ := exists_of_relation? found
      rcases bind_error.mp failed with relating | ⟨_, _, failed⟩
      · exact fails_related applying defined relating
      · exact fails_compare failed
    · cases failed
  | _ => cases failed

end Failures

end World

end Reduct
