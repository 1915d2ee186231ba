import Reduct.Proofs.FinalDrafts
import Reduct.Proofs.TameCode

/-!
# Tame programs

The functions of relations, of metafunctions and of entries have tame code as well: the messages
that they raise are sums that they build just before. So every function of a compiled
specification has tame code.
-/

namespace Reduct.Program

open Draft Statement

variable {scope : Scope}

theorem keepsTame_topMatcher (language : Symbol) (pattern : Prepared) :
    KeepsTame (topMatcher scope language pattern) := by
  unfold topMatcher
  split
  · exact makes_throw _
  · exact Matcher.keepsTame_compileTop _ _

theorem keepsTame_construction (depths : Depths) (template : Template) :
    KeepsTame (construction scope depths template) := by
  unfold construction
  split
  · exact makes_throw _
  · exact Construction.keepsTame_compile _

theorem makes_matchesAny (matcher term check : Symbol) :
    Makes Tame (matchesAny matcher term check) := by
  iterate 2 refine .withLocal fun _ => ?_
  exact makes_pure fun _ => by simp

/-- A sum that is raised in the next statement. -/
theorem tame_raiseSum (message : Symbol) (left right : Operand) :
    Tame [assignBinary message .add left right, .raise (.name message)] := by
  intro sum
  simp [isTame, sum?, assignBinary, Expression.isSum]

theorem makes_raiseTerm (lead : String) (term : Symbol) : Makes Tame (raiseTerm lead term) := by
  iterate 2 refine .withLocal fun _ => ?_
  exact makes_pure (.cons (fun _ => by simp) (tame_raiseSum _ _ _))

theorem makes_raiseMismatch (write : Primitive) (expected actual : Symbol) :
    Makes Tame (raiseMismatch write expected actual) := by
  iterate 5 refine .withLocal fun _ => ?_
  refine makes_pure ?_
  iterate 4 refine .cons (fun _ => by simp) ?_
  exact tame_raiseSum _ _ _

theorem makes_requireMatch (language : Symbol) (pattern : Prepared) (term : Symbol)
    (lead : String) : Makes Tame (requireMatch scope language pattern term lead) := by
  refine .withLocal fun _ => (keepsTame_topMatcher _ _).bind fun _ _ => ?_
  refine (makes_matchesAny _ _ _).bind fun test tested => ?_
  refine (makes_raiseTerm _ _).bind fun failure fails => makes_pure (tested.append fun _ => ?_)
  simp [fails none]

theorem makes_relationCase (language term out : Symbol) (case : Prepared × Template) :
    Makes Tame (relationCase scope language term out case) := by
  refine (keepsTame_topMatcher _ _).bind fun _ _ => (keepsTame_construction _ _).bind fun _ _ => ?_
  iterate 3 refine .withLocal fun _ => ?_
  exact makes_pure fun _ => by simp

theorem keepsTame_relation (name function language : Symbol) (domain : Option Prepared)
    (cases : List (Prepared × Template)) :
    KeepsTame (relation scope name function language domain cases) := by
  refine .withLocal fun _ => ?_
  refine (Makes.mapM (fun pattern => makes_requireMatch language pattern _ _) _).bind
    fun checks guarded => ?_
  refine (Makes.mapM (makes_relationCase language _ _) cases).bind fun results tame => ?_
  refine keepsTame_addFunction _ _ (.append (.append (.cons (fun _ => by simp) ?_) ?_) fun _ => ?_)
  · exact tame_flatten guarded
  · exact tame_flatten tame
  · simp

theorem makes_codomain (codomain : Option Symbol) (lead : String) (result : Symbol) :
    Makes (fun checks => ∀ check ∈ checks, Tame check) (codomain.toList.mapM fun codomain => do
      let check ← freshLocal "ok"
      let test ← matchesAny codomain result check
      let failure ← raiseTerm lead result
      pure (test ++ [whenFalse check failure])) := by
  refine .mapM (fun _ => ?_) _
  refine .withLocal fun _ => (makes_matchesAny _ _ _).bind fun test tested => ?_
  refine (makes_raiseTerm _ _).bind fun failure fails => makes_pure (tested.append fun _ => ?_)
  simp [fails none]

theorem makes_metafunctionCase (name language arguments : Symbol) (codomain : Option Symbol)
    (case : Prepared × Template) :
    Makes Tame (metafunctionCase scope name language arguments codomain case) := by
  refine (keepsTame_topMatcher _ _).bind fun _ _ => (keepsTame_construction _ _).bind fun _ _ => ?_
  iterate 5 refine .withLocal fun _ => ?_
  refine Makes.bind (makes_codomain _ _ _) fun checks guarded => ?_
  have checked := tame_flatten guarded
  exact makes_pure fun _ => by simp [areTame_append, checked _]

theorem keepsTame_metafunction (name function language : Symbol)
    (contract : Option (Prepared × Prepared)) (cases : List (Prepared × Template)) :
    KeepsTame (metafunction scope name function language contract cases) := by
  have guard := fun contract : Prepared × Prepared => @makes_requireMatch scope language contract.1
    "args" (name ++ ": arguments not in domain: ")
  refine (Makes.mapM guard contract.toList).bind fun checks guarded => ?_
  refine Makes.bind (?_ : KeepsTame _) fun codomain _ => ?_
  · cases contract with
    | none => exact makes_pure trivial
    | some contract => exact (keepsTame_topMatcher _ _).bind fun _ _ => makes_pure trivial
  · refine (Makes.mapM (makes_metafunctionCase name language _ codomain) cases).bind
      fun attempts tame => ?_
    refine (makes_raiseTerm _ _).bind fun failure fails => ?_
    exact keepsTame_addFunction _ _
      (.append (.append (tame_flatten guarded) (tame_flatten tame)) fails)

theorem makes_expectedBindings (wanted : Symbol) (bindings : List (Symbol × Term)) :
    Makes Tame (expectedBindings wanted bindings) := by
  refine .withLocal fun env => ?_
  have add : ∀ binding : Symbol × Term, Makes (fun statement => Tame [statement]) (do
      let value ← constant binding.2
      pure (perform .matchAdd [.name env, .string binding.1, .name value])) :=
    fun _ => (keepsTame_constant _).bind fun _ _ => makes_pure fun _ => by simp
  refine (Makes.mapM add bindings).bind fun adds tame => ?_
  exact makes_pure (.append (.cons (fun _ => by simp) (tame_of_each tame)) fun _ => by simp)

theorem makes_mergeBinding (language env : Symbol) (binding : Prepared × Term) :
    Makes Tame (mergeBinding scope language env binding) := by
  refine (keepsTame_topMatcher _ _).bind fun _ _ => (keepsTame_constant _).bind fun _ _ => ?_
  iterate 4 refine .withLocal fun _ => ?_
  exact (makes_raiseTerm _ _).bind fun _ fails => makes_pure fun _ => by simp [fails none]

theorem keepsTame_entry (name : Symbol) {body : List Statement} (tame : Tame body)
    (description : String) (kind : EntryKind) (span : Span) :
    KeepsTame (entry name body description kind span) :=
  (keepsTame_addFunction name [] tame).bind fun _ _ => makes_pure trivial

/-- The end of an assertion: unless the check holds, raise a message. -/
theorem tame_decide {failure : List Statement} (fails : Tame failure) (check : Symbol)
    (test : Primitive) (arguments : List Operand) :
    Tame [assignPrimitive check test arguments, whenFalse check failure, .returns .none] :=
  fun _ => by simp [fails none]

/-- Generating the code of a form. -/
theorem keepsTame_generate (span : Span) (form : PreparedForm) :
    KeepsTame (generate scope span form) := by
  cases form with
  | language => exact makes_pure trivial
  | foreignSource path => exact makes_pure trivial
  | relation name function language domain cases =>
    exact (keepsTame_relation _ _ _ _ _).bind fun _ _ => makes_pure trivial
  | metafunction name function language contract cases =>
    exact (keepsTame_metafunction _ _ _ _ _).bind fun _ _ => makes_pure trivial
  | redexMatch language pattern term description =>
    refine (keepsTame_topMatcher _ _).bind fun _ _ => (keepsTame_freshFunction _ _).bind fun _ _ => ?_
    refine (keepsTame_constant _).bind fun _ _ => .withLocal fun found => ?_
    have printed : ∀ text, Tame
        [assignPrimitive text .matchesToString [.name found], Statement.print (.name text)] :=
      fun _ _ => by simp
    have returned : ∀ matcher input, ∀ {prints : List Statement}, Tame prints →
        Tame (assignCall found matcher [.name input] :: prints ++ [.returns (.name found)]) :=
      fun _ _ _ tame => .append (.cons (fun _ => by simp) tame) fun _ => by simp
    dsimp only
    split
    · exact .withLocal fun _ => (makes_pure (printed _)).bind fun _ tame =>
        keepsTame_entry _ (returned _ _ tame) _ _ _
    · exact (makes_pure tame_nil).bind fun _ tame => keepsTame_entry _ (returned _ _ tame) _ _ _
  | assertMatch language pattern term expected description =>
    refine (keepsTame_topMatcher _ _).bind fun _ _ => (keepsTame_freshFunction _ _).bind fun _ _ => ?_
    refine (keepsTame_constant _).bind fun _ _ => ?_
    iterate 2 refine .withLocal fun _ => ?_
    refine (Makes.mapM (makes_expectedBindings _) expected).bind fun expectations tame => ?_
    refine .withLocal fun _ => (makes_raiseMismatch _ _ _).bind fun _ fails => ?_
    refine keepsTame_entry _ (.append (.append (fun _ => by simp) (tame_flatten tame)) ?_) _ _ _
    exact tame_decide fails _ _ _
  | assertTerm language bindings depths template expected description =>
    refine (keepsTame_freshFunction _ _).bind fun _ _ => .withLocal fun _ => ?_
    refine (Makes.mapM (makes_mergeBinding language _) bindings).bind fun merges tame => ?_
    refine (keepsTame_construction _ _).bind fun _ _ => .withLocal fun _ => ?_
    refine (keepsTame_constant _).bind fun _ _ => .withLocal fun _ => ?_
    refine (makes_raiseTerm _ _).bind fun _ fails => keepsTame_entry _ ?_ _ _ _
    refine .append (.cons (fun _ => by simp) (tame_flatten tame)) (.cons (fun _ => by simp) ?_)
    exact tame_decide fails _ _ _
  | assertReduction relation function term expected description =>
    refine (keepsTame_freshFunction _ _).bind fun _ _ => (keepsTame_constant _).bind fun _ _ => ?_
    refine .withLocal fun _ => .withLocal fun wanted => ?_
    have append : ∀ term, Makes (fun statement => Tame [statement]) (do
        let value ← constant term
        pure (perform .listAppend [.name wanted, .name value])) :=
      fun _ => (keepsTame_constant _).bind fun _ _ => makes_pure fun _ => by simp
    refine (Makes.mapM append expected).bind fun expectations tame => ?_
    refine .withLocal fun _ => (makes_raiseMismatch _ _ _).bind fun _ fails => ?_
    refine keepsTame_entry _ (.append (.append (fun _ => by simp) (tame_of_each tame)) ?_) _ _ _
    exact tame_decide fails _ _ _

theorem Generates.allTame {items : List (Form × PreparedForm)} {before after : Draft}
    {additions : List Addition} (generates : Generates scope items before additions after)
    (tame : before.AllTame) : after.AllTame := by
  induction generates with
  | nil => exact tame
  | cons first _ ih => exact ih ((keepsTame_generate _ _ _ _ _ first).1 tame)

theorem Draws.allTame {before after : Draft} {names : List Symbol}
    (draws : Draws before names after) (tame : before.AllTame) : after.AllTame := by
  induction draws with
  | nil => exact tame
  | cons _ _ ih => exact ih tame

/-- All functions of a specification that compiles have tame code. -/
theorem Compilation.allTame {forms : List Form} {prints : Bool}
    (compilation : Compilation forms prints) : compilation.draft.AllTame :=
  (generates_of_yields compilation.generates).allTame (compilation.collects.2.allTame nofun)

end Reduct.Program
