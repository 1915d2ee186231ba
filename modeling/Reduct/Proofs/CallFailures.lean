import Reduct.Proofs.ClauseCalls
import Reduct.Proofs.ProgramEntries

/-!
# Failures of calls

An error that a call of an entry, of a relation or of a metafunction returns is one that the
specification or its host has a part in: a raised message, a failure or the absence of a host
function that a template calls, a context without a hole, ellipses of different lengths, a result
of a host function that cannot be spliced, or a limit of calls that is reached. The code itself is
never at fault: its variables are set, its calls have the right arguments, and its positions are in
range.
-/

namespace Reduct

namespace World

/-- What a call may fail with under a limit of calls: what clauses fail with, or the limit. -/
def MayFail (world : World) (limit : Option Nat) (cause : EvalError) : Prop :=
  world.Fails cause ∨ ∃ most, limit = some most ∧ cause = .stackOverflow most

/-- The failures of calls have these names. -/
theorem MayFail.name {world : World} {limit : Option Nat} {cause : EvalError}
    (may : world.MayFail limit cause) :
    cause.name ∈ ["Raised", "Foreign", "UnknownFunction", "NoHole", "InconsistentEllipsisCounts",
      "WrongKind", "StackOverflow"] := by
  rcases may with fails | ⟨most, _, rfl⟩
  · cases fails <;> simp [EvalError.name, TermError.name]
  · simp [EvalError.name]

end World

namespace Program.Compilation

open Attempt Construction

variable {forms : List Form} {prints : Bool} {compilation : Compilation forms prints}
  {machine : Machine} {host : Host}

section Admitting

variable {judgement : Judgement} {apply : Symbol → Term → Attempt Term}

/-- What calls rely on: what the code of clauses does, where bindings used out of turn and all
failures of clauses are excused. -/
structure Admits (compilation : Compilation forms prints) (judgement : Judgement)
    (machine : Machine) (host : Host) (apply : Symbol → Term → Attempt Term) : Prop where
  supports : compilation.Supports judgement machine host False apply
  tolerant : judgement.tolerant
  excused : ∀ cause, (compilation.world host).Fails cause → judgement.excuses cause
  applying : ∀ function argument cause, apply function argument = some (.error cause) →
    (compilation.world host).Fails cause

/-- The function of a relation gives a list of terms, or fails as clauses fail. -/
theorem Admits.relation_performs (read : ∀ form ∈ forms, form.Read)
    (unmarked : ∀ form ∈ forms, form.Unmarked)
    (admits : compilation.Admits judgement machine host apply) {relation function : Symbol}
    (named : compilation.names.relations.find? relation = some function) {content : Term}
    (proper : content.Proper) (store : Store) :
    Performs judgement machine function [.term content] store (GivesTerms store fun _ => True) := by
  rcases compilation.collects.1.relation relation function named with
    none | ⟨definition, span, listed, called⟩
  · cases none
  subst called
  have fine : Fine False judgement.excuses
      ((compilation.world host).related apply definition content) :=
    ⟨False.elim, fun cause failed =>
      admits.excused cause (World.fails_related admits.applying listed failed)⟩
  refine (admits.supports.relation_performs read unmarked listed named proper fine store).weaken ?_
  rintro value after ⟨place, terms, rfl, _, keeps, lists⟩
  exact ⟨place, terms, rfl, trivial, keeps, lists⟩

/-- The function of a metafunction gives a term, or fails as clauses fail. -/
theorem Admits.metafunction_performs (read : ∀ form ∈ forms, form.Read)
    (unmarked : ∀ form ∈ forms, form.Unmarked)
    (admits : compilation.Admits judgement machine host apply) {name function : Symbol}
    (named : compilation.names.metafunctions.find? name = some function) {content : Term}
    (proper : content.Proper) (store : Store) :
    Performs judgement machine function [.term content] store (GivesTerm store fun _ => True) := by
  obtain ⟨definition, body, known, written, runs⟩ := metafunction_code read unmarked host named
  obtain ⟨_, span, listed⟩ := World.exists_of_metafunction? known
  have fine : Fine False judgement.excuses
      ((compilation.world host).applied apply definition content) :=
    ⟨False.elim, fun cause failed =>
      admits.excused cause (World.fails_applied admits.applying listed failed)⟩
  refine ⟨_, admits.supports.carries.functions _ _ _ written, rfl, ?_⟩
  refine (runs admits.supports proper fine store).weaken (fun _ _ => id) ?_
  rintro value after ⟨term, rfl, _, keeps⟩
  exact ⟨term, rfl, trivial, keeps⟩

/-- The function of an entry gives something, or fails as clauses fail. -/
theorem Admits.entry_performs (read : ∀ form ∈ forms, form.Read)
    (unmarked : ∀ form ∈ forms, form.Unmarked)
    (admits : compilation.Admits judgement machine host apply) {entry : Entry}
    (listed : entry ∈ compilation.program.entries) (store : Store) :
    Performs judgement machine entry.function [] store fun _ _ => True := by
  obtain ⟨form, inside, of⟩ :=
    exists_of_mem_right (compilation.entries_of_forms read unmarked host) listed
  obtain ⟨shown, _, performs⟩ := of.serves
  have fine : Fine False judgement.excuses
      ((compilation.world host).verdict apply shown form.body) :=
    ⟨False.elim, fun cause failed => admits.excused cause
      (World.fails_verdict admits.applying (List.mem_of_mem_filter inside) failed)⟩
  exact (performs admits.supports (.inl admits.tolerant) fine store).weaken fun _ _ _ => trivial

end Admitting

/-- A call fails as clauses fail, if its function does what it should wherever their failures are
excused. -/
theorem Hosts.mayFail (read : ∀ form ∈ forms, form.Read)
    (unmarked : ∀ form ∈ forms, form.Unmarked) (hosts : compilation.Hosts machine host)
    {function : Symbol} {arguments : List Value} {gives : Value → Store → Prop}
    (performs : ∀ {judgement : Judgement} {apply : Symbol → Term → Attempt Term},
      compilation.Admits judgement machine host apply →
      Performs judgement machine function arguments machine.store gives)
    {fuel : Nat} {cause : EvalError} {after : Machine}
    (failed : machine.call fuel function arguments = (.error (.error cause), after)) :
    (compilation.world host).MayFail machine.calls.limit cause := by
  let policy := Policy.under machine.calls.limit (compilation.world host).Fails
  have supports := hosts.supports_of_descends read unmarked (descends_upTo policy True)
    (fun _ => rfl) fuel
  have admits : compilation.Admits (.upTo policy True fuel) machine host
      ((compilation.world host).applyAt fuel) :=
    ⟨supports, trivial, fun _ => .inl, World.fails_applyAt fuel⟩
  have answer := Machine.answers_upTo (show policy.admits machine.calls from rfl) (performs admits)
  rw [failed] at answer
  obtain ⟨_, _, _, excused⟩ := answer.of_failure
  exact excused

end Program.Compilation

namespace Program

/-- A program whose symbols have no mark of generated names, and whose foreign names are not those
of its own functions, can be loaded on every host, and the calls of its entries, relations and
metafunctions fail only as clauses fail, or at the limit of calls. This holds whatever was called
before. -/
theorem Accepted.calls_fail_as_clauses {source : String} {prints : Bool}
    (accepted : Accepted source prints) (unmarked : ∀ form ∈ accepted.forms, form.Unmarked)
    {host : Host} (proper : host.Proper)
    (free : ∀ used ∈ (accepted.compilation.world host).foreigns, ∀ parameters body,
      .define used.1 parameters body ∉ accepted.compilation.draft.functions)
    (limit : Option Nat) (silent : Bool) :
    ∃ loaded, accepted.program.Loads host limit silent loaded ∧
      ∀ store calls journal fuel cause after,
        (∀ entry ∈ accepted.program.entries,
          (loaded.moved store calls journal).call fuel entry.function [] =
            (.error (.error cause), after) →
          (accepted.compilation.world host).MayFail calls.limit cause) ∧
        (∀ name function, accepted.program.relations.find? name = some function →
          ∀ term : Term, term.Proper →
          (loaded.moved store calls journal).call fuel function [.term term] =
            (.error (.error cause), after) →
          (accepted.compilation.world host).MayFail calls.limit cause) ∧
        ∀ name function, accepted.program.metafunctions.find? name = some function →
          ∀ arguments : Term, arguments.Proper →
          (loaded.moved store calls journal).call fuel function [.term arguments] =
            (.error (.error cause), after) →
          (accepted.compilation.world host).MayFail calls.limit cause := by
  obtain ⟨loaded, loads, ready⟩ := accepted.exists_loads host limit silent
  refine ⟨loaded, loads, fun store calls journal fuel cause after => ?_⟩
  have hosts : accepted.compilation.Hosts (loaded.moved store calls journal) host :=
    (accepted.hosts proper free loads).moved store calls journal
  have mayFail := fun {function arguments gives} performs =>
    @Compilation.Hosts.mayFail _ _ _ _ _ accepted.read unmarked hosts function arguments gives
      performs fuel cause after
  refine ⟨fun entry listed => ?_, fun name function named term counted => ?_,
    fun name function named arguments counted => ?_⟩
  · exact mayFail fun admits => admits.entry_performs accepted.read unmarked listed _
  · exact mayFail fun admits =>
      admits.relation_performs accepted.read unmarked named counted _
  · exact mayFail fun admits =>
      admits.metafunction_performs accepted.read unmarked named counted _

/-- A metafunction that calls a function of the host, which a test applies. -/
def asking : String :=
  "(define-language L (n ::= number)) (define-metafunction L [(f n_1) (foreign-call host n_1)]) " ++
    "(redex-match-assert-equal L n 1 (()))"

/-- Whether the forms have no marked symbols and call functions of the host, none of which the
module defines. -/
def asksFreely (stages : List Form × Draft) : Bool :=
  stages.1.all (fun form => decide form.Unmarked) &&
    let foreigns := stages.1.flatMap fun form => form.templates.flatMap Template.foreigns
    !foreigns.isEmpty && foreigns.all fun used => stages.2.functions.all fun
      | .define name _ _ => name != used.1
      | _ => true

theorem calls_fail_as_clauses_asking :
    ∃ accepted : Accepted asking false, ∃ loaded,
      accepted.program.Loads .empty (some 3) true loaded ∧
      (accepted.compilation.world .empty).foreigns ≠ [] ∧
      ∀ name function, accepted.program.metafunctions.find? name = some function →
        ∀ fuel cause after,
          (loaded.moved .empty (.empty (some 3)) loaded.journal).call fuel function
              [.term (.sequence [.integer 5])] = (.error (.error cause), after) →
            (accepted.compilation.world .empty).MayFail (some 3) cause := by
  have tested : (stages? asking false).any asksFreely = true := by decide +kernel
  match stages : stages? asking false with
  | none =>
    rw [stages] at tested
    cases tested
  | some (forms, draft) =>
    rw [stages] at tested
    obtain ⟨accepted, rfl, rfl⟩ := exists_accepted (by decide +kernel) stages
    simp only [Option.any_some, asksFreely, Bool.and_eq_true, Bool.not_eq_true',
      List.isEmpty_eq_false_iff] at tested
    obtain ⟨plain, asks, apart⟩ := tested
    have unmarked : ∀ form ∈ accepted.forms, form.Unmarked := fun form listed =>
      of_decide_eq_true (List.all_eq_true.mp plain form listed)
    have free : ∀ used ∈ (accepted.compilation.world .empty).foreigns, ∀ parameters body,
        .define used.1 parameters body ∉ accepted.compilation.draft.functions := by
      intro used among parameters body listed
      have other := List.all_eq_true.mp (List.all_eq_true.mp apart used among) _ listed
      simp at other
    obtain ⟨loaded, loads, fails⟩ :=
      accepted.calls_fail_as_clauses unmarked .empty free (some 3) true
    refine ⟨accepted, loaded, loads, asks, fun name function named fuel cause after failed => ?_⟩
    have single : (Term.sequence [.integer 5]).Proper :=
      .sequence (by decide) (List.forall_mem_singleton.mpr (.atom nofun))
    exact (fails _ _ _ fuel cause after).2.2 name function named _ single failed

end Program

end Reduct
