import Reduct.Proofs.DefinitionCode
import Reduct.Proofs.LoadedPrograms
import Reduct.Proofs.TemplateResults

/-!
# Runs of clauses

What the functions of a program do is followed through their calls in three ways: up to a number
of steps, up to the limit of calls under way, and, for calls without a limit, up to the level on
which the metafunctions have an outcome.
-/

namespace Reduct

/-! ## Policies -/

namespace CallStack

/-- A call that starts is one more under way, within the same limit. -/
theorem push_eq_ok {stack pushed : CallStack} {function : Symbol}
    (started : stack.push function = .ok pushed) :
    pushed.limit = stack.limit ∧ pushed.depth = stack.depth + 1 ∧
      ∀ most, stack.limit = some most → stack.depth < most := by
  obtain ⟨frames, depth, limit, _⟩ := stack
  cases limit with
  | none =>
    cases started
    exact ⟨rfl, rfl, nofun⟩
  | some most =>
    by_cases room : depth < most
    · simp only [push, if_pos room, Except.ok.injEq] at started
      subst started
      refine ⟨rfl, rfl, fun other same => ?_⟩
      cases same
      exact room
    · simp [push, if_neg room] at started

/-- A call that is refused is beyond the limit. -/
theorem push_eq_error {stack : CallStack} {function : Symbol} {cause : EvalError}
    (failed : stack.push function = .error cause) :
    ∃ most, stack.limit = some most ∧ cause = .stackOverflow most := by
  obtain ⟨frames, depth, limit, _⟩ := stack
  cases limit with
  | none => cases failed
  | some most =>
    by_cases room : depth < most
    · simp [push, if_pos room] at failed
    · simp only [push, if_neg room, Except.error.injEq] at failed
      exact ⟨most, rfl, failed.symm⟩

end CallStack

namespace Policy

/-- Calls under a limit. Some failures are excused, and so is a call that would go beyond the
limit. -/
def under (limit : Option Nat) (excused : EvalError → Prop) : Policy where
  admits calls := calls.limit = limit
  excuses cause := excused cause ∨ ∃ most, limit = some most ∧ cause = .stackOverflow most
  pushed same started := (CallStack.push_eq_ok started).1.trans same
  refused same failed := by
    rw [← same]
    exact .inr (CallStack.push_eq_error failed)

/-- A limit of calls that is reached after a number of further calls at most. -/
def near (limit : Nat) (excused : EvalError → Prop) (count : Nat) : Policy where
  admits calls := calls.limit = some limit ∧ limit ≤ calls.depth + count
  excuses := (under (some limit) excused).excuses
  pushed admitted started := by
    obtain ⟨same, deeper, _⟩ := CallStack.push_eq_ok started
    have close := admitted.2
    exact ⟨same.trans admitted.1, by omega⟩
  refused admitted failed := (under (some limit) excused).refused admitted.1 failed

end Policy

/-- Up to a limit of calls, a call is as its body nearer to the limit. -/
theorem descends_near (limit : Nat) (excused : EvalError → Prop) :
    Descends fun count => .total (.near limit excused count) := by
  intro machine function definition arguments store gives count found fits body target later outer
    frames calls journal admitted
  rw [enter_eq found fits]
  obtain ⟨limited, close⟩ : calls.limit = some limit ∧ limit ≤ calls.depth + count := admitted
  match started : calls.push function with
  | .error cause =>
    exact .here (.fails ((Policy.near limit excused count).refused ⟨limited, close⟩ started))
  | .ok pushed =>
    obtain ⟨same, deeper, room⟩ := CallStack.push_eq_ok started
    have below := room limit limited
    have admitted : (Policy.near limit excused (count - 1)).admits pushed :=
      ⟨same.trans limited, by omega⟩
    have lower := body (count - 1) (by omega)
    refine State.Comes.bind (lower.giveCall admitted (CallStack.pop_push started)) ?_
    rintro other (given | failed)
    · exact .here (.gives given)
    · exact .here (.fails failed)

/-! ## Hosts -/

/-- A host gives terms that can be written and counted for such terms. -/
def Host.Proper (host : Host) : Prop :=
  ∀ function arguments term, (∀ argument ∈ arguments, argument.Proper) →
    host.outcome function arguments = some (.ok term) → term.Proper

theorem Host.Proper.empty : Host.Proper .empty := by
  intro function arguments term _ given
  cases given

/-- A call of a function that the module does not define has the outcome of the host. -/
theorem calls_host {judgement : Judgement} {machine : Machine} {function : Symbol}
    (free : machine.functions.find? function = none) {arguments : List Term} {ends : Prop}
    (fine : Attempt.Fine ends judgement.excuses (machine.host.outcome function arguments))
    (store : Store) : Calls judgement machine function (arguments.map Value.term) store
      (Construction.GivesTerm store fun term =>
        machine.host.outcome function arguments = some (.ok term)) := by
  intro target rest locals frames calls journal _
  have undefined : (machine.moved store calls journal).functions.find? function = none := free
  unfold State.enter
  simp only [undefined]
  unfold Host.outcome at fine ⊢
  cases found : machine.host.find? function with
  | none =>
    have missing : (machine.moved store calls journal).host.find? function = none := found
    simp only [Machine.callHost, missing]
    rw [found] at fine
    exact judgement.more (judgement.done (.fails (fine.2 _ rfl)))
  | some body =>
    rw [Machine.callHost_eq found]
    simp only [found] at fine
    cases made : body arguments with
    | error message =>
      rw [made] at fine
      have failed : judgement.excuses (.foreign function message) := fine.2 _ rfl
      exact judgement.more (judgement.done (Settles.fails failed))
    | ok term =>
      exact judgement.more (judgement.done (Settles.gives
        ⟨term, rfl, by simp only [made]; rfl, .refl store⟩))

namespace Program.Compilation

open Construction Attempt

variable {forms : List Form} {prints : Bool} {compilation : Compilation forms prints}
  {machine : Machine} {host : Host}

/-- A machine runs the code of a compilation with a host, whose functions are those that the forms
call. -/
structure Hosts (compilation : Compilation forms prints) (machine : Machine) (host : Host) :
    Prop where
  carries : machine.Carries compilation.draft
  same : machine.host = host
  proper : host.Proper
  free : ∀ used ∈ (compilation.world host).foreigns, machine.functions.find? used.1 = none

/-- The host functions that the forms call have their outcomes. -/
theorem Hosts.called (hosts : compilation.Hosts machine host) (judgement : Judgement) (ends : Prop)
    (function : Symbol) (mode : InsertMode)
    (used : (function, mode) ∈ (compilation.world host).foreigns) (arguments : List Term)
    (proper : ∀ argument ∈ arguments, argument.Proper)
    (fine : Fine ends judgement.excuses (host.outcome function arguments)) (store : Store) :
    Calls judgement machine function (arguments.map Value.term) store
      (GivesTerm store fun term =>
        host.outcome function arguments = some (.ok term) ∧ term.Proper) := by
  have free : machine.functions.find? function = none := hosts.free _ used
  rw [← hosts.same] at fine
  refine (calls_host free fine store).weaken ?_
  rintro value after ⟨term, given, meant, keeps⟩
  rw [hosts.same] at meant
  exact ⟨term, given, ⟨meant, hosts.proper function arguments term proper meant⟩, keeps⟩

/-- What an application comes to at a level is what its clauses come to at the levels below. -/
theorem applied_below_of_less {name : Symbol} {definition : MetafunctionDefinition}
    (known : (compilation.world host).metafunction? name = some definition) {lower level : Nat}
    (less : lower < level) (argument : Term) :
    Below ((compilation.world host).applied ((compilation.world host).applyAt lower) definition
      argument) ((compilation.world host).applyAt level name argument) := by
  have same : (compilation.world host).applied ((compilation.world host).applyAt lower) definition
      argument = (compilation.world host).applyAt (lower + 1) name argument := by
    rw [World.applyAt, known]
  rw [same]
  exact World.applyAt_below less name argument

variable (read : ∀ form ∈ forms, form.Read) (unmarked : ∀ form ∈ forms, form.Unmarked)
  (hosts : compilation.Hosts machine host)

omit unmarked hosts in
include read in
/-- The languages of a compilation are defined, and searches with their alternatives have results. -/
theorem exists_defined {name : Symbol} {language : Language}
    (found : compilation.languages.find? name = some language) :
    ∃ grammar, language.Defined grammar ∧
      ∀ rule ∈ language.rules, ∀ alternative ∈ rule.alternatives, ∀ term,
        (visit language.ground alternative.pattern term .empty).isSome = true := by
  obtain ⟨_, definition, span, listed, _, stage⟩ := compilation.staged name language found
  obtain ⟨grammar, defined⟩ := stage.defined (read _ listed).definition.1
  refine ⟨grammar, defined, fun rule among alternative inside term => ?_⟩
  obtain ⟨results, visited, _⟩ :=
    defined.visit_alternative (Language.ground_reads language) among inside term
  rw [visited]
  rfl

include read unmarked hosts

/-- In judgements in which a call is as its body in the lower ones, metafunctions come to nothing
but their outcomes. -/
theorem Hosts.supports_of_descends {family : Nat → Judgement} (descends : Descends family)
    {excuses : EvalError → Prop} (same : ∀ number, (family number).excuses = excuses)
    (number : Nat) : compilation.Supports (family number) machine host False
      ((compilation.world host).applyAt number) := by
  induction number using Nat.strongRecOn with
  | _ number ih =>
    refine ⟨hosts.carries, ?_, ?_, hosts.called _ _⟩
    · intro name language found stem term proper
      obtain ⟨grammar, defined, searched⟩ := exists_defined read found
      exact (compilation.compiled read found hosts.carries).predicateMeets_of_descends
        defined.solves descends (fun _ rule among alternative inside part =>
          .inr (searched rule among alternative inside part)) number stem term proper
    · intro function target found argument proper fine store
      obtain ⟨definition, body, known, written, runs⟩ :=
        metafunction_code read unmarked host found
      refine descends (hosts.carries.functions _ _ _ written) rfl fun lower less => ?_
      have below := applied_below_of_less known less argument
      have lower_fine : Fine False (family lower).excuses ((compilation.world host).applied
          ((compilation.world host).applyAt lower) definition argument) := by
        rw [same] at fine ⊢
        exact below.fine fine
      refine (runs (ih lower less) proper lower_fine store).weaken (fun _ _ => id) ?_
      rintro value after ⟨term, given, ⟨meant, properly⟩, keeps⟩
      exact ⟨term, given, ⟨below _ meant, properly⟩, keeps⟩

/-- Where the heads of all languages are ranked, metafunctions come to the outcomes that they have
at a level. -/
theorem Hosts.supports_total (policy : Policy)
    (ranked : ∀ name language, compilation.languages.find? name = some language →
      language.HeadsRanked) (level : Nat) :
    compilation.Supports (.total policy) machine host True
      ((compilation.world host).applyAt level) := by
  induction level with
  | zero =>
    refine ⟨hosts.carries, ?_, ?_, hosts.called _ _⟩
    · intro name language found stem term proper
      obtain ⟨grammar, defined, _⟩ := exists_defined read found
      exact defined.predicateMeets policy (compilation.compiled read found hosts.carries)
        (ranked name language found) stem term proper
    · intro function target _ argument _ fine
      exact absurd (fine.1 trivial) Bool.false_ne_true
  | succ level ih =>
    refine ⟨hosts.carries, ih.accepts, ?_, hosts.called _ _⟩
    intro function target found argument proper fine store
    obtain ⟨definition, body, known, written, runs⟩ := metafunction_code read unmarked host found
    have same : (compilation.world host).applyAt (level + 1) function argument =
        (compilation.world host).applied ((compilation.world host).applyAt level) definition
          argument := by
      rw [World.applyAt, known]
    rw [same] at fine ⊢
    exact Performs.calls ⟨_, hosts.carries.functions _ _ _ written, rfl, runs ih proper fine store⟩

end Program.Compilation

/-- A machine that has loaded an accepted specification hosts it, if no host function has the name
of a function of the program. -/
theorem Program.Accepted.hosts {source : String} {prints : Bool} (accepted : Accepted source prints)
    {host : Host} (proper : host.Proper)
    (free : ∀ used ∈ (accepted.compilation.world host).foreigns, ∀ parameters body,
      .define used.1 parameters body ∉ accepted.compilation.draft.functions)
    {limit : Option Nat} {silent : Bool} {loaded : Machine}
    (loads : accepted.program.Loads host limit silent loaded) :
    accepted.compilation.Hosts loaded host := by
  have ready := accepted.loaded loads
  exact ⟨ready.carries, ready.host, proper,
    fun used among => ready.foreign used.1 (free used among)⟩

end Reduct
