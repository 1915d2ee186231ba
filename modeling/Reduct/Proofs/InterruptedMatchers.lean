import Reduct.Proofs.DistinctNames
import Reduct.Proofs.InterruptedDrafts

/-!
# Interrupted matchers

The generator accounts for the names of its functions along every pattern, also those that no
matcher can be generated for. So calls of the generator may be served one after the other on one
draft. A call that fails after it has reserved names loses them: the draft goes on to return and to
call them, and none of them is ever defined. Every other name is defined once.

The main result is `serve_defines_iff`.
-/

namespace Reduct

namespace Matcher

open Draft Statement

variable {language : Language} {predicate : Symbol → Drafting Symbol} {given : List Symbol}

/-- A step that gives the name of a function that is reserved. -/
abbrev Offers (action : Drafting Symbol) : Prop :=
  ∀ given, Accounts given (fun name => [name]) action

theorem accounts_variableTest (term excluded : Symbol) {success : List Statement}
    (known : callsAll success ⊆ given) :
    Accounts given callsAll (variableTest term excluded success) := by
  iterate 3 refine .withLocal fun _ => ?_
  exact accounts_pure (by simpa using known)

theorem accounts_leafTest (tests : ∀ stem, Offers (predicate stem))
    (leaf : Pattern) (term : Symbol) {success : List Statement}
    (known : callsAll success ⊆ given) :
    Accounts given callsAll (leafTest language predicate leaf term success) := by
  unfold leafTest
  refine .withLocal fun ok => ?_
  split
  · exact (accounts_constant _).bind fun _ => accounts_pure (by simpa using known)
  · refine (tests _ _).bind fun test => accounts_pure ?_
    simpa using List.subset_cons_of_subset test known
  · exact (accounts_mentionedConstant _ _).bind fun _ => accounts_variableTest _ _ known
  · exact (accounts_constant _).bind fun _ => accounts_variableTest _ _ known
  · exact accounts_pure (by simpa using known)
  · exact accounts_throw _

theorem accounts_leafBody (tests : ∀ stem, Offers (predicate stem))
    (leaf : Pattern) : Accounts given callsAll (leafBody language predicate leaf) := by
  iterate 6 refine .withLocal fun _ => ?_
  refine (accounts_leafTest tests leaf _ (by simp)).bind fun test => accounts_pure ?_
  simp

theorem accounts_checkStep (test : Check) (entry position next : Symbol) :
    Accounts given callsAll (checkStep test entry position next) := by
  iterate 2 refine .withLocal fun _ => ?_
  exact accounts_pure (by simp)

theorem accounts_itemStep {matcher : Symbol} (known : matcher ∈ given) (isFixed : Bool)
    (remaining : Nat) (term length entry position next : Symbol) :
    Accounts given callsAll
      (itemStep matcher isFixed remaining term length entry position next) := by
  unfold itemStep
  refine .withLocal fun _ => ?_
  split
  · iterate 2 refine .withLocal fun _ => ?_
    exact accounts_pure (by simpa using known)
  · exact accounts_pure (by simpa using known)

theorem accounts_sequenceBody (items : List Pattern)
    {steps : SequenceLocals → Symbol → Drafting (List Statement × Symbol)}
    (each : ∀ locals first, Accounts given (fun result => callsAll result.1) (steps locals first)) :
    Accounts given callsAll (sequenceBody items steps) := by
  unfold sequenceBody
  iterate 8 refine .withLocal fun _ => ?_
  refine (each _ _).bind fun result => ?_
  iterate 5 refine .withLocal fun _ => ?_
  exact accounts_pure (by simp)

theorem accounts_explore {matcher : Symbol} (known : matcher ∈ given) (start : Symbol)
    (mode : RepeatMode) :
    Accounts given (fun result => callsAll result.1) (explore matcher start mode) := by
  cases mode with
  | exhaustive =>
    iterate 10 refine .withLocal fun _ => ?_
    exact accounts_pure (by simpa using known)
  | greedy =>
    iterate 9 refine .withLocal fun _ => ?_
    exact accounts_pure (by simpa using known)

theorem accounts_repeatBody (bound : List Symbol) (mode : RepeatMode) {inner : Drafting Symbol}
    (round : Offers inner) :
    Accounts given callsAll (repeatBody bound mode inner) := by
  refine (round _).bind fun _ => .withLocal fun _ => ?_
  refine (accounts_explore List.mem_cons_self _ _).bind fun search => ?_
  iterate 5 refine .withLocal fun _ => ?_
  exact accounts_pure (by simp)

theorem accounts_guardChecks (merged : Symbol) {accept : List Statement}
    (known : callsAll accept ⊆ given) : ∀ checks,
    Accounts given callsAll (guardChecks merged accept checks)
  | [] => accounts_pure known
  | test :: rest => by
    refine (accounts_guardChecks merged known rest).bind fun inner => .withLocal fun _ => ?_
    exact accounts_pure (by simp)

theorem accounts_inHoleBody (checks : List Check) {context contents : Drafting Symbol}
    (outer : Offers context) (inner : Offers contents) :
    Accounts given callsAll (inHoleBody checks context contents) := by
  refine (outer _).bind fun _ => (inner _).bind fun _ => (accounts_constant _).bind fun _ => ?_
  iterate 22 refine .withLocal fun _ => ?_
  refine (accounts_guardChecks _ (by simp) checks).bind fun accept => accounts_pure ?_
  simp [callOnWhole]

mutual

/-- Compiling the matcher of a pattern, whichever pattern it is. -/
theorem offers_compileWith (tests : ∀ stem, Offers (predicate stem)) :
    (pattern : Pattern) → Offers (compileWith language predicate pattern)
  | .literal _ | .builtIn _ _ | .nonTerminal _ _ => fun _ => by
    rw [compileWith]
    exact accounts_sharedMatcher (accounts_leafBody tests _)
  | .sequence items => fun _ => by
    rw [compileWith]
    exact accounts_sharedMatcher (accounts_sequenceBody items fun locals frontier =>
      accounts_compileItems tests locals (fixedCount items) frontier items)
  | .repeated inner mode => fun _ => by
    rw [compileWith]
    exact accounts_sharedMatcher (accounts_repeatBody _ mode (offers_compileWith tests inner))
  | .inHole context contents checks => fun _ => by
    rw [compileWith]
    exact accounts_sharedMatcher (accounts_inHoleBody checks (offers_compileWith tests context)
      (offers_compileWith tests contents))
  | .check _ | .unresolved _ => fun _ => by
    rw [compileWith]
    exact accounts_throw _

/-- Compiling the items of a sequence. -/
theorem accounts_compileItems (tests : ∀ stem, Offers (predicate stem))
    (locals : SequenceLocals) (remaining : Nat) (frontier : Symbol) :
    (items : List Pattern) → {given : List Symbol} →
      Accounts given (fun result => callsAll result.1)
        (compileItems language predicate locals remaining frontier items)
  | [], _ => by
    rw [compileItems]
    exact accounts_pure (List.nil_subset _)
  | item :: rest, given => by
    have one := offers_compileWith tests item
    rw [compileItems_cons]
    iterate 3 refine .withLocal fun _ => ?_
    refine Accounts.bind (?_ : Accounts given callsAll _) fun step => ?_
    · cases item with
      | check test => exact accounts_checkStep test _ _ _
      | _ => exact (one _).bind fun _ => accounts_itemStep List.mem_cons_self _ _ _ _ _ _ _
    · refine (accounts_compileItems tests locals _ _ rest).bind fun others => accounts_pure ?_
      simp

end

theorem accounts_alternativeTests {compile : Pattern → Drafting Symbol}
    (each : ∀ pattern, Offers (compile pattern)) (bindings : Symbol) :
    ∀ {alternatives : List Prepared} {given : List Symbol},
      Accounts given callsAll (alternativeTests compile bindings alternatives)
  | [], _ => accounts_pure (List.nil_subset _)
  | alternative :: rest, _ => by
    refine (each _ _).bind fun _ => ?_
    iterate 3 refine .withLocal fun _ => ?_
    refine (accounts_alternativeTests each bindings).bind fun others => accounts_pure ?_
    simp [callOnWhole]

theorem offers_sharedPredicate {stem : Symbol} {enter : Rule → Drafting Symbol}
    (entered : ∀ rule, Offers (enter rule)) :
    Offers (sharedPredicate language stem enter) := by
  intro given
  refine (accounts_predicate? language.name stem).bind fun reserved => ?_
  split
  · exact accounts_pure (List.cons_subset.mpr ⟨List.mem_cons_self, List.nil_subset _⟩)
  · exact accounts_throw _
  · exact entered _ _

/-- Compiling the predicate of a non-terminal, whether there is a rule for it or not. -/
theorem offers_predicate : ∀ fuel stem, Offers (Matcher.predicate language fuel stem)
  | 0, stem => by
    rw [Matcher.predicate]
    exact offers_sharedPredicate fun _ _ => accounts_throw _
  | fuel + 1, stem => by
    rw [Matcher.predicate]
    refine offers_sharedPredicate fun rule given => ?_
    have tests : Accounts given callsAll (alternativeTests
        (compileWith language (Matcher.predicate language fuel)) env rule.alternatives) :=
      accounts_alternativeTests (offers_compileWith (offers_predicate fuel)) env
    have wraps : ∀ code, callsAll (predicateBody code) ⊆ callsAll code := by simp [predicateBody]
    exact accounts_shareNew (opening_withPredicate language.name stem) tests wraps

/-- Compiling the matcher of a pattern of a language. -/
theorem offers_compile (language : Language) (pattern : Pattern) :
    Offers (compile language pattern) :=
  offers_compileWith (offers_predicate language.rules.length) pattern

/-- A matcher of whole terms is defined when it is compiled: its name never waits. -/
theorem leaves_compileTop {pending : List Symbol} {before : Draft}
    (ledger : Ledger pending before) (language : Language) (prepared : Prepared) :
    Leaves pending before (fun name after => name ∈ after.definitions)
      ((compileTop language prepared).run before) := by
  have compiled := offers_compile language prepared.pattern [] pending before ledger
    (List.nil_subset _)
  rw [compileTop, run_bind_eq]
  generalize (compile language prepared.pattern).run before = ended at compiled ⊢
  rcases ended with ⟨fault | inner, middle⟩
  · exact compiled
  · obtain ⟨extended, kept, held⟩ := compiled
    refine Leaves.after extended ?_
    obtain ⟨name, _, drawn⟩ : ∃ name after,
        Yields (freshFunction "matches" language.name) middle name after := ⟨_, _, rfl⟩
    obtain ⟨numbered, rfl⟩ := yields_freshFunction drawn
    dsimp only
    rw [run_bind_eq, show (freshFunction "matches" language.name).run middle = _ from drawn]
    let ready : Draft := { middle with
      nameCount := middle.nameCount + 1
      localCount := middle.localCount + 1 + 1 + 1 + 1 + 1 }
    let body := topBody prepared.synthetic inner ("rs" ++ toString middle.localCount)
      ("out" ++ toString (middle.localCount + 1)) ("m" ++ toString (middle.localCount + 2))
      ("h" ++ toString (middle.localCount + 3)) ("m" ++ toString (middle.localCount + 4))
    change Leaves pending middle _
      (.ok name, { ready with functions := ready.functions ++ [.define name [whole] body] })
    have calls : callsAll body ⊆ ready.reserved := by
      refine List.Subset.trans (fun callee called => ?_) held
      simpa [body, topBody, callOnWhole] using called
    have waits : Ledger pending ready := kept.retain rfl rfl (Nat.le_succ _)
    have named : (name :: (pending ++ ready.definitions)).Nodup :=
      List.nodup_cons.mpr ⟨kept.fresh numbered, kept.named⟩
    refine ⟨⟨List.Subset.refl _, ?_⟩, waits.define named ⟨_, Nat.lt_succ_self _, numbered⟩
      (List.Subset.refl _) (List.subset_cons_self _ _) calls, ?_⟩
    · rw [definitions_append_define]
      exact List.subset_append_left _ _
    · dsimp only
      rw [definitions_append_define]
      exact List.mem_append_right _ List.mem_cons_self

/-- A call of the generator of matchers for a language. -/
inductive Request where
  /-- The matcher of a pattern, which need not be prepared. -/
  | matcher (language : Language) (pattern : Pattern)
  /-- The predicate of a non-terminal, for which there need not be a rule. -/
  | predicate (language : Language) (stem : Symbol)
  /-- The matcher of whole terms. -/
  | topLevel (language : Language) (prepared : Prepared)

/-- What a call compiles. -/
def Request.answer : Request → Drafting Symbol
  | .matcher language pattern => compile language pattern
  | .predicate language stem => compilePredicate language stem
  | .topLevel language prepared => compileTop language prepared

/-- Serve calls one after the other, each on the draft that the ones before it leave behind, whether
they succeed or fail. -/
def serve : List Request → Draft → List (Except Fault Symbol) × Draft
  | [], draft => ([], draft)
  | request :: rest, draft =>
    let (answer, after) := request.answer.run draft
    let (answers, last) := serve rest after
    (answer :: answers, last)

/-- A name is lost in a sequence of calls: one of them reserves it, and fails before it is
defined. -/
inductive Lost (name : Symbol) : List Request → Draft → Prop
  | fails {request : Request} {rest : List Request} {before after : Draft} {fault : Fault}
      (failed : request.answer.run before = (.error fault, after)) (new : name ∉ before.reserved)
      (left : name ∈ after.unfinished) : Lost name (request :: rest) before
  | later {request : Request} {rest : List Request} {before : Draft}
      (lost : Lost name rest (request.answer.run before).2) : Lost name (request :: rest) before

section Serving

variable {pending : List Symbol} {before : Draft}

theorem leaves_answer (ledger : Ledger pending before) (request : Request) :
    Leaves pending before
      (fun name after => name ∈ after.reserved ∨ name ∈ after.definitions)
      (request.answer.run before) := by
  have supplied : ∀ {action}, Offers action → Leaves pending before
      (fun name after => name ∈ after.reserved ∨ name ∈ after.definitions)
      (action.run before) := fun offers =>
    (offers [] pending before ledger (List.nil_subset _)).imp fun _ _ held =>
      .inl (held List.mem_cons_self)
  cases request with
  | matcher language pattern => exact supplied (offers_compile language pattern)
  | predicate language stem => exact supplied (offers_predicate _ stem)
  | topLevel language prepared =>
    exact (leaves_compileTop ledger language prepared).imp fun _ _ => .inr

/-- What a call leaves unfinished was unfinished before, or the call has reserved it and failed. -/
theorem mem_unfinished_answer (ledger : Ledger pending before) (request : Request) (name : Symbol) :
    name ∈ (request.answer.run before).2.unfinished ↔ name ∈ before.unfinished ∨
      (∃ fault, (request.answer.run before).1 = .error fault) ∧ name ∉ before.reserved ∧
        name ∈ (request.answer.run before).2.unfinished := by
  obtain ⟨extended, more, kept, succeeds⟩ := (leaves_answer ledger request).ledger
  rw [kept.mem_unfinished, ledger.mem_unfinished, List.mem_append]
  constructor
  · intro waits
    cases answer : (request.answer.run before).1 with
    | ok result =>
      rw [(succeeds result answer).1] at waits
      exact .inl (waits.resolve_left nofun)
    | error fault =>
      by_cases new : name ∉ before.reserved
      · exact .inr ⟨⟨fault, rfl⟩, new, waits⟩
      · have undefined := (List.nodup_append'.mp kept.named).2.2 (List.mem_append.mpr waits)
        rcases List.mem_append.mp (ledger.covered (not_not.mp new)) with earlier | defined
        · exact .inl earlier
        · exact absurd (extended.definitions defined) undefined
  · rintro (earlier | ⟨_, _, waits⟩)
    · exact .inr earlier
    · exact waits

/-- How calls are served: the draft keeps to the ledger, knows all names that are returned, and has
no definition for the names that are lost. -/
structure Served (requests : List Request) (before : Draft) (answers : List (Except Fault Symbol))
    (after : Draft) : Prop where
  extended : before.Extends after
  ledger : ∃ pending, Ledger pending after
  known : ∀ name, .ok name ∈ answers → name ∈ after.reserved ∨ name ∈ after.definitions
  unfinished : ∀ name,
    name ∈ after.unfinished ↔ name ∈ before.unfinished ∨ Lost name requests before

theorem lost_cons {name : Symbol} {request : Request} {rest : List Request} :
    Lost name (request :: rest) before ↔
      ((∃ fault, (request.answer.run before).1 = .error fault) ∧ name ∉ before.reserved ∧
        name ∈ (request.answer.run before).2.unfinished) ∨
      Lost name rest (request.answer.run before).2 := by
  constructor
  · intro lost
    cases lost with
    | fails failed new left =>
      rw [failed]
      exact .inl ⟨⟨_, rfl⟩, new, left⟩
    | later lost => exact .inr lost
  · rintro (⟨⟨fault, failed⟩, new, left⟩ | lost)
    · exact .fails (Prod.ext failed rfl) new left
    · exact .later lost

/-- One call after the other keeps to the ledger. -/
theorem served : ∀ (requests : List Request) {pending : List Symbol} {before : Draft},
    Ledger pending before →
      Served requests before (serve requests before).1 (serve requests before).2
  | [], pending, before, ledger =>
    { extended := .refl before
      ledger := ⟨pending, ledger⟩
      known := nofun
      unfinished := fun _ => (or_iff_left nofun).symm }
  | request :: rest, pending, before, ledger => by
    obtain ⟨extended, more, kept, succeeds⟩ := (leaves_answer ledger request).ledger
    have others := served rest kept
    refine
      { extended := extended.trans others.extended
        ledger := others.ledger
        known := fun name listed => ?_
        unfinished := fun name => ?_ }
    · rcases List.mem_cons.mp listed with first | later
      · exact ((succeeds name first.symm).2).imp (others.extended.reserved ·)
          (others.extended.definitions ·)
      · exact others.known name later
    · rw [lost_cons, ← or_assoc, ← mem_unfinished_answer ledger]
      exact others.unfinished name

/-- After any calls on one draft, whichever of them fail, no function is defined twice. A name that
a call returns, or that the code of a function calls, has its one definition exactly if it is not
lost: no call that failed has reserved it. -/
theorem serve_defines_iff (requests : List Request) :
    let answers := (serve requests .empty).1
    let code : Module := ⟨[], (serve requests .empty).2.statements⟩
    code.functionNames.Nodup ∧
      (∀ name, .ok name ∈ answers →
        (code.functionNames.count name = 1 ↔ ¬ Lost name requests .empty)) ∧
      ∀ function parameters body, .define function parameters body ∈ code.body →
        ∀ callee ∈ callsAll body,
          (code.functionNames.count callee = 1 ↔ ¬ Lost callee requests .empty) := by
  intro answers code
  have served := served requests ledger_empty
  obtain ⟨pending, ledger⟩ := served.ledger
  have names : code.functionNames = (serve requests .empty).2.definitions :=
    functionNames_statements _ _
  have lost : ∀ name, name ∈ (serve requests .empty).2.unfinished ↔ Lost name requests .empty :=
    fun name => (served.unfinished name).trans (or_iff_right nofun)
  rw [names]
  refine ⟨(List.nodup_append'.mp ledger.named).2.1, fun name returned => ?_,
    fun function parameters body listed callee called => ?_⟩
  · rw [← lost]
    exact ledger.count_eq_one_iff (served.known name returned)
  · have defined := define_mem_statements.mp listed
    rw [← lost]
    exact ledger.count_eq_one_iff (.inl (ledger.closed _ _ _ defined called))

end Serving

/-- The grammar `n ::= number`. -/
def numbers : LanguageDefinition := ⟨"L", [⟨"n", [.unresolved "number"], .whole 0⟩]⟩

/-- Two calls for the matcher of a sequence with an unresolved name, and one for a predicate. -/
def interruptedCalls (language : Language) : List Request :=
  [.matcher language (.sequence [.unresolved "x"]), .matcher language (.sequence [.unresolved "x"]),
    .predicate language "n"]

/-- Whether a name is returned. -/
def returns (answers : List (Except Fault Symbol)) (name : Symbol) : Bool :=
  answers.any fun answer => answer.toOption == some name

theorem mem_of_returns {answers : List (Except Fault Symbol)} {name : Symbol}
    (returned : returns answers name = true) : .ok name ∈ answers := by
  obtain ⟨answer, listed, same⟩ := List.any_eq_true.mp returned
  cases answer with
  | error fault => cases same
  | ok other => rwa [← Option.some_inj.mp (beq_iff_eq.mp same)]

/-- The first call fails, the second returns the name that it has lost, and the third is not
concerned. -/
theorem exists_interruptedCalls :
    ∃ language,
      returns (serve (interruptedCalls language) .empty).1 "match_sequence_0" = true ∧
      returns (serve (interruptedCalls language) .empty).1 "isa_L_n_1" = true ∧
      (Module.mk [] (serve (interruptedCalls language) .empty).2.statements).functionNames =
        ["match_builtin_number_2", "isa_L_n_1"] := by
  have tested : (Language.define numbers (.whole 0)).toOption.any (fun language =>
      let served := serve (interruptedCalls language) .empty
      returns served.1 "match_sequence_0" && (returns served.1 "isa_L_n_1" &&
        decide ((Module.mk [] served.2.statements).functionNames =
          ["match_builtin_number_2", "isa_L_n_1"]))) = true := by
    decide +kernel
  obtain ⟨language, _, shown⟩ := (Option.any_eq_true _ _).mp tested
  obtain ⟨lost, others⟩ := Bool.and_eq_true_iff.mp shown
  obtain ⟨kept, names⟩ := Bool.and_eq_true_iff.mp others
  exact ⟨language, lost, kept, of_decide_eq_true names⟩

/-- One of two names that are returned is lost. -/
theorem serve_defines_iff_interruptedCalls :
    ∃ requests : List Request,
      (.ok "match_sequence_0" ∈ (serve requests .empty).1 ∧
        Lost "match_sequence_0" requests .empty) ∧
      .ok "isa_L_n_1" ∈ (serve requests .empty).1 ∧ ¬ Lost "isa_L_n_1" requests .empty := by
  obtain ⟨language, lost, kept, names⟩ := exists_interruptedCalls
  have defines := (serve_defines_iff (interruptedCalls language)).2.1
  rw [names] at defines
  have first := mem_of_returns lost
  have last := mem_of_returns kept
  refine ⟨interruptedCalls language, ⟨first, ?_⟩, last, (defines _ last).mp (by decide)⟩
  exact not_not.mp ((defines _ first).not.mp (by decide))

/-- A name that is returned need not be defined. -/
theorem serve_not_defines : ¬ ∀ (requests : List Request) (name : Symbol),
    .ok name ∈ (serve requests .empty).1 →
      (Module.mk [] (serve requests .empty).2.statements).functionNames.count name = 1 := by
  intro defines
  obtain ⟨language, lost, _, names⟩ := exists_interruptedCalls
  have once := defines _ _ (mem_of_returns lost)
  rw [names] at once
  exact absurd once (by decide)

end Matcher

end Reduct
