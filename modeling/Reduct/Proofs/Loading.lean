import Reduct.Proofs.CallResults
import Reduct.Proofs.CompiledMatchers

/-!
# Loading a compiled module

Loading the module of a draft gives a machine with the functions of the draft and with its
constants, as far as their written forms read back.
-/

namespace Reduct

namespace Draft

/-- The functions of a draft are definitions of distinct names. -/
structure Defines (draft : Draft) : Prop where
  each : ∀ statement ∈ draft.functions, Machine.isDefinition statement = true
  distinct : draft.definitions.Nodup

/-- The written forms of the constants of a draft are read as the constants. -/
def ReadsBack (draft : Draft) : Prop :=
  ∀ term ∈ draft.constants, Term.read term.text = .ok term.reread

/-- Whether the functions of a draft are definitions of distinct names, and its constants read
back. -/
def isLoadable (draft : Draft) : Bool :=
  draft.functions.all Machine.isDefinition && decide draft.definitions.Nodup &&
    draft.constants.all fun term =>
      match Term.read term.text with
      | .ok found => decide (found = term.reread)
      | .error _ => false

theorem defines_and_readsBack {draft : Draft} (loadable : draft.isLoadable = true) :
    draft.Defines ∧ draft.ReadsBack := by
  rw [isLoadable, Bool.and_eq_true, Bool.and_eq_true] at loadable
  obtain ⟨⟨each, distinct⟩, reads⟩ := loadable
  refine ⟨⟨List.all_eq_true.mp each, of_decide_eq_true distinct⟩, fun term listed => ?_⟩
  have back := List.all_eq_true.mp reads term listed
  split at back
  · rename_i found read
    rw [read, of_decide_eq_true back]
  · cases back

theorem constantName_inj {first second : Nat} (same : constantName first = constantName second) :
    first = second :=
  (append_toString_inj (by decide) (by decide) same).2

end Draft

namespace Machine

/-- The names that statements define. -/
def definedNames (statements : List Statement) : List Symbol :=
  statements.filterMap fun statement =>
    match statement with
    | .define name .. => some name
    | _ => none

/-- Defining functions changes the functions only. -/
theorem defineAll_eq (machine : Machine) (statements : List Statement) :
    ∃ functions, machine.defineAll statements = { machine with functions := functions } := by
  unfold defineAll
  induction statements generalizing machine with
  | nil => exact ⟨machine.functions, rfl⟩
  | cons statement rest ih =>
    rw [List.foldl_cons]
    cases statement with
    | define name parameters body =>
      obtain ⟨functions, same⟩ := ih (machine.define name parameters body)
      exact ⟨functions, same⟩
    | _ => exact ih machine

/-- A name that is not defined again keeps its function. -/
theorem find?_defineAll_of_free (statements : List Statement) {name : Symbol}
    (free : ∀ parameters body, .define name parameters body ∉ statements) (machine : Machine) :
    (machine.defineAll statements).functions.find? name = machine.functions.find? name := by
  unfold defineAll
  induction statements generalizing machine with
  | nil => rfl
  | cons statement rest ih =>
    have later := ih fun parameters body listed => free parameters body (.tail _ listed)
    rw [List.foldl_cons]
    cases statement with
    | define other parameters body =>
      have apart : other ≠ name := by
        rintro rfl
        exact free parameters body (.head _)
      exact (later _).trans (Table.find?_insert_ne _ _ apart)
    | _ => exact later machine

/-- A name that is defined once has its function. -/
theorem find?_defineAll {statements : List Statement} (distinct : (definedNames statements).Nodup)
    {name : Symbol} {parameters : List Symbol} {body : List Statement}
    (listed : .define name parameters body ∈ statements) (machine : Machine) :
    (machine.defineAll statements).functions.find? name = some ⟨parameters, body⟩ := by
  induction statements generalizing machine with
  | nil => cases listed
  | cons statement rest ih =>
    rw [definedNames, List.filterMap_cons] at distinct
    rcases List.mem_cons.mp listed with rfl | later
    · refine (find?_defineAll_of_free rest ?_ (machine.define name parameters body)).trans
        (Table.find?_insert_self _ _ _)
      intro others code again
      exact (List.nodup_cons.mp distinct).1 (List.mem_filterMap.mpr ⟨_, again, rfl⟩)
    · cases statement with
      | define other kept code =>
        exact ih (List.nodup_cons.mp distinct).2 later (machine.define other kept code)
      | _ => exact ih distinct later machine

/-- The variables after constants are read, the first one under a number. -/
def readConstants (start : Nat) : List Term → Table Value → Table Value
  | [], locals => locals
  | term :: rest, locals =>
    readConstants (start + 1) rest
      (locals.insert (Draft.constantName start) (.term term.reread))

/-- Constants that read back are read one by one. -/
theorem run_constants {constants : List Term}
    (reads : ∀ term ∈ constants, Term.read term.text = .ok term.reread) (machine : Machine)
    (more : Nat) : ∀ (start : Nat) (locals : Table Value),
      State.run (constants.length + 1 + more)
        ⟨.run (constants.mapIdx fun index => Draft.constantStatement (start + index)), locals, [],
          machine⟩ =
      ⟨.ok .done, readConstants start constants locals, machine⟩ := by
  induction constants with
  | nil =>
    intro start locals
    rw [List.length_nil, Nat.zero_add, Nat.add_comm]
    rfl
  | cons term rest ih =>
    intro start locals
    obtain ⟨first, others⟩ := List.forall_mem_cons.mp reads
    rw [List.mapIdx_cons]
    have shifted : (fun index => Draft.constantStatement (start + (index + 1))) =
        fun index => Draft.constantStatement (start + 1 + index) := by
      funext index
      rw [Nat.add_assoc, Nat.add_comm 1 index]
    rw [shifted, List.length_cons, show rest.length + 1 + 1 + more = rest.length + 1 + more + 1 by
      omega]
    refine (State.run_more ?_ _).trans (ih others (start + 1)
      (locals.insert (Draft.constantName start) (.term term.reread)))
    have value : Primitive.readTerm.apply machine.store [.string term.text] =
        .ok (.keep (.term term.reread)) := by
      change (match Term.read term.text with
        | .ok term => .ok (.keep (.term term))
        | .error fault => .error (.error (.unreadable fault.cause)) : Except Failure Change) = _
      rw [first]
    simp only [State.step, State.execute, Draft.constantStatement, State.evaluate, readAll,
      List.mapM_cons, List.mapM_nil, read, bind, Except.bind, pure, Except.pure, value]
    rfl

/-- A constant keeps its value once it is read. -/
theorem find?_readConstants_of_lt (constants : List Term) :
    ∀ (start index : Nat) (locals : Table Value), index < start →
      (readConstants start constants locals).find? (Draft.constantName index) =
        locals.find? (Draft.constantName index) := by
  induction constants with
  | nil => exact fun _ _ _ _ => rfl
  | cons term rest ih =>
    intro start index locals below
    refine (ih (start + 1) index _ (by omega)).trans (Table.find?_insert_ne _ _ ?_)
    intro same
    have equal := Draft.constantName_inj same
    omega

theorem find?_readConstants {constants : List Term} :
    ∀ (start : Nat) (locals : Table Value) {index : Nat} {term : Term},
      constants[index]? = some term →
      (readConstants start constants locals).find? (Draft.constantName (start + index)) =
        some (.term term.reread) := by
  induction constants with
  | nil => nofun
  | cons first rest ih =>
    intro start locals index term there
    cases index with
    | zero =>
      cases there
      exact (find?_readConstants_of_lt rest (start + 1) start _ (Nat.lt_succ_self _)).trans
        (Table.find?_insert_self _ _ _)
    | succ index =>
      rw [show start + (index + 1) = start + 1 + index by omega]
      exact ih (start + 1) _ there

/-- The variables that constants are read into hold terms. -/
theorem terms_of_readConstants (constants : List Term) :
    ∀ (start : Nat) (locals : Table Value),
      (∀ name value, locals.find? name = some value → ∃ term, value = .term term) →
      ∀ name value, (readConstants start constants locals).find? name = some value →
        ∃ term, value = .term term := by
  induction constants with
  | nil => exact fun _ _ terms => terms
  | cons first rest ih =>
    intro start locals terms
    refine ih (start + 1) _ fun name value found => ?_
    rw [Table.find?_insert] at found
    split at found
    · cases found
      exact ⟨_, rfl⟩
    · exact terms name value found

/-- Loading the module of a draft gives a machine that carries the draft, and has no functions
and no constants but terms besides. -/
theorem load_carries {draft : Draft} (defines : draft.Defines) (reads : draft.ReadsBack)
    (sources : List String) (host : Host) (limit : Option Nat) (silent : Bool) :
    ∃ machine, (∀ more, load ⟨sources, draft.statements⟩ (draft.constants.length + 1 + more) host
        limit silent = (.ok (), machine)) ∧ machine.Carries draft ∧
      (∀ name, (∀ parameters body, .define name parameters body ∉ draft.functions) →
        machine.functions.find? name = none) ∧
      (∀ name value, machine.globals.find? name = some value → ∃ term, value = .term term) ∧
      machine.host = host ∧ machine.store = .empty ∧ machine.calls = .empty limit := by
  have constants : ∀ statement ∈ draft.constants.mapIdx Draft.constantStatement,
      isDefinition statement = false := by
    intro statement listed
    obtain ⟨index, _, rfl⟩ := List.mem_mapIdx.mp listed
    rfl
  have kept : draft.statements.filter (fun statement => !isDefinition statement) =
      draft.constants.mapIdx fun index => Draft.constantStatement (0 + index) := by
    rw [Draft.statements, List.filter_append, List.filter_eq_self.mpr, List.filter_eq_nil_iff.mpr,
      List.append_nil]
    · simp only [Nat.zero_add]
    · intro statement listed
      rw [defines.each statement listed]
      decide
    · intro statement listed
      rw [constants statement listed]
      rfl
  obtain ⟨functions, same⟩ := (empty host limit silent).defineAll_eq draft.statements
  have ran := fun more =>
    run_constants reads ((empty host limit silent).defineAll draft.statements) more 0 .empty
  refine ⟨_, fun more => by simp only [load, kept, ran more]; rfl, ⟨?_, ?_⟩, ?_, ?_, ?_, ?_, ?_⟩
  · intro name parameters body listed
    refine find?_defineAll ?_ (List.mem_append_right _ listed) (empty host limit silent)
    have none : definedNames (draft.constants.mapIdx Draft.constantStatement) = [] := by
      refine List.filterMap_eq_nil_iff.mpr fun statement listed => ?_
      obtain ⟨index, _, rfl⟩ := List.mem_mapIdx.mp listed
      rfl
    have names : definedNames draft.statements = definedNames draft.functions := by
      refine (List.filterMap_append ..).trans ?_
      change definedNames (draft.constants.mapIdx Draft.constantStatement) ++ _ = _
      rw [none]
      rfl
    change (definedNames draft.statements).Nodup
    rw [names]
    exact defines.distinct
  · intro index term there
    have found := find?_readConstants 0 .empty there
    rw [Nat.zero_add] at found
    exact found
  · intro name free
    refine (find?_defineAll_of_free _ (fun parameters body listed => ?_) _).trans rfl
    rcases List.mem_append.mp listed with constant | function
    · cases constants _ constant
    · exact free parameters body function
  · exact terms_of_readConstants _ 0 .empty nofun
  · rw [same]
    rfl
  · rw [same]
    rfl
  · rw [same]
    rfl

end Machine

/-- The machine of a draft without host functions and without a limit of calls, if the draft can
be loaded. -/
def Draft.machine? (draft : Draft) : Option Machine :=
  if draft.isLoadable then
    match Machine.load ⟨[], draft.statements⟩ (draft.constants.length + 1 + 0) .empty none true with
    | (.ok _, machine) => some machine
    | _ => none
  else none

theorem Draft.carries_of_machine? {draft : Draft} {machine : Machine}
    (loaded : draft.machine? = some machine) :
    machine.Carries draft ∧ machine.calls.limit = none ∧ machine.store = .empty := by
  unfold machine? at loaded
  split at loaded
  · rename_i loadable
    obtain ⟨defines, reads⟩ := defines_and_readsBack loadable
    obtain ⟨other, same, carries, _, _, _, store, calls⟩ :=
      Machine.load_carries defines reads [] .empty none true
    rw [same 0] at loaded
    cases loaded
    exact ⟨carries, by rw [calls]; rfl, store⟩
  · cases loaded

/-- A machine whose store has one more cell, with bindings. -/
def Machine.holding (machine : Machine) (bindings : Bindings) : Machine :=
  { machine with store := machine.store.addCell (.bindings bindings) }

/-- The value of a call in a whole run: a language is defined, functions are compiled for it in a
new draft, the module is loaded, and the function that was compiled last is called. -/
def wholeRun? (definition : LanguageDefinition) (compile : Language → Drafting Symbol)
    (arguments : List Value) (bindings : Bindings) (fuel : Nat) : Option Value :=
  match Language.define definition default with
  | .error _ => none
  | .ok language =>
    match (compile language).run .empty with
    | (.error _, _) => none
    | (.ok name, draft) =>
      draft.machine?.bind fun machine =>
        match (machine.holding bindings).call fuel name arguments with
        | (.ok value, _) => some value
        | _ => none

/-- The steps of a whole run. -/
theorem exists_of_wholeRun? {definition : LanguageDefinition}
    {compile : Language → Drafting Symbol} {arguments : List Value} {bindings : Bindings}
    {fuel : Nat} (ran : (wholeRun? definition compile arguments bindings fuel).isSome = true) :
    ∃ language name draft, ∃ machine : Machine, ∃ value after,
      Language.define definition default = .ok language ∧
      Draft.Yields (compile language) .empty name draft ∧ machine.Carries draft ∧
      machine.calls.limit = none ∧ machine.store = Store.empty.addCell (.bindings bindings) ∧
      machine.call fuel name arguments = (.ok value, after) := by
  unfold wholeRun? at ran
  split at ran
  · cases ran
  · rename_i language accepted
    split at ran
    · cases ran
    · rename_i name draft compiled
      obtain ⟨value, result⟩ := Option.isSome_iff_exists.mp ran
      obtain ⟨machine, loaded, called⟩ := Option.bind_eq_some_iff.mp result
      obtain ⟨carries, unlimited, store⟩ := Draft.carries_of_machine? loaded
      split at called
      · rename_i value after returned
        refine ⟨language, name, draft, machine.holding bindings, value, after, accepted, compiled,
          ⟨carries.functions, carries.constants⟩, unlimited, ?_, returned⟩
        rw [Machine.holding, store]
      · cases called

end Reduct
