import Reduct.Proofs.Loading
import Reduct.Proofs.TemplateCode

/-!
# The results of compiled constructions

The function that is compiled for an annotated template gives, whenever it gives a value, the term
that the template denotes. The functions that the template calls may mean anything, as long as
they give terms and leave the cells of their caller as they are.
-/

namespace Reduct

open Draft Template Construction

/-- The functions of a machine mean what a setting says: on terms, every call that returns gives a
term that the function may give, and leaves the cells of the store as they were. -/
structure Machine.Means (machine : Machine) (table : Table Symbol) (setting : Setting)
    (foreigns : List (Symbol × InsertMode)) : Prop where
  applied : ∀ function target, table.find? function = some target →
    ∀ argument store calls journal fuel,
      Answers .lax True (fun _ => True) (machine.moved store calls journal)
        (GivesTerm store (setting.applied function argument))
        ((machine.moved store calls journal).call fuel target [.term argument])
  called : ∀ function mode, (function, mode) ∈ foreigns →
    ∀ (arguments : List Term) store calls journal fuel,
      Answers .lax True (fun _ => True) (machine.moved store calls journal)
        (GivesTerm store (setting.called function arguments))
        ((machine.moved store calls journal).call fuel function (arguments.map Value.term))

namespace Machine

theorem mapM_toTerm (terms : List Term) :
    (terms.map Value.term).mapM Value.toTerm = Except.ok terms := by
  induction terms with
  | nil => rfl
  | cons term rest ih =>
    rw [List.map_cons, List.mapM_cons, ih]
    rfl

/-- What a function of the host gives, on terms. -/
theorem callHost_eq {machine : Machine} {function : Symbol} {body : List Term → Except String Term}
    (found : machine.host.find? function = some body) (arguments : List Term) (store : Store)
    (calls : CallStack) (journal : Journal) :
    (machine.moved store calls journal).callHost function (arguments.map Value.term) =
      (match body arguments with
        | .ok term => .ok (.term term)
        | .error message => .error (.foreign function message),
        machine.moved store calls (journal.record function)) := by
  have same : (machine.moved store calls journal).host.find? function = some body := found
  simp only [callHost, same, mapM_toTerm, bind, Except.bind]
  rfl

/-- A function of the host means what it computes. -/
theorem answers_host {machine : Machine} {function : Symbol} {arguments : List Term}
    (free : machine.functions.find? function = none) (store : Store) (calls : CallStack)
    (journal : Journal) (fuel : Nat) :
    Answers .lax True (fun _ => True) (machine.moved store calls journal)
      (GivesTerm store fun term => ∃ body, machine.host.find? function = some body ∧
        body arguments = .ok term)
      ((machine.moved store calls journal).call fuel function (arguments.map Value.term)) := by
  have undefined : (machine.moved store calls journal).functions.find? function = none := free
  have again : ∀ noted, machine.moved store calls noted =
      (machine.moved store calls journal).moved store (machine.moved store calls journal).calls
        noted := fun _ => rfl
  simp only [call, undefined]
  cases found : machine.host.find? function with
  | none =>
    have missing : (machine.moved store calls journal).host.find? function = none := found
    simp only [callHost, missing]
    exact again journal ▸ .failure trivial
  | some body =>
    rw [callHost_eq found]
    cases made : body arguments with
    | error message => exact again (journal.record function) ▸ .failure trivial
    | ok term =>
      exact again (journal.record function) ▸ .value ⟨term, rfl, ⟨body, rfl, made⟩, .refl store⟩

/-- What the functions of a machine mean is what calls of them in code give. -/
theorem Means.serves {machine : Machine} {table : Table Symbol} {setting : Setting}
    {foreigns : List (Symbol × InsertMode)} (means : machine.Means table setting foreigns)
    (count : Nat) :
    Serves (.upTo .lax True count) machine table setting .all (fun _ => True) foreigns where
  applied function target found argument _ _ store :=
    (calls_of_answers (means.applied function target found argument store) count).weaken
      fun _ _ ⟨term, same, gives, keeps⟩ => ⟨term, same, ⟨gives, trivial⟩, keeps⟩
  called function mode listed arguments _ _ store :=
    (calls_of_answers (means.called function mode listed arguments store) count).weaken
      fun _ _ ⟨term, same, gives, keeps⟩ => ⟨term, same, ⟨gives, trivial⟩, keeps⟩

end Machine

/-- A call of the construction of a template gives a value: it is compiled in some draft, the
machine carries a draft that has grown from there, its functions mean what the setting says, and
the bindings are in its store before the call. -/
inductive ConstructionGives (table : Table Symbol) (setting : Setting) (template : Template)
    (bindings : Bindings) : Value → Prop
  | call {annotated : Annotated} {before after draft : Draft} {name : Symbol}
      {machine last : Machine} {place fuel : Nat} {value : Value}
      (accepted : template.annotate setting.depths setting.metafunctions = .ok annotated)
      (compiles : Yields (compile table annotated) before name after) (grows : after.Grows draft)
      (carries : machine.Carries draft) (means : machine.Means table setting template.foreigns)
      (held : machine.store.cell? place = some (.bindings bindings))
      (returned : machine.call fuel name [.bindings place] = (.ok value, last)) :
      ConstructionGives table setting template bindings value

/-- The construction of an annotated template is compiled in every draft, and gives what the
template denotes for bindings that have a value of its depth for every variable. -/
theorem construction_gives_denoted {table : Table Symbol} {setting : Setting}
    {template : Template} {annotated : Annotated} {bindings : Bindings}
    (functions : ∀ function, setting.metafunctions.contains function = true →
      ∃ target, table.find? function = some target)
    (constants : template.Constants setting.depths fun term => term.reread = term)
    (accepted : template.annotate setting.depths setting.metafunctions = .ok annotated)
    (supplied : ∀ name depth, setting.depths.find? name = some depth →
      ∃ term, bindings.lookup name = some term ∧ setting.assignment name = some term ∧
        term.NestedTo depth) :
    (∀ before, ∃ name after, Yields (compile table annotated) before name after) ∧
      ∀ value, ConstructionGives table setting template bindings value →
        ∃ term, value = .term term ∧ Denotes setting template term := by
  refine ⟨exists_compile functions accepted, ?_⟩
  rintro value ⟨again, compiles, grows, carries, means, held, returned⟩
  have fine : template.Constants setting.depths fun term => term.reread = term ∧ True := by
    simpa only [and_true] using constants
  have supplies : Supplies setting (fun _ => True) template.symbols bindings := by
    intro name _ depth known
    obtain ⟨term, found, assigned, nested⟩ := supplied name depth known
    exact ⟨term, found, assigned, nested, trivial⟩
  obtain ⟨term, rfl, ⟨denotes, _⟩, _⟩ := Machine.call_of_partial
    (fun count => compile_performs Term.tidy_all carries functions fine (means.serves count) again
      compiles grows (safe_of_lax (fun _ => trivial) template []) held supplies) returned
  exact ⟨term, rfl, denotes⟩

/-- A whole run: a template is compiled in a new draft, further functions are added, the module is
loaded with the functions of a host, and the construction is called. No function of the module has
the name of a function that the template calls. -/
def constructionRun? (table : Table Symbol) (depths : Depths) (template : Template)
    (functions : List Statement) (host : Host) (bindings : Bindings) (fuel : Nat) : Option Value :=
  match template.annotate depths (SymbolSet.ofList table.keys) with
  | .error _ => none
  | .ok annotated =>
    match (compile table annotated).run .empty with
    | (.error _, _) => none
    | (.ok name, draft) =>
      ({ draft with functions := draft.functions ++ functions } : Draft).machine?.bind
        fun machine =>
          if template.foreigns.all fun used => !machine.functions.contains used.1 then
            match ({ machine.holding bindings with host := host } : Machine).call fuel name
              [.bindings 0] with
            | (.ok value, _) => some value
            | _ => none
          else none

/-- The steps of such a run. -/
theorem exists_of_constructionRun? {table : Table Symbol} {depths : Depths} {template : Template}
    {functions : List Statement} {host : Host} {bindings : Bindings} {fuel : Nat}
    (ran : (constructionRun? table depths template functions host bindings fuel).isSome = true) :
    ∃ annotated name after, ∃ draft : Draft, ∃ machine : Machine, ∃ value last,
      template.annotate depths (SymbolSet.ofList table.keys) = .ok annotated ∧
      Yields (compile table annotated) .empty name after ∧ after.Grows draft ∧
      (∀ statement ∈ functions, statement ∈ draft.functions) ∧ machine.Carries draft ∧
      (∀ function mode, (function, mode) ∈ template.foreigns →
        machine.functions.find? function = none) ∧ machine.host = host ∧
      machine.store.cell? 0 = some (.bindings bindings) ∧
      machine.call fuel name [.bindings 0] = (.ok value, last) := by
  unfold constructionRun? at ran
  split at ran
  · cases ran
  · rename_i annotated accepted
    split at ran
    · cases ran
    · rename_i name after compiled
      obtain ⟨value, result⟩ := Option.isSome_iff_exists.mp ran
      obtain ⟨machine, loaded, called⟩ := Option.bind_eq_some_iff.mp result
      obtain ⟨carries, _, store⟩ := Draft.carries_of_machine? loaded
      split at called
      · rename_i undefined
        split at called
        · rename_i last returned
          refine ⟨annotated, name, after, { after with functions := after.functions ++ functions },
            { machine.holding bindings with host := host }, _, last, accepted, compiled,
            ⟨List.prefix_refl _, fun _ listed => List.mem_append_left _ listed,
              fun _ _ found => found, fun _ _ found => found, fun _ _ found => found,
              Nat.le_refl _⟩, fun _ listed => List.mem_append_right _ listed,
            ⟨carries.functions, carries.constants⟩, ?_, rfl, ?_, returned⟩
          · intro function mode listed
            have missing := List.all_eq_true.mp undefined _ listed
            change machine.functions.find? function = none
            simpa [Table.contains] using missing
          · change (machine.store.addCell (.bindings bindings)).cell? 0 = _
            rw [store]
            rfl
        · cases called
      · cases called

/-- A template with an ellipsis, a metafunction, a host function whose children are spliced, and a
context. -/
def notes : Template :=
  .sequence
    [.repeated (.symbol "n_1"), .sequence [.symbol "double", .symbol "n_2"],
      .foreign "pair" [.repeated (.symbol "n_1"), .symbol "n_2"] .splice,
      .inHole (.symbol "c_1") (.symbol "n_2")]

/-- The depths of its variables. -/
def notesDepths : Depths := .ofList [("n_1", 1), ("n_2", 0), ("c_1", 0)]

/-- The function of its metafunction. -/
def notesTable : Table Symbol := .ofList [("double", "mf_double")]

/-- Values of its variables. -/
def notesBindings : Bindings :=
  ⟨.ofList [("n_1", [.collected [.integer 1, .integer 2]]), ("n_2", [.scalar (.integer 3)]),
    ("c_1", [.scalar (.sequence [.hole, .integer 4])])]⟩

/-- A host function that gives the sequence of its arguments. -/
def notesHost : Host := .ofList [("pair", fun arguments => .ok (.sequence arguments))]

/-- What the functions of the template mean: its metafunction gives its arguments back. -/
def notesSetting : Setting where
  depths := notesDepths
  metafunctions := SymbolSet.ofList notesTable.keys
  assignment := notesBindings.lookup
  applied _ argument term := term = argument
  called function arguments term :=
    ∃ body, notesHost.find? function = some body ∧ body arguments = .ok term

theorem construction_gives_denoted_notes :
    ∃ value, ConstructionGives notesTable notesSetting notes notesBindings value ∧
      ∃ term, value = .term term ∧ Denotes notesSetting notes term := by
  obtain ⟨annotated, name, after, draft, machine, value, last, accepted, compiles, grows, added,
    carries, undefined, host, held, returned⟩ := exists_of_constructionRun?
      (by decide +kernel : (constructionRun? notesTable notesDepths notes
        [.define "mf_double" ["args"] [.returns (.name "args")]] notesHost notesBindings
        1000).isSome = true)
  have doubled : machine.functions.find? "mf_double" =
      some ⟨["args"], [.returns (.name "args")]⟩ := carries.functions _ _ _ (added _ (by simp))
  have means : machine.Means notesTable notesSetting notes.foreigns := by
    constructor
    · intro function target found argument store calls journal fuel
      have listed := Table.mem_of_find?_ofList found
      have same : target = "mf_double" := by simp_all
      subst same
      refine Machine.answers_upTo trivial ⟨_, doubled, rfl, ?_⟩
      exact Runs.returns rfl ⟨argument, rfl, rfl, .refl store⟩
    · intro function mode listed arguments store calls journal fuel
      have answers := @Machine.answers_host machine function arguments
        (undefined function mode listed) store calls journal fuel
      rwa [host] at answers
  have functions : ∀ function, notesSetting.metafunctions.contains function = true →
      ∃ target, notesTable.find? function = some target := by
    intro function listed
    have same : function = "double" := by
      have named : (SymbolSet.ofList ["double"]).contains function = true := listed
      rw [SymbolSet.contains_ofList] at named
      simpa using named
    exact ⟨"mf_double", same ▸ rfl⟩
  have supplied : ∀ name depth, notesSetting.depths.find? name = some depth →
      ∃ term, notesBindings.lookup name = some term ∧ notesSetting.assignment name = some term ∧
        term.NestedTo depth := by
    intro name depth known
    have listed := Table.mem_of_find?_ofList known
    simp only [List.mem_cons, Prod.mk.injEq, List.not_mem_nil, or_false] at listed
    rcases listed with ⟨rfl, rfl⟩ | ⟨rfl, rfl⟩ | ⟨rfl, rfl⟩
    · exact ⟨.sequence [.integer 1, .integer 2], rfl, rfl, _, rfl, by decide, fun _ _ => trivial⟩
    · exact ⟨.integer 3, rfl, rfl, trivial⟩
    · exact ⟨.sequence [.hole, .integer 4], rfl, rfl, trivial⟩
  have each : ∀ name ∈ ["n_1", "double", "n_2", "c_1"], (Term.symbol name).reread = .symbol name := by
    decide
  have constants : notes.Constants notesDepths fun term => term.reread = term := by
    simp [notes, Template.Constants, Template.ConstantsAll, each]
  refine ⟨value, .call accepted compiles grows carries means held returned, ?_⟩
  exact (construction_gives_denoted functions constants accepted supplied).2 value
    (.call accepted compiles grows carries means held returned)

end Reduct
