import Reduct.Proofs.FinalDrafts
import Reduct.Proofs.Loading

/-!
# Programs that are loaded

A specification that is accepted gives a program that can be loaded, on every host. The machine
then has exactly the functions of the program, and the constants that it was compiled with. So the
literal variables of a language are the same for all of its code, wherever in the specification
they are mentioned.
-/

namespace Reduct

theorem Machine.Carries.moved {machine : Machine} {draft : Draft} (carries : machine.Carries draft)
    (store : Store) (calls : CallStack) (journal : Journal) :
    (machine.moved store calls journal).Carries draft :=
  ⟨carries.functions, carries.constants⟩

namespace Program

open Draft Matcher

/-- Loading a program with enough fuel gives a machine. -/
def Loads (program : Program) (host : Host) (limit : Option Nat) (silent : Bool)
    (machine : Machine) : Prop :=
  ∃ enough, ∀ fuel, enough ≤ fuel →
    Machine.load program.code fuel host limit silent = (.ok (), machine)

theorem Loads.unique {program : Program} {host : Host} {limit : Option Nat} {silent : Bool}
    {first second : Machine} (one : program.Loads host limit silent first)
    (two : program.Loads host limit silent second) : first = second := by
  obtain ⟨few, one⟩ := one
  obtain ⟨many, two⟩ := two
  have same := (one (few + many) (by omega)).symm.trans (two (few + many) (by omega))
  cases same
  rfl

/-- A specification that is accepted: its text can be stored, it is read, and its forms are
compiled. -/
structure Accepted (source : String) (prints : Bool) where
  sized : source.utf8ByteSize ≤ mostCount
  forms : List Form
  written : Form.readAll source = .ok forms
  compilation : Compilation forms prints

/-- A specification that can be stored is accepted exactly if it is compiled. -/
theorem ofSource_eq_ok {source : String} {prints : Bool} {program : Program}
    (sized : source.utf8ByteSize ≤ mostCount) :
    ofSource source prints = .ok program ↔
      ∃ accepted : Accepted source prints, accepted.compilation.program = program := by
  constructor
  · intro compiled
    obtain ⟨forms, written, compiled⟩ := Except.bind_eq_ok.mp compiled
    obtain ⟨compilation, rfl⟩ := compile_eq_ok.mp compiled
    exact ⟨⟨sized, forms, written, compilation⟩, rfl⟩
  · rintro ⟨⟨_, forms, written, compilation⟩, rfl⟩
    exact Except.bind_eq_ok.mpr ⟨forms, written, compile_eq_ok.mpr ⟨compilation, rfl⟩⟩

/-- A machine that a program was loaded on, before anything is called. -/
structure Loaded (draft : Draft) (host : Host) (limit : Option Nat) (machine : Machine) :
    Prop where
  carries : machine.Carries draft
  foreign : ∀ name, (∀ parameters body, .define name parameters body ∉ draft.functions) →
    machine.functions.find? name = none
  globals : ∀ name value, machine.globals.find? name = some value → ∃ term, value = .term term
  host : machine.host = host
  store : machine.store = .empty
  calls : machine.calls = .empty limit

namespace Accepted

variable {source : String} {prints : Bool} (accepted : Accepted source prints)

/-- The program of an accepted specification. -/
def program : Program := accepted.compilation.program

theorem read : ∀ form ∈ accepted.forms, form.Read :=
  Form.read_readAll accepted.sized accepted.written

/-- The program of an accepted specification can be loaded. -/
theorem exists_loads (host : Host) (limit : Option Nat) (silent : Bool) :
    ∃ machine, accepted.program.Loads host limit silent machine ∧
      Loaded accepted.compilation.draft host limit machine := by
  obtain ⟨_, defines, legible, _⟩ :=
    accepted.compilation.final accepted.read (Form.composed_of_read accepted.read)
  have reads : accepted.compilation.draft.ReadsBack :=
    fun term listed => Term.Legible.read_text (legible term listed)
  obtain ⟨machine, loads, carries, foreign, globals, same, store, calls⟩ :=
    Machine.load_carries defines reads accepted.program.code.foreignSources host limit silent
  refine ⟨machine, ⟨accepted.compilation.draft.constants.length + 1, fun fuel enough => ?_⟩,
    carries, foreign, globals, same, store, calls⟩
  obtain ⟨more, rfl⟩ := Nat.exists_eq_add_of_le enough
  exact loads more

theorem loaded {host : Host} {limit : Option Nat} {silent : Bool} {machine : Machine}
    (loads : accepted.program.Loads host limit silent machine) :
    Loaded accepted.compilation.draft host limit machine := by
  obtain ⟨other, again, loaded⟩ := accepted.exists_loads host limit silent
  rwa [loads.unique again]

/-- What is compiled for a language of an accepted specification is as it should be. -/
theorem compiled {name : Symbol} {language : Language}
    (found : accepted.compilation.languages.find? name = some language) {machine : Machine}
    (carries : machine.Carries accepted.compilation.draft) :
    Compiled machine language accepted.compilation.draft :=
  accepted.compilation.compiled accepted.read found carries

end Accepted

/-- The forms and the draft of a specification, if it is accepted. -/
def stages? (source : String) (prints : Bool) : Option (List Form × Draft) :=
  match Form.readAll source with
  | .error _ => none
  | .ok forms =>
    match (defineNames forms).run .empty with
    | (.error _, _) => none
    | (.ok names, start) =>
      match (forms.mapM (prepareForm names)).run names.languages with
      | .error _ => none
      | .ok (prepared, languages) =>
        match (generateAll ⟨languages, names.metafunctions, prints⟩ (forms.zip prepared)).run
          start with
        | (.error _, _) => none
        | (.ok _, draft) => some (forms, draft)

theorem exists_accepted {source : String} {prints : Bool} {forms : List Form} {draft : Draft}
    (sized : source.utf8ByteSize ≤ mostCount) (stages : stages? source prints = some (forms, draft)) :
    ∃ accepted : Accepted source prints,
      accepted.forms = forms ∧ accepted.compilation.draft = draft := by
  unfold stages? at stages
  split at stages
  · cases stages
  · rename_i others written
    split at stages
    · cases stages
    · rename_i names start named
      split at stages
      · cases stages
      · rename_i prepared languages prepares
        split at stages
        · cases stages
        · rename_i additions last generates
          cases stages
          exact ⟨⟨sized, _, written, names, start, named, prepared, languages, prepares, additions,
            _, generates⟩, rfl, rfl⟩

end Program

end Reduct
