import Reduct.Proofs.AgedRuns
import Reduct.Proofs.LoadedPrograms
import Reduct.Proofs.TamePrograms
import Reduct.Suite

/-!
# Isolation of entries

One machine serves all entries of a specification, one after the other. No call that returns
leaves a trace that a later call can tell: the same calls are under way, the functions and the
constants are as they were, and what has been added to the store is out of reach. So an entry has
the same result in every run that selects it, and the same as by itself on a machine that was just
loaded.
-/

namespace Reduct

/-- The selected results of a report, as a report. -/
def Report.selected (filter : Option String) (report : Report) : Report where
  results := report.results.filter fun result => result.entry.isSelected filter
  filtered :=
    report.filtered + (report.results.filter fun result => !result.entry.isSelected filter).length

namespace Machine

/-- The result of an entry on a machine, if the run of the entry returns. -/
def entryResult? (machine : Machine) (fuel : Nat) (entry : Entry) : Option EntryResult :=
  match (machine.call fuel entry.function []).1 with
  | .ok _ => some ⟨entry, none⟩
  | .error (.error cause) => some ⟨entry, some cause⟩
  | .error _ => none

/-- Calls leave no trace on a machine. -/
structure Isolates (machine : Machine) : Prop where
  /-- A machine that has served calls differs in its store and in what can be observed. -/
  served : ∀ {current : Machine}, machine.ServesCalls current → machine.Drifts current
  /-- What a run enters, at any depth, leaves the calls under way, the functions and the constants
  as they were when it has ended. -/
  nested : ∀ {current : Machine}, machine.ServesCalls current → ∀ {before inside last after : State},
    current.Reaches before → before.step = .more inside →
    State.During before.frames.length inside last → last.step = .more after →
    after.frames.length ≤ before.frames.length →
      after.frames = before.frames ∧ before.machine.Drifts after.machine
  /-- A call has the same result as before all other calls, up to the places in the store. -/
  repeatable : ∀ {current : Machine}, machine.ServesCalls current → ∃ age : Age, ∀ fuel function,
    ∀ terms : List Term, (current.call fuel function (terms.map .term)).1 =
      (machine.call fuel function (terms.map .term)).1.map (Value.shift age)

variable {machine current : Machine}

/-- A new store is younger than any other. -/
theorem ages_of_drifts (terms : ∀ name value, machine.globals.find? name = some value →
    ∃ term, value = .term term) (new : machine.store = .empty) (drifts : machine.Drifts current) :
    machine.Ages ⟨current.store.cells.size, current.store.pairCount⟩ current := by
  obtain ⟨store, journal, rfl⟩ := drifts
  refine ⟨rfl, rfl, terms, rfl, rfl, ?_⟩
  rw [new]
  refine ⟨rfl, rfl, fun place => ?_⟩
  exact Array.getElem?_eq_none (Nat.le_add_right _ place)

theorem isolates (tame : machine.IsTame) (terms : ∀ name value,
    machine.globals.find? name = some value → ∃ term, value = .term term)
    (new : machine.store = .empty) : machine.Isolates where
  served serves := serves.drifts tame
  nested serves _ _ _ _ reached entered during ended shallow := by
    obtain ⟨store, journal, rfl⟩ := serves.drifts tame
    have same : (machine.moved store machine.calls journal).IsTame := tame
    obtain ⟨calls, _, keeps⟩ := reached.keeps same
    exact keeps.returns same entered during ended shallow
  repeatable serves := by
    rename_i current
    have ages := ages_of_drifts terms new (serves.drifts tame)
    refine ⟨⟨current.store.cells.size, current.store.pairCount⟩, fun fuel function arguments => ?_⟩
    have same := (call_ages tame ages fuel function (arguments.map .term)).1
    rw [List.map_map] at same
    exact same

/-- Whatever calls have been served, an entry has the same result. -/
theorem Isolates.entryResult? (isolates : machine.Isolates) (serves : machine.ServesCalls current)
    (fuel : Nat) (entry : Entry) :
    current.entryResult? fuel entry = machine.entryResult? fuel entry := by
  obtain ⟨age, same⟩ := isolates.repeatable serves
  unfold Machine.entryResult?
  rw [show ([] : List Value) = ([] : List Term).map .term from rfl, same]
  match (machine.call fuel entry.function (([] : List Term).map .term)).1 with
  | .ok _ | .error (.error _) | .error (.misuse _) | .error .exhausted => rfl

theorem ServesCalls.value (serves : machine.ServesCalls current) {fuel : Nat} {function : Symbol}
    {arguments : List Value} {value : Value} {next : Machine}
    (called : current.call fuel function arguments = (.ok value, next)) : machine.ServesCalls next :=
  serves.call (show current.Returns fuel function arguments (.ok value) next from called)

theorem ServesCalls.failure (serves : machine.ServesCalls current) {fuel : Nat} {function : Symbol}
    {arguments : List Value} {cause : EvalError} {next : Machine}
    (called : current.call fuel function arguments = (.error (.error cause), next)) :
    machine.ServesCalls next :=
  serves.call (show current.Returns fuel function arguments (.error cause) next from called)

/-- A result is put before those of later entries. -/
theorem exists_add (rest : Except Failure Report × Machine) (result : EntryResult)
    (report : Report) :
    (∃ last, (rest.1.map (·.add result), rest.2) = (.ok report, last)) ↔
      ∃ others, report.results = result :: others ∧
        ∃ last, rest = (.ok ⟨others, report.filtered⟩, last) := by
  obtain ⟨answer, last⟩ := rest
  obtain ⟨results, filtered⟩ := report
  cases answer with
  | error failure => simp [Except.map]
  | ok found =>
    obtain ⟨others, count⟩ := found
    simp only [Except.map, Report.add, Prod.mk.injEq, Except.ok.injEq, Report.mk.injEq]
    constructor
    · rintro ⟨_, ⟨rfl, rfl⟩, rfl⟩
      exact ⟨others, rfl, last, ⟨rfl, rfl⟩, rfl⟩
    · rintro ⟨_, rfl, _, ⟨rfl, rfl⟩, rfl⟩
      exact ⟨last, ⟨rfl, rfl⟩, rfl⟩

/-- An entry that was not selected is counted. -/
theorem exists_skip (rest : Except Failure Report × Machine) (report : Report) :
    (∃ last, (rest.1.map (·.skip), rest.2) = (.ok report, last)) ↔
      ∃ count, report.filtered = count + 1 ∧ ∃ last, rest = (.ok ⟨report.results, count⟩, last) := by
  obtain ⟨answer, last⟩ := rest
  obtain ⟨results, filtered⟩ := report
  cases answer with
  | error failure => simp [Except.map]
  | ok found =>
    obtain ⟨others, count⟩ := found
    simp only [Except.map, Report.skip, Prod.mk.injEq, Except.ok.injEq, Report.mk.injEq]
    constructor
    · rintro ⟨_, ⟨rfl, rfl⟩, rfl⟩
      exact ⟨count, rfl, last, ⟨rfl, rfl⟩, rfl⟩
    · rintro ⟨_, rfl, _, ⟨rfl, rfl⟩, rfl⟩
      exact ⟨last, ⟨rfl, rfl⟩, rfl⟩

/-- Running entries gives the results that the selected ones have by themselves. -/
theorem Isolates.runEntries (isolates : machine.Isolates) (fuel : Nat) (filter : Option String)
    (entries : List Entry) : ∀ {current : Machine}, machine.ServesCalls current → ∀ {report : Report},
      (∃ last, current.runEntries fuel filter entries = (.ok report, last)) ↔
        (entries.filter (·.isSelected filter)).mapM (machine.entryResult? fuel) =
            some report.results ∧
          report.filtered = (entries.filter fun entry => !entry.isSelected filter).length := by
  induction entries with
  | nil =>
    intro current _ report
    obtain ⟨results, filtered⟩ := report
    simp [Machine.runEntries, Report.empty, eq_comm]
  | cons entry rest ih =>
    intro current serves report
    rw [Machine.runEntries]
    by_cases selected : entry.isSelected filter = true
    · have own := isolates.entryResult? serves fuel entry
      rw [if_pos selected, List.filter_cons_of_pos selected, List.mapM_cons,
        List.filter_cons_of_neg (by simp [selected]), ← own]
      -- The results of the later entries are those of a machine that has served one more call.
      have later : ∀ {next : Machine} {result : EntryResult}, machine.ServesCalls next →
          ((∃ last, ((next.runEntries fuel filter rest).1.map (·.add result),
              (next.runEntries fuel filter rest).2) = (.ok report, last)) ↔
            (do
              let results ← (rest.filter (·.isSelected filter)).mapM (machine.entryResult? fuel)
              pure (result :: results)) = some report.results ∧
            report.filtered = (rest.filter fun entry => !entry.isSelected filter).length) := by
        intro next result serving
        simp only [exists_add, ih serving]
        constructor
        · rintro ⟨others, same, found, count⟩
          rw [found, same]
          exact ⟨rfl, count⟩
        · rintro ⟨found, count⟩
          obtain ⟨others, each, same⟩ := Option.bind_eq_some_iff.mp found
          exact ⟨others, (Option.some.inj same).symm, each, count⟩
      unfold Machine.entryResult?
      match called : current.call fuel entry.function [] with
      | (.ok value, next) => exact later (serves.value called)
      | (.error (.error cause), next) => exact later (serves.failure called)
      | (.error .exhausted, next) => simp
      | (.error (.misuse cause), next) => simp
    · rw [if_neg selected, List.filter_cons_of_neg selected,
        List.filter_cons_of_pos (by simp [selected]), List.length_cons]
      simp only [exists_skip, ih serves]
      constructor
      · rintro ⟨count, same, found, rfl⟩
        exact ⟨found, same⟩
      · rintro ⟨found, same⟩
        exact ⟨_, same, found, rfl⟩

/-- The results of entries are theirs, so those of the selected entries can be selected. -/
theorem mapM_entryResult? {fuel : Nat} {entries : List Entry} :
    ∀ {results : List EntryResult}, entries.mapM (machine.entryResult? fuel) = some results →
      results.map (·.entry) = entries ∧
      (∀ result ∈ results, machine.entryResult? fuel result.entry = some result) ∧
      ∀ filter, (entries.filter (·.isSelected filter)).mapM (machine.entryResult? fuel) =
        some (results.filter fun result => result.entry.isSelected filter) := by
  induction entries with
  | nil =>
    intro results each
    rw [List.mapM_nil] at each
    cases each
    exact ⟨rfl, List.forall_mem_nil _, fun _ => rfl⟩
  | cons entry rest ih =>
    intro results each
    rw [List.mapM_cons] at each
    obtain ⟨result, here, each⟩ := Option.bind_eq_some_iff.mp each
    obtain ⟨others, later, same⟩ := Option.bind_eq_some_iff.mp each
    cases same
    have own : result.entry = entry := by
      unfold Machine.entryResult? at here
      split at here <;> cases here <;> rfl
    obtain ⟨entries, results, selected⟩ := ih later
    refine ⟨by rw [List.map_cons, own, entries], ?_, fun filter => ?_⟩
    · exact List.forall_mem_cons.mpr ⟨by rw [own, here], results⟩
    · by_cases chosen : entry.isSelected filter = true
      · rw [List.filter_cons_of_pos chosen, List.mapM_cons, here, selected filter,
          List.filter_cons_of_pos (by rw [own]; exact chosen)]
        rfl
      · rw [List.filter_cons_of_neg chosen, selected filter,
          List.filter_cons_of_neg (by rw [own]; exact chosen)]

end Machine

/-- More fuel does not change a run that has ended. -/
theorem State.run_add {fuel : Nat} (more : Nat) : ∀ {state : State},
    (run fuel state).flow ≠ .error .exhausted → run (fuel + more) state = run fuel state := by
  induction fuel with
  | zero => exact fun cut => absurd rfl cut
  | succ fuel ih =>
    intro state ended
    rw [show fuel + 1 + more = fuel + more + 1 by omega]
    match stepped : state.step with
    | .more next =>
      rw [run_more stepped] at ended
      rw [run_more stepped, run_more stepped]
      exact ih ended
    | .ended outcome => rw [run_ended stepped, run_ended stepped]

namespace Program

/-- A module that is loaded with some fuel is loaded with more. -/
theorem loads_of_load {program : Program} {fuel : Nat} {host : Host} {limit : Option Nat}
    {silent : Bool} {machine : Machine}
    (loaded : Machine.load program.code fuel host limit silent = (.ok (), machine)) :
    program.Loads host limit silent machine := by
  refine ⟨fuel, fun enough above => ?_⟩
  obtain ⟨more, rfl⟩ := Nat.exists_eq_add_of_le above
  unfold Machine.load at loaded ⊢
  dsimp only at loaded ⊢
  rw [State.run_add]
  · exact loaded
  · intro cut
    generalize State.run fuel _ = outcome at loaded cut
    obtain ⟨flow, locals, last⟩ := outcome
    cases cut
    cases loaded

namespace Accepted

variable {source : String} {prints : Bool} (accepted : Accepted source prints)

/-- The functions of a loaded program have tame code. -/
theorem tame {host : Host} {limit : Option Nat} {silent : Bool} {loaded : Machine}
    (loads : accepted.program.Loads host limit silent loaded) : loaded.IsTame := by
  intro name definition found
  have ready := accepted.loaded loads
  by_contra wild
  have free : ∀ parameters body,
      Statement.define name parameters body ∉ accepted.compilation.draft.functions := by
    intro parameters body listed
    have known := ready.carries.functions name parameters body listed
    rw [found] at known
    cases known
    exact wild (accepted.compilation.allTame name parameters body listed)
  rw [ready.foreign name free] at found
  cases found

/-- Entries do not interfere. Calls of any kind on the machine of a loaded program, returning with
a value or with a failure, leave no trace. And if the run of all entries returns, then every entry
has the same result, its message included, by itself on the machine that was just loaded, and
in the run of any selection that it is in. -/
theorem entries_isolated {host : Host} {limit : Option Nat} {silent : Bool} {loaded : Machine}
    (loads : accepted.program.Loads host limit silent loaded) :
    loaded.Isolates ∧ ∀ fuel report last,
      accepted.program.run fuel none host limit silent = (.ok report, last) →
        report.results.map (·.entry) = accepted.program.entries ∧
        (∀ result ∈ report.results, loaded.entryResult? fuel result.entry = some result) ∧
        ∀ filter, ∃ other,
          accepted.program.run fuel filter host limit silent = (.ok (report.selected filter), other) := by
  have ready := accepted.loaded loads
  have isolates := Machine.isolates (accepted.tame loads) ready.globals ready.store
  refine ⟨isolates, fun fuel report last ran => ?_⟩
  unfold Program.run at ran
  match load : Machine.load accepted.program.code fuel host limit silent with
  | (.error failure, machine) =>
    rw [load] at ran
    cases ran
  | (.ok (), machine) =>
    rw [load] at ran
    cases loads.unique (loads_of_load load)
    have all := (isolates.runEntries fuel none accepted.program.entries .none).mp ⟨last, ran⟩
    have none_ : ∀ entry : Entry, entry.isSelected none = true := fun _ => rfl
    simp only [none_, List.filter_true, Bool.not_true, List.filter_false, List.length_nil] at all
    obtain ⟨each, count⟩ := all
    obtain ⟨entries, results, selected⟩ := Machine.mapM_entryResult? each
    refine ⟨entries, results, fun filter => ?_⟩
    unfold Program.run
    rw [load]
    refine (isolates.runEntries fuel filter accepted.program.entries .none).mpr
      ⟨selected filter, ?_⟩
    rw [Report.selected, count, Nat.zero_add, ← entries, List.filter_map, List.length_map]
    rfl

end Accepted

/-- An assertion that fails, and a match that is found. -/
def failsFirst : String :=
  "(define-language L (n ::= number)) (redex-match-assert-equal L n 1 (())) (redex-match L n 2)"

/-- Which entries of a specification pass, if it is accepted and its run returns. -/
def passes? (source : String) (fuel : Nat) (filter : Option String) : Option (List Bool) :=
  match ofSource source false with
  | .error _ => none
  | .ok program =>
    match program.run fuel filter .empty none true with
    | (.ok report, _) => some (report.results.map (·.isPassed))
    | (.error _, _) => none

theorem exists_of_passes? {source : String} {fuel : Nat} {filter : Option String}
    {passed : List Bool} (sized : source.utf8ByteSize ≤ mostCount)
    (ran : passes? source fuel filter = some passed) :
    ∃ accepted : Accepted source false, ∃ report last,
      accepted.program.run fuel filter .empty none true = (.ok report, last) ∧
      report.results.map (·.isPassed) = passed := by
  unfold passes? at ran
  split at ran
  · cases ran
  · rename_i program compiled
    obtain ⟨accepted, rfl⟩ := (ofSource_eq_ok sized).mp compiled
    split at ran
    · rename_i report last same
      cases ran
      exact ⟨accepted, report, last, same, rfl⟩
    · cases ran

theorem entries_isolated_failsFirst :
    ∃ accepted : Accepted failsFirst false, ∃ loaded report last,
      accepted.program.Loads .empty none true loaded ∧ loaded.Isolates ∧
      accepted.program.run 1000 none .empty none true = (.ok report, last) ∧
      report.results.map (·.isPassed) = [false, true] ∧
      ∀ filter, ∃ other, accepted.program.run 1000 filter .empty none true =
        (.ok (report.selected filter), other) := by
  obtain ⟨accepted, report, last, ran, passed⟩ :=
    exists_of_passes? (by decide +kernel)
      (by decide +kernel : passes? failsFirst 1000 none = some [false, true])
  obtain ⟨loaded, loads, _⟩ := accepted.exists_loads .empty none true
  obtain ⟨isolates, runs⟩ := accepted.entries_isolated loads
  exact ⟨accepted, loaded, report, last, loads, isolates, ran, passed, (runs 1000 report last ran).2.2⟩

end Program

end Reduct
