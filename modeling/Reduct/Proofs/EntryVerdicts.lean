import Reduct.Proofs.ClauseCalls
import Reduct.Proofs.EntryIsolation
import Reduct.Proofs.ProgramEntries

/-!
# The verdicts of entries

A run of a specification reports on the selected entries in the order of their forms, and an entry
passes exactly if what its form asserts holds. An assertion about matches holds if the matches of
its pattern are those expected, as the terms that symbols get, whatever their order and number. One
about a relation holds if the relation gives the terms expected, in any order and number. One about
a template holds if every pattern has a match, and the template builds what is expected from the
first of them.
-/

namespace Reduct

/-- When the entry of a form passes. -/
def World.Passes (world : World) : FormBody → Prop
  | .assertMatch language pattern term expected =>
    ∃ found resolved, world.languages.find? language = some found ∧
      found.resolved? pattern = some resolved ∧
      ∀ assignment, Matches found.reading resolved term assignment ↔
        ∃ pairs ∈ expected, assignment = fun symbol => pairs.lookup symbol
  | .assertTerm language bindings template expected =>
    ∃ level firsts, List.Forall₂ (fun binding first => ∃ others,
        world.found language binding.1 binding.2 = some (.ok (first :: others))) bindings firsts ∧
      Template.instantiate (world.scene (world.applyAt level)
        (world.depths language (bindings.map (·.1))) (Bindings.joint firsts)) template =
          some (.ok expected)
  | .assertReduction relation term expected =>
    ∃ definition level results, world.relation? relation = some definition ∧
      world.relateAt level definition term = some (.ok results) ∧
      ∀ result, result ∈ results ↔ result ∈ expected
  | _ => True

/-- Whether a form has an entry that is selected. -/
def Form.isSelected (filter : Option String) (form : Form) : Bool :=
  match form.entry?, filter with
  | some (description, _), some text => Text.contains description text
  | some _, none => true
  | none, _ => false

/-- Items of related lists are selected together. -/
theorem forall₂_filter {α β : Type} {related : α → β → Prop} {one : α → Bool} {two : β → Bool}
    (alike : ∀ item other, related item other → one item = two other) {items : List α}
    {others : List β} (all : List.Forall₂ related items others) :
    List.Forall₂ related (items.filter one) (others.filter two) := by
  induction all with
  | nil => exact .nil
  | cons first _ ih =>
    rw [List.filter_cons, List.filter_cons, alike _ _ first]
    split
    · exact .cons first ih
    · exact ih

/-- Lists hold the same members. -/
theorem sameMembers_iff {α : Type} [DecidableEq α] {left right : List α} :
    sameMembers left right = true ↔ ∀ item, item ∈ left ↔ item ∈ right := by
  simp only [sameMembers, Bool.and_eq_true, List.all_eq_true, decide_eq_true_eq]
  constructor
  · rintro ⟨one, two⟩ item
    exact ⟨one item, two item⟩
  · exact fun same => ⟨fun item => (same item).mp, fun item => (same item).mpr⟩

/-- The bindings that are built from what is expected give each symbol its term. -/
theorem Bindings.lookup_addAll? {expected : List (List (Symbol × Term))} {results : List Bindings}
    (built : expected.mapM (fun pairs => empty.addAll? pairs) = some results)
    (assignment : Assignment) : (∃ bindings ∈ results, bindings.lookup = assignment) ↔
      ∃ pairs ∈ expected, assignment = fun symbol => pairs.lookup symbol := by
  have each : List.Forall₂ (fun (pairs : List (Symbol × Term)) (bindings : Bindings) =>
      bindings.lookup = fun symbol => pairs.lookup symbol) expected results := by
    refine (mapM_eq_some.mp built).imp fun pairs bindings here => ?_
    obtain ⟨_, _, values⟩ := scalar_empty.addAll? wellFormed_empty here
    exact funext values
  constructor
  · rintro ⟨bindings, listed, rfl⟩
    exact exists_of_mem_right each listed
  · rintro ⟨pairs, listed, rfl⟩
    exact exists_of_mem_left each listed

namespace World

open Attempt

variable {world : World}

theorem compare_eq_ok {same : Bool} {wanted got : String} :
    compare same wanted got = some (.ok ()) ↔ same = true := by
  cases same with
  | true => exact iff_of_true rfl rfl
  | false =>
    constructor
    · rintro ⟨⟩
    · rintro ⟨⟩

theorem firstMatch_eq_ok {language : Symbol} {lead : String} {pattern : Pattern} {term : Term}
    {first : Bindings} : world.firstMatch language lead pattern term = some (.ok first) ↔
      ∃ others, world.found language pattern term = some (.ok (first :: others)) := by
  rw [firstMatch, bind_ok]
  constructor
  · rintro ⟨found, searched, given⟩
    cases found with
    | nil => cases given
    | cons head others =>
      cases given
      exact ⟨others, searched⟩
  · rintro ⟨others, searched⟩
    exact ⟨_, searched, rfl⟩

/-- There are first matches exactly if every pattern has one. -/
theorem firstMatches_eq_ok {language : Symbol} {bindings : List (Pattern × Term)} :
    ∀ {shown : List Pattern}, shown.length = bindings.length → ∀ {firsts : List Bindings},
      world.firstMatches language shown bindings = some (.ok firsts) ↔
        List.Forall₂ (fun binding first => ∃ others,
          world.found language binding.1 binding.2 = some (.ok (first :: others))) bindings
          firsts := by
  induction bindings with
  | nil =>
    intro shown sized firsts
    obtain rfl : shown = [] := List.eq_nil_of_length_eq_zero sized
    rw [List.forall₂_nil_left_iff]
    constructor
    · rintro ⟨⟩
      rfl
    · rintro rfl
      rfl
  | cons binding rest ih =>
    intro shown sized firsts
    cases shown with
    | nil => cases sized
    | cons pattern shown =>
      have shorter := Nat.succ.inj sized
      rw [firstMatches_cons, bind_ok]
      simp only [bind_ok, firstMatch_eq_ok, ih shorter, List.forall₂_cons_left_iff]
      constructor
      · rintro ⟨first, found, others, each, same⟩
        cases same
        exact ⟨first, others, found, each, rfl⟩
      · rintro ⟨first, others, found, each, rfl⟩
        exact ⟨first, found, others, each, rfl⟩

end World

namespace Program

open Draft

namespace Compilation

open Attempt

variable {forms : List Form} {prints : Bool} {compilation : Compilation forms prints}
  {machine : Machine} {host : Host}

/-- The call of an entry follows what its form means. -/
theorem Hosts.entry_obeys (read : ∀ form ∈ forms, form.Read)
    (unmarked : ∀ form ∈ forms, form.Unmarked) (hosts : compilation.Hosts machine host) {form : Form}
    {entry : Entry} (of : compilation.EntryOf host form entry) (once : form.body.NamesOnce) :
    ∃ shown : List Pattern, shown.length = form.uses.length ∧ machine.Obeys entry.function []
      (fun level => (compilation.world host).verdict ((compilation.world host).applyAt level) shown
        form.body)
      (fun _ value after => (compilation.world host).Shows form.body value after)
      (∀ name language, compilation.languages.find? name = some language →
        language.HeadsRanked) := by
  obtain ⟨shown, sized, performs⟩ := of.serves
  refine ⟨shown, sized, hosts.obeys read unmarked (fun apply =>
    (compilation.world host).verdict apply shown form.body) fun supports fine => ?_⟩
  refine (performs supports (.inr once) fine _).weaken ?_
  rintro value after ⟨meant, shows⟩
  exact ⟨(), meant, shows⟩

/-- An entry comes to its end at some level exactly if it passes. -/
theorem verdict_ok_iff (read : ∀ form ∈ forms, form.Read)
    (unmarked : ∀ form ∈ forms, form.Unmarked) (host : Host) {form : Form} (listed : form ∈ forms)
    (enters : form.entry?.isSome = true) {shown : List Pattern}
    (sized : shown.length = form.uses.length) (once : form.body.NamesOnce) :
    (∃ level, (compilation.world host).verdict ((compilation.world host).applyAt level) shown
      form.body = some (.ok ())) ↔ (compilation.world host).Passes form.body := by
  obtain ⟨prepared, _, follows⟩ := exists_of_mem_left (compilation.uses read unmarked) listed
  obtain ⟨body, span⟩ := form
  cases follows with
  | language | relation | metafunction | foreignSource => cases enters
  | @redexMatch _ _ _ term uses =>
    obtain ⟨_, _, found, _, _, searched, _⟩ := uses.exists_found read host term
    simp only [World.verdict, World.Passes, bind_of_ok searched, iff_true]
    exact ⟨0, rfl⟩
  | @assertMatch language pattern _ term expected uses =>
    obtain ⟨definition, resolved, found, known, resolves, searched, holds, _⟩ :=
      uses.exists_found read host term
    have builds : (Judgement.upTo .lax False 0).Expects
        (expected.mapM fun pairs => Bindings.empty.addAll? pairs) := expects_of_namesOnce (.inr once)
    obtain ⟨results, built⟩ := Option.isSome_iff_exists.mp (builds.resolve_left id)
    obtain ⟨same, compared, means⟩ := Bindings.exists_sameMatches
      (uses.finished read host searched) (Bindings.finished_addAll? built)
    simp only [World.verdict, bind_of_ok searched, World.compareMatches_eq built compared,
      World.compare_eq_ok, exists_const, means, holds.2, Bindings.lookup_addAll? built]
    constructor
    · exact fun equal => ⟨definition, resolved, known, resolves, equal⟩
    · rintro ⟨_, _, again, resolution, equal⟩
      cases known.symm.trans again
      cases resolves.symm.trans resolution
      exact equal
  | @assertTerm language bindings template expected _ _ each =>
    have length : shown.length = bindings.length := by simpa [Form.uses] using sized
    simp only [World.verdict, World.builtFrom, bind_ok, World.firstMatches_eq_ok length,
      World.Passes]
    constructor
    · rintro ⟨level, built, ⟨firsts, found, instantiated⟩, equal⟩
      split at equal
      · rename_i same
        exact ⟨level, firsts, found, same ▸ instantiated⟩
      · cases equal
    · rintro ⟨level, firsts, found, instantiated⟩
      exact ⟨level, expected, ⟨firsts, found, instantiated⟩, by rw [if_pos rfl]; rfl⟩
  | @assertReduction relation function term expected named =>
    simp only [World.verdict, World.Passes]
    cases known : (compilation.world host).relation? relation with
    | none => simp
    | some definition =>
      simp only [bind_ok, World.compare_eq_ok, sameMembers_iff]
      constructor
      · rintro ⟨level, results, meant, same⟩
        exact ⟨definition, level, results, rfl, meant, same⟩
      · rintro ⟨_, level, results, same, meant, equal⟩
        cases same
        exact ⟨level, results, meant, equal⟩

end Compilation

namespace Accepted

variable {source : String} {prints : Bool} (accepted : Accepted source prints)

/-- The results of a run are those that the selected entries have on the machine that was
loaded. -/
theorem results_of_run {fuel : Nat} {filter : Option String} {host : Host} {limit : Option Nat}
    {silent : Bool} {report : Report} {last : Machine}
    (ran : accepted.program.run fuel filter host limit silent = (.ok report, last)) :
    ∃ loaded, accepted.program.Loads host limit silent loaded ∧
      (accepted.program.entries.filter (·.isSelected filter)).mapM (loaded.entryResult? fuel) =
        some report.results ∧
      report.filtered =
        (accepted.program.entries.filter fun entry => !entry.isSelected filter).length := by
  unfold Program.run at ran
  match load : Machine.load accepted.program.code fuel host limit silent with
  | (.error failure, machine) =>
    rw [load] at ran
    cases ran
  | (.ok (), machine) =>
    rw [load] at ran
    have loads := loads_of_load load
    have ready := accepted.loaded loads
    have isolates := Machine.isolates (accepted.tame loads) ready.globals ready.store
    exact ⟨machine, loads,
      (isolates.runEntries fuel filter accepted.program.entries .none).mp ⟨last, ran⟩⟩

/-- A run without a limit of calls reports on the entries that are selected, in the order of their
forms, and counts the others. Every entry passes exactly if what its form asserts holds, wherever
no symbol has the mark of generated names, no host function has the name of a function of the
program, and no list of expected bindings names a symbol twice. -/
theorem verdicts_exact (unmarked : ∀ form ∈ accepted.forms, form.Unmarked) {host : Host}
    (proper : host.Proper)
    (free : ∀ used ∈ (accepted.compilation.world host).foreigns, ∀ parameters body,
      .define used.1 parameters body ∉ accepted.compilation.draft.functions)
    {fuel : Nat} {filter : Option String} {silent : Bool} {report : Report} {last : Machine}
    (ran : accepted.program.run fuel filter host none silent = (.ok report, last)) :
    List.Forall₂ (fun form result =>
        form.entry? = some (result.entry.description, result.entry.kind) ∧
        result.entry.span = form.span ∧ (form.body.NamesOnce → (result.isPassed = true ↔
          (accepted.compilation.world host).Passes form.body)))
      (accepted.forms.filter (·.isSelected filter)) report.results ∧
    report.passed + report.failed + report.filtered =
      (accepted.forms.filter fun form => form.entry?.isSome).length := by
  obtain ⟨loaded, loads, results, filtered⟩ := accepted.results_of_run ran
  have ready := accepted.loaded loads
  have hosts := accepted.hosts proper free loads
  have entries : List.Forall₂ (accepted.compilation.EntryOf host)
      (accepted.forms.filter fun form => form.entry?.isSome) accepted.program.entries :=
    accepted.compilation.entries_of_forms accepted.read unmarked host
  obtain ⟨own, each, _⟩ := Machine.mapM_entryResult? results
  -- A result tells whether what the form of its entry asserts holds.
  have exact_ : ∀ form ∈ accepted.forms, ∀ result : EntryResult,
      accepted.compilation.EntryOf host form result.entry →
      loaded.entryResult? fuel result.entry = some result → form.body.NamesOnce →
      (result.isPassed = true ↔ (accepted.compilation.world host).Passes form.body) := by
    intro form listed ⟨entry, failure⟩ of gives once
    obtain ⟨shown, sized, obeys⟩ := hosts.entry_obeys accepted.read unmarked of once
    rw [← accepted.compilation.verdict_ok_iff accepted.read unmarked host listed
      (by rw [of.described]; rfl) sized once]
    unfold Machine.entryResult? at gives
    match called : loaded.call fuel entry.function [] with
    | (.ok value, after) =>
      rw [called] at gives
      cases gives
      obtain ⟨level, _, meant, _⟩ := obeys.value fuel value after called
      exact ⟨fun _ => ⟨level, meant⟩, fun _ => rfl⟩
    | (.error (.error cause), after) =>
      rw [called] at gives
      cases gives
      refine ⟨nofun, fun ⟨level, meant⟩ => ?_⟩
      rcases obeys.failure fuel cause after called with ⟨other, failed⟩ | ⟨most, limit, _⟩
      · cases World.verdict_unique meant failed
      · rw [ready.calls] at limit
        cases limit
    | (.error .exhausted, after) | (.error (.misuse _), after) =>
      rw [called] at gives
      cases gives
  have alike : ∀ form entry, accepted.compilation.EntryOf host form entry →
      form.isSelected filter = entry.isSelected filter := by
    intro form entry of
    unfold Form.isSelected Entry.isSelected
    rw [of.described]
    cases filter <;> rfl
  have chosen := forall₂_filter alike entries
  rw [← own, List.forall₂_map_right_iff, List.filter_filter] at chosen
  have same : (accepted.forms.filter fun form => form.isSelected filter && form.entry?.isSome) =
      accepted.forms.filter (·.isSelected filter) := by
    refine List.filter_congr fun form _ => ?_
    unfold Form.isSelected
    cases form.entry? <;> simp
  rw [same] at chosen
  constructor
  · refine forall₂_imp_mem chosen fun form among result reported of => ?_
    exact ⟨of.described, of.placed,
      exact_ form (List.mem_of_mem_filter among) result of (each result reported)⟩
  · have total : report.passed + report.failed = report.results.length :=
      (List.length_eq_length_filter_add _).symm
    have selected : report.results.length =
        (accepted.program.entries.filter (·.isSelected filter)).length := by
      rw [← own, List.length_map]
    rw [total, selected, filtered, ← List.length_eq_length_filter_add, entries.length_eq]

end Accepted

/-- Whether the forms that are read have no marked symbols, expect no symbol twice in a list of
bindings, and call no functions of the host. -/
def readsPlainly (source : String) : Bool :=
  match Form.readAll source with
  | .ok forms => forms.all (fun form => decide (form.Unmarked ∧ form.body.NamesOnce)) &&
    (forms.flatMap fun form => form.templates.flatMap Template.foreigns).isEmpty
  | .error _ => false

theorem Accepted.of_readsPlainly {source : String} {prints : Bool}
    (accepted : Accepted source prints) (plainly : readsPlainly source = true) (host : Host) :
    (∀ form ∈ accepted.forms, form.Unmarked ∧ form.body.NamesOnce) ∧
      (accepted.compilation.world host).foreigns = [] := by
  unfold readsPlainly at plainly
  rw [accepted.written] at plainly
  obtain ⟨plain, hostless⟩ := Bool.and_eq_true_iff.mp plainly
  exact ⟨fun form listed => of_decide_eq_true (List.all_eq_true.mp plain form listed),
    List.isEmpty_iff.mp hostless⟩

/-- An assertion about a match that an ellipsis binds, and one that expects no match. -/
def asserting : String :=
  "(define-language L) (redex-match-assert-equal L (number_1 ...) (1) (((number_1 (1))))) " ++
    "(redex-match-assert-equal L number 1 ())"

theorem passes_asserting : passes? asserting 1000 none = some [true, false] := by
  decide +kernel

theorem readsPlainly_asserting : readsPlainly asserting = true := by
  decide +kernel

theorem verdicts_exact_asserting :
    ∃ accepted : Accepted asserting false, ∃ report last,
      accepted.program.run 1000 none .empty none true = (.ok report, last) ∧
      report.results.map (·.isPassed) = [true, false] ∧
      List.Forall₂ (fun form result =>
          form.entry? = some (result.entry.description, result.entry.kind) ∧
          result.entry.span = form.span ∧ (form.body.NamesOnce → (result.isPassed = true ↔
            (accepted.compilation.world .empty).Passes form.body)))
        (accepted.forms.filter (·.isSelected none)) report.results ∧
      report.passed + report.failed + report.filtered =
        (accepted.forms.filter fun form => form.entry?.isSome).length := by
  obtain ⟨accepted, report, last, ran, passed⟩ :=
    exists_of_passes? (by decide +kernel) passes_asserting
  obtain ⟨plain, hostless⟩ := accepted.of_readsPlainly readsPlainly_asserting .empty
  exact ⟨accepted, report, last, ran, passed, accepted.verdicts_exact
    (fun form listed => (plain form listed).1) .empty (by rw [hostless]; nofun) ran⟩

end Program

end Reduct
