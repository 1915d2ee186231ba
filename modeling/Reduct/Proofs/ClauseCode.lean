import Reduct.Proofs.CompiledWorlds
import Reduct.Proofs.MessageCode

/-!
# The code of clauses

The function of a relation adds the results of its cases to one list, and the function of a
metafunction returns from the first case with a match. Both do what the clauses mean, as far as
the functions that they call do: the predicates of the languages, the metafunctions that templates
apply, and the host.
-/

namespace Reduct

namespace Matcher

open Draft Statement

/-- A top-level matcher that is compiled calls the matcher of its pattern. -/
theorem yields_compileTop {language : Language} (closed : language.Closed) {prepared : Prepared}
    (placed : prepared.pattern.isPlaced = true) {before after : Draft} {name : Symbol}
    (yields : Yields (compileTop language prepared) before name after) :
    ∃ inner count, lookupIn (language.name, prepared.pattern) after.matchers = some inner ∧
      .define name [whole] (topBody prepared.synthetic inner ("rs" ++ toString count)
        ("out" ++ toString (count + 1)) ("m" ++ toString (count + 2))
        ("h" ++ toString (count + 3)) ("m" ++ toString (count + 4))) ∈ after.functions := by
  obtain ⟨inner, middle, compiled, yields⟩ := yields_bind.mp yields
  have reserved := (yields_compileWith closed (Pattern.isItem_of_isPlaced placed) compiled).2
  obtain ⟨name, named, drawn, yields⟩ := yields_bind.mp yields
  obtain ⟨_, rfl⟩ := yields_freshFunction drawn
  obtain ⟨_, _, one, yields⟩ := yields_bind.mp yields
  obtain ⟨rfl, rfl⟩ := yields_freshLocal.mp one
  obtain ⟨_, _, two, yields⟩ := yields_bind.mp yields
  obtain ⟨rfl, rfl⟩ := yields_freshLocal.mp two
  obtain ⟨_, _, three, yields⟩ := yields_bind.mp yields
  obtain ⟨rfl, rfl⟩ := yields_freshLocal.mp three
  obtain ⟨_, _, four, yields⟩ := yields_bind.mp yields
  obtain ⟨rfl, rfl⟩ := yields_freshLocal.mp four
  obtain ⟨_, _, five, yields⟩ := yields_bind.mp yields
  obtain ⟨rfl, rfl⟩ := yields_freshLocal.mp five
  obtain ⟨_, _, added, yields⟩ := yields_bind.mp yields
  obtain rfl := yields_modify.mp added
  obtain ⟨rfl, rfl⟩ := yields_pure.mp yields
  exact ⟨inner, middle.localCount, reserved, List.mem_append_right _ List.mem_cons_self⟩

end Matcher

namespace Program.Compilation

open Draft Statement Construction Attempt Template

variable {forms : List Form} {prints : Bool} {compilation : Compilation forms prints}
  {judgement : Judgement} {machine : Machine} {host : Host} {ends : Prop}
  {apply : Symbol → Term → Attempt Term}

/-- What the code of clauses relies on: the machine carries the code, predicates tell what their
non-terminals derive, and the functions that templates call do what they mean, where this is
fine. -/
structure Supports (compilation : Compilation forms prints) (judgement : Judgement)
    (machine : Machine) (host : Host) (ends : Prop) (apply : Symbol → Term → Attempt Term) :
    Prop where
  carries : machine.Carries compilation.draft
  accepts : ∀ name language, compilation.languages.find? name = some language →
    ∀ stem term, term.Proper →
      Matcher.PredicateMeets judgement machine language compilation.draft language.ground stem term
  applied : ∀ function target, compilation.names.metafunctions.find? function = some target →
    ∀ argument : Term, argument.Proper → Fine ends judgement.excuses (apply function argument) →
    ∀ store, Calls judgement machine target [.term argument] store
      (GivesTerm store fun term => apply function argument = some (.ok term) ∧ term.Proper)
  called : ∀ function mode, (function, mode) ∈ (compilation.world host).foreigns →
    ∀ arguments : List Term, (∀ argument ∈ arguments, argument.Proper) →
    Fine ends judgement.excuses (host.outcome function arguments) →
    ∀ store, Calls judgement machine function (arguments.map Value.term) store
      (GivesTerm store fun term => host.outcome function arguments = some (.ok term) ∧ term.Proper)

section Matching

variable {name : Symbol} {pattern : Pattern} {prepared : Prepared}
  (read : ∀ form ∈ forms, form.Read)
  (uses : compilation.Uses name pattern prepared)

include read uses

/-- The top-level matcher of a pattern gives its matches, if predicates tell what their
non-terminals derive. -/
theorem Uses.topMatcher_performs (carries : machine.Carries compilation.draft)
    (accepts : ∀ name language, compilation.languages.find? name = some language →
      ∀ stem term, term.Proper →
        Matcher.PredicateMeets judgement machine language compilation.draft language.ground stem term)
    {before after : Draft} {function : Symbol}
    (yields : Yields (topMatcher compilation.scope name prepared) before function after)
    (grows : after.Grows compilation.draft) {term : Term} (proper : term.Proper)
    {found : List Bindings}
    (searched : (compilation.world host).found name pattern term = some (.ok found))
    (store : Store) : Performs judgement machine function [.term term] store
      (Matcher.GivesFound store (some found)) := by
  obtain ⟨language, resolved, results, known, _, also, _, visited⟩ :=
    uses.exists_found read host term
  rw [also] at searched
  cases searched
  have listed : compilation.scope.languages.find? name = some language := known
  unfold topMatcher at yields
  rw [listed] at yields
  have ready := (compilation.ready_legible read).ready _ _ known
  obtain ⟨_, there, suits⟩ :=
    compilation.suits read uses.made uses.read uses.read.legible
  cases listed.symm.trans there
  have compiled := compilation.compiled read known carries
  obtain ⟨inner, count, reserved, written⟩ :=
    Matcher.yields_compileTop ready.closed suits.placed yields
  have expected : judgement.Expects (visit language.ground prepared.pattern term .empty) := by
    refine .inr ?_
    cases searched : visit language.ground prepared.pattern term .empty with
    | none =>
      rw [searched] at visited
      cases visited
    | some found => rfl
  rw [← visited]
  exact compiled.topPerforms rfl suits.placed suits.plain (grows.matchers _ _ reserved)
    (grows.functions _ written) proper (accepts name language known) expected store

/-- A call of the top-level matcher of a pattern gives its matches. -/
theorem Supports.topMatcher_calls
    (supports : compilation.Supports judgement machine host ends apply)
    {before after : Draft} {function : Symbol}
    (yields : Yields (topMatcher compilation.scope name prepared) before function after)
    (grows : after.Grows compilation.draft) {term : Term} (proper : term.Proper)
    {found : List Bindings}
    (searched : (compilation.world host).found name pattern term = some (.ok found))
    (store : Store) : Calls judgement machine function [.term term] store
      (Matcher.GivesFound store (some found)) :=
  (uses.topMatcher_performs read supports.carries supports.accepts yields grows proper searched
    store).calls

/-- Every variable that has a depth in a pattern is bound to a term of that depth by a match. -/
theorem Uses.supplied {term : Term} (proper : term.Proper) {found : List Bindings}
    (searched : (compilation.world host).found name pattern term = some (.ok found))
    {bindings : Bindings} (listed : bindings ∈ found) {symbol : Symbol}
    (plain : Symbol.isSynthetic symbol = false) {depth : Nat}
    (known : prepared.depths.find? symbol = some depth) :
    ∃ value, bindings.lookup symbol = some value ∧ value.NestedTo depth ∧ value.Proper := by
  obtain ⟨language, resolved, results, there, resolves, also, holds, _⟩ :=
    uses.exists_found read host term
  rw [also] at searched
  cases searched
  obtain ⟨other, _, _, again, found, _, resolution, prepares, _⟩ := uses.exists_resolved
  rw [there] at found
  cases found
  rw [resolves] at resolution
  cases resolution
  have matched := (holds.2 bindings.lookup).mp ⟨bindings, listed, rfl⟩
  exact matched.nested proper symbol depth ((prepares.find?_depths plain).mp known)

end Matching

/-- A template of the forms: it is read, has no marked symbols, and the host functions that it
calls are those of the forms. -/
structure Writes (forms : List Form) (template : Template) : Prop where
  read : template.Read
  unmarked : ∀ symbol ∈ template.symbols, Symbol.isSynthetic symbol = false
  foreigns : ∀ used ∈ template.foreigns,
    used ∈ forms.flatMap fun form => form.templates.flatMap Template.foreigns

theorem writes (read : ∀ form ∈ forms, form.Read) (unmarked : ∀ form ∈ forms, form.Unmarked)
    {form : Form} (listed : form ∈ forms) {template : Template} (among : template ∈ form.templates) :
    Writes forms template where
  read := (read form listed).templates template among
  unmarked := (unmarked form listed).2 template among
  foreigns _ inside :=
    List.mem_flatMap.mpr ⟨form, listed, List.mem_flatMap.mpr ⟨template, among, inside⟩⟩

section Building

variable (supports : compilation.Supports judgement machine host ends apply)

include supports

/-- A call of the construction of a template gives what the template is instantiated to, with the
depths of its symbols from anywhere. -/
theorem Supports.construction_calls {template : Template} (writes : Writes forms template)
    {depths source : Depths}
    (same : ∀ symbol ∈ template.symbols, source.find? symbol = depths.find? symbol)
    {before after : Draft} {function : Symbol}
    (yields : Yields (construction compilation.scope depths template) before function after)
    (grows : after.Grows compilation.draft) {store : Store} {place : Nat} {bindings : Bindings}
    (held : store.cell? place = some (.bindings bindings))
    (supplied : ∀ symbol ∈ template.symbols, ∀ depth, depths.find? symbol = some depth →
      ∃ value, bindings.lookup symbol = some value ∧ value.NestedTo depth ∧ value.Proper)
    (fine : Fine ends judgement.excuses
      (instantiate ((compilation.world host).scene apply source bindings.lookup) template)) :
    Calls judgement machine function [.bindings place] store (GivesTerm store fun term =>
      instantiate ((compilation.world host).scene apply source bindings.lookup) template =
        some (.ok term) ∧ term.Proper) := by
  let scene : Scene :=
    { (compilation.world host).scene apply depths bindings.lookup with
      metafunctions := SymbolSet.ofList compilation.scope.metafunctions.keys }
  have equal : instantiate scene template =
      instantiate ((compilation.world host).scene apply source bindings.lookup) template := by
    refine Below.antisymm (instantiate_below ⟨fun symbol listed => (same symbol listed).symm,
      compilation.contains_metafunctions host, rfl, fun _ _ => .refl _, rfl⟩) ?_
    exact instantiate_below ⟨same, fun symbol => (compilation.contains_metafunctions host symbol).symm,
      rfl, fun _ _ => .refl _, rfl⟩
  rw [← equal] at fine ⊢
  unfold construction at yields
  cases accepted : template.annotate depths
      (SymbolSet.ofList compilation.scope.metafunctions.keys) with
  | error fault =>
    rw [accepted] at yields
    exact absurd yields yields_throw
  | ok annotated =>
    rw [accepted] at yields
    have constants : template.Constants depths fun term => term.reread = term ∧ term.Proper :=
      constants_of_empty template (writes.read.imp fun term plain =>
        ⟨plain.proper.reread, plain.proper⟩)
    refine (compile_instantiates Term.tidy_proper supports.carries compilation.scope.exists_function
      constants ⟨supports.applied, fun function mode used => ?_⟩ accepted yields grows fine held
      ?_).calls
    · exact supports.called function mode (writes.foreigns _ used)
    · intro symbol listed depth known
      obtain ⟨value, found, nested, proper⟩ := supplied symbol listed depth known
      exact ⟨value, found, found, nested, proper⟩

/-- A call of the construction of a case gives what its template builds from a match. -/
theorem Supports.built_calls (read : ∀ form ∈ forms, form.Read) {name : Symbol} {pattern : Pattern}
    {prepared : Prepared} (uses : compilation.Uses name pattern prepared) {template : Template}
    (writes : Writes forms template) {before after : Draft} {function : Symbol}
    (yields : Yields (construction compilation.scope prepared.depths template) before
      function after)
    (grows : after.Grows compilation.draft) {term : Term} (proper : term.Proper)
    {found : List Bindings}
    (searched : (compilation.world host).found name pattern term = some (.ok found))
    {bindings : Bindings} (listed : bindings ∈ found) {store : Store} {place : Nat}
    (held : store.cell? place = some (.bindings bindings))
    (fine : Fine ends judgement.excuses
      ((compilation.world host).built apply name pattern template bindings)) :
    Calls judgement machine function [.bindings place] store (GivesTerm store fun term =>
      (compilation.world host).built apply name pattern template bindings = some (.ok term) ∧
        term.Proper) :=
  supports.construction_calls writes
    (fun symbol inside => uses.find?_depths host (writes.unmarked symbol inside)) yields grows held
    (fun symbol inside _ known =>
      uses.supplied read proper searched listed (writes.unmarked symbol inside) known) fine

end Building

section Requiring

variable {locals : Table Value} {store : Store} {gives : Value → Store → Prop}
  {name : Symbol} {pattern : Pattern} {prepared : Prepared}
  (read : ∀ form ∈ forms, form.Read)
  (supports : compilation.Supports judgement machine host ends apply)
  (uses : compilation.Uses name pattern prepared)

include read uses

/-- Compiling a top-level matcher adds to the draft. -/
theorem Uses.continues_topMatcher : Moves (Continues Atom.Legible compilation.HasLanguage)
    (topMatcher compilation.scope name prepared) :=
  Program.continues_topMatcher (compilation.ready_legible read)
    (compilation.suits read uses.made uses.read uses.read.legible)

include supports

/-- A variable tells whether a term has matches, or else a message is raised. -/
theorem Supports.guard_runs {matcher check term lead : Symbol} {start after final : Draft}
    (matching : ∃ before top, Yields (topMatcher compilation.scope name prepared) before matcher
      top ∧ top.Grows compilation.draft) {test failure : List Statement} {number : Nat}
    (slot : Slot check number)
    (testing : Yields (matchesAny matcher term check) start test after)
    (raising : Yields (raiseTerm lead term) after failure final)
    (below : number < start.localCount) (older : Older number term)
    {content : Term} (proper : content.Proper)
    (known : locals.find? term = some (.term content))
    (fine : Fine ends judgement.excuses
      ((compilation.world host).require name lead content (some pattern))) :
    Runs judgement machine (test ++ [whenFalse check failure]) locals store
      (fun last changed => Fixes number locals last ∧ store.Keeps changed ∧
        (compilation.world host).require name lead content (some pattern) = some (.ok ()))
      gives := by
  obtain ⟨before, top, matching, inside⟩ := matching
  obtain ⟨_, _, found, _, _, searched, _⟩ := uses.exists_found read host content
  rw [matchesAny, ← Draft.skip_zero start] at testing
  obtain ⟨list, slot1, testing⟩ := yields_local (by decide) (by decide) testing
  obtain ⟨count, slot2, testing⟩ := yields_local (by decide) (by decide) testing
  obtain ⟨rfl, rfl⟩ := yields_pure.mp testing
  refine findsAny_runs (Machine.read_name known)
    (supports.topMatcher_calls read uses matching inside proper searched store) ?_
  intro place changed free keeps lists
  have fixes : Fixes number locals (((locals.insert list (.list place)).insert count
      (.int (wordOfCount found.length))).insert check (.bool (!found.isEmpty))) :=
    (((Fixes.refl number locals).insert slot1 (by omega) _).insert slot2 (by omega) _).insert slot
      (Nat.le_refl _) _
  rw [World.require_some searched] at fine ⊢
  refine Runs.whenFalse (fun last changed => Fixes number locals last ∧ store.Keeps changed ∧
      (if found.isEmpty then some (.error (.raised (lead ++ content.text))) else some (.ok ())) =
        (some (.ok ()) : Attempt Unit)) (Table.find?_insert_self _ _ _) ?_ ?_
    fun _ _ reached => .nil reached
  · intro none_
    have empty : found.isEmpty = true := by simpa using none_
    rw [if_pos empty] at fine
    exact raiseTerm_runs raising (Machine.read_name ((fixes term older).trans known)) (fine.2 _ rfl)
  · intro some_
    have filled : ¬ found.isEmpty = true := by simpa using some_
    exact ⟨fixes, keeps, if_neg filled⟩

/-- A term is tested against a pattern, and a message is raised if there is no match. -/
theorem Supports.requireMatch_runs {term lead : Symbol} {before after : Draft}
    {code : List Statement}
    (yields : Yields (requireMatch compilation.scope name prepared term lead) before code after)
    (grows : after.Grows compilation.draft) (older : Older before.localCount term)
    {content : Term} (proper : content.Proper)
    (known : locals.find? term = some (.term content))
    (fine : Fine ends judgement.excuses
      ((compilation.world host).require name lead content (some pattern))) :
    Runs judgement machine code locals store
      (fun last changed => Fixes before.localCount locals last ∧ store.Keeps changed ∧
        (compilation.world host).require name lead content (some pattern) = some (.ok ()))
      gives := by
  rw [requireMatch, ← Draft.skip_zero before] at yields
  obtain ⟨check, slot, yields⟩ := yields_local (by decide) (by decide) yields
  obtain ⟨matcher, top, matching, yields⟩ := yields_bind.mp yields
  obtain ⟨test, middle, testing, yields⟩ := yields_bind.mp yields
  obtain ⟨failure, last, raising, yields⟩ := yields_bind.mp yields
  obtain ⟨rfl, rfl⟩ := yields_pure.mp yields
  have first : Continues Atom.Legible compilation.HasLanguage (before.skip 1) top :=
    uses.continues_topMatcher read _ _ _ matching
  have second : Continues Atom.Legible compilation.HasLanguage top middle :=
    continues_matchesAny _ _ _ _ _ _ testing
  have third : Continues Atom.Legible compilation.HasLanguage middle last :=
    continues_raiseTerm _ _ _ _ _ raising
  have le := first.grows.localCount
  rw [Draft.localCount_skip] at le
  exact supports.guard_runs read uses
    ⟨_, top, matching, second.grows.trans (third.grows.trans grows)⟩ slot testing raising (by omega)
    older proper known fine

end Requiring

end Program.Compilation

end Reduct
