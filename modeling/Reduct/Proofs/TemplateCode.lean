import Reduct.Proofs.EllipsisCode

/-!
# Compiled constructions

The function that is compiled for an annotated template gives what the template denotes, or fails
as the template may.
-/

namespace Reduct

namespace Construction

open Draft Statement Template

section Building

variable {judgement : Judgement} {machine : Machine} {suits : Term → Prop} {draft : Draft}
  {setting : Setting} {allowance : Allowance} {scope : Scope} {depth : Nat} {table : Table Symbol}

/-- Locals hold the terms that parts are. -/
def ShowsAll (machine : Machine) (locals : Table Value) (names : List Symbol) (parts : List Part) :
    Prop :=
  List.Forall₂ (fun name part => machine.read locals (.name name) = .ok (.term part.whole)) names
    parts

theorem ShowsAll.fixes {locals after : Table Value} {names : List Symbol} {parts : List Part}
    (shows : ShowsAll machine locals names parts) {count : Nat}
    (older : ∀ name ∈ names, Older count name) (fixes : Fixes count locals after) :
    ShowsAll machine after names parts := by
  induction shows with
  | nil => exact .nil
  | cons first _ ih =>
    obtain ⟨here, later⟩ := List.forall_mem_cons.mp older
    exact .cons ((read_fixes fixes here).trans first) (ih later)

theorem ShowsAll.readAll {locals : Table Value} {names : List Symbol} {parts : List Part}
    (shows : ShowsAll machine locals names parts) :
    machine.readAll locals (names.map Operand.name) =
      .ok ((parts.map Part.whole).map Value.term) := by
  induction shows with
  | nil => rfl
  | cons first _ ih => exact Machine.readAll_cons first ih

/-- Templates leave one term each. -/
theorem buildArguments_runs (tidy : Term.Tidy suits) {metafunctions : SymbolSet} {above : Nat}
    {items : List Template} {annotated : List Annotated}
    (rights : AllRight judgement machine suits draft setting allowance table scope depth items
      annotated) :
    annotateAllAt setting.depths metafunctions above items = .ok annotated →
    ∀ {before after : Draft} {code : List Statement} {names : List Symbol},
      Yields (buildArguments table scope annotated) before (code, names) after →
      after.Grows draft → ScopeOlder scope before.localCount →
      (∀ name ∈ names, Older after.localCount name) ∧
      ∀ {rounds : List Nat} {locals : Table Value} {store : Store}, rounds.length = depth →
        SafeEach judgement.excuses allowance setting rounds items → Unhidden locals →
        Stands setting suits scope rounds (symbolsAll items) locals →
        Runs judgement machine code locals store
          (fun last changed => Fixes before.localCount locals last ∧ store.Keeps changed ∧
            ∃ parts, BuildsAll setting rounds items parts ∧
              (∀ part ∈ parts, suits part.whole) ∧ ShowsAll machine last names parts)
          fun _ _ => False := by
  induction rights with
  | nil =>
    intro _ before after code names yields _ _
    rw [buildArguments] at yields
    obtain ⟨same, rfl⟩ := yields_pure.mp yields
    cases same
    exact ⟨nofun, fun _ _ _ _ => .nil ⟨.refl _ _, .refl _, [], .nil, nofun, .nil⟩⟩
  | @cons item other rest others right rights ih =>
    intro accepted before after code names yields grows fine
    obtain ⟨_, _, one, two, same⟩ := annotateAllAt_cons.mp accepted
    cases same
    rw [buildArguments] at yields
    obtain ⟨⟨first, name⟩, middle, built, yields⟩ := yields_bind.mp yields
    obtain ⟨⟨second, remaining⟩, last, later, yields⟩ := yields_bind.mp yields
    obtain ⟨same, rfl⟩ := yields_pure.mp yields
    cases same
    have growing := (steady_buildArguments Matcher.stable_never
      (AllRight.steady rights)).grows _ _ _ later
    have le := ((steady_asTerm Matcher.stable_never right.steady other).grows _ _ _
      built).localCount
    obtain ⟨early, leaves⟩ := asTerm_runs tidy one right built (growing.trans grows) fine
    obtain ⟨earlier, runs⟩ := ih two later grows (fine.mono le)
    refine ⟨List.forall_mem_cons.mpr ⟨early.mono growing.localCount, earlier⟩, ?_⟩
    rintro rounds locals store deep ⟨safe, safely⟩ unhidden stands
    refine Runs.append (leaves deep safe unhidden
      (stands.mono fun name listed => List.mem_append_left _ listed)) ?_
    rintro inner changed ⟨fixes, keeps, _, ⟨part, builds, rfl⟩, suited, shown⟩
    refine Runs.weaken (runs deep (safely part builds) (unhidden.fixes fixes)
      ((stands.mono fun name listed => List.mem_append_right _ listed).fixes fine fixes)) ?_
      fun _ _ given => given
    rintro final store ⟨still, kept, parts, all, others, shows⟩
    exact ⟨fixes.trans (still.mono le), keeps.trans kept, part :: parts, .cons builds all,
      List.forall_mem_cons.mpr ⟨suited, others⟩, .cons ((read_fixes still early).trans shown) shows⟩

/-- The call of a metafunction or of a host function leaves what it gives. -/
theorem call_leaves {function result : Symbol} {operands : List Operand} {values : List Value}
    {count number : Nat} (slot : Slot result number) (above : count ≤ number)
    {locals : Table Value} {store : Store} {admits : Term → Prop}
    (known : machine.readAll locals operands = .ok values)
    (called : Calls judgement machine function values store
      (GivesTerm store fun term => admits term ∧ suits term)) :
    Runs judgement machine [assignCall result function operands] locals store
      (fun after changed => Fixes count locals after ∧ store.Keeps changed ∧
        ∃ term, admits term ∧ suits term ∧
          machine.read after (.name result) = .ok (.term term))
      fun _ _ => False := by
  refine Runs.assignCall known called ?_
  rintro value changed ⟨term, rfl, ⟨admitted, suited⟩, keeps⟩
  exact .nil ⟨(Fixes.refl _ _).insert slot above _, keeps, term, admitted, suited,
    Machine.read_name (Table.find?_insert_self _ _ _)⟩

/-- A constant is where its local says. -/
theorem literal_right (carries : machine.Carries draft) {template : Template} {term : Term}
    (same : term.reread = term) (suited : suits term)
    (builds : ∀ rounds, Builds setting rounds template (.term term)) :
    Right judgement machine suits draft setting allowance scope depth template
      (build table scope (.literal term)) where
  steady := by
    rw [build]
    exact .bind (Matcher.stable_never.constant _) fun _ => .pure _
  older := by
    intro before after code piece yields _
    rw [build] at yields
    obtain ⟨name, middle, made, yields⟩ := yields_bind.mp yields
    obtain ⟨same, rfl⟩ := yields_pure.mp yields
    cases same
    obtain ⟨index, rfl, _⟩ := (yields_constant made).2
    exact older_constantName index _
  leaves := by
    intro before after code piece yields grows _ rounds locals store _ _ unhidden _
    rw [build] at yields
    obtain ⟨name, middle, made, yields⟩ := yields_bind.mp yields
    obtain ⟨equal, rfl⟩ := yields_pure.mp yields
    cases equal
    have read := carries.read unhidden ((yields_constant made).2.grows grows)
    rw [same] at read
    exact .nil ⟨.refl _ _, .refl _, .term term, builds rounds, suited, read⟩

/-- A variable is where its scope says. -/
theorem variable_right {name source : Symbol} {bound : Nat}
    (known : setting.depths.find? name = some bound) (found : scope.find? name = some source) :
    Right judgement machine suits draft setting allowance scope depth (.symbol name)
      (build table scope (.bound name bound)) where
  steady := by
    rw [build, found]
    exact .pure _
  older := by
    intro before after code piece yields fine
    rw [build, found] at yields
    obtain ⟨same, rfl⟩ := yields_pure.mp yields
    cases same
    exact fine name source found
  leaves := by
    intro before after code piece yields _ _ rounds locals store _ _ _ stands
    rw [build, found] at yields
    obtain ⟨same, rfl⟩ := yields_pure.mp yields
    cases same
    obtain ⟨term, held, selected, _, suited⟩ :=
      stands name (List.mem_singleton.mpr rfl) bound source known found
    exact .nil ⟨.refl _ _, .refl _, .term term, .bound selected, suited, Machine.read_name held⟩

/-- Sequences of what templates give. -/
theorem sequence_right (tidy : Term.Tidy suits) {items : List Template}
    {annotated : List Annotated}
    (rights : AllRight judgement machine suits draft setting allowance table scope depth items
      annotated)
    (plain : applied? setting.depths setting.metafunctions items = none) :
    Right judgement machine suits draft setting allowance scope depth (.sequence items)
      (build table scope (.sequence annotated)) where
  steady := by
    rw [build]
    exact .bind (steady_sequenceOf Matcher.stable_never
      (steady_contributeAll Matcher.stable_never (AllRight.steady rights))) fun _ => .pure _
  older := by
    intro before after code piece yields _
    rw [build] at yields
    obtain ⟨⟨first, result⟩, middle, made, yields⟩ := yields_bind.mp yields
    obtain ⟨same, rfl⟩ := yields_pure.mp yields
    cases same
    exact older_sequenceOf made
  leaves := by
    intro before after code piece yields grows fine rounds locals store deep safe unhidden stands
    rw [build] at yields
    obtain ⟨⟨first, result⟩, middle, made, yields⟩ := yields_bind.mp yields
    obtain ⟨same, rfl⟩ := yields_pure.mp yields
    cases same
    have leaves : LeavesPart judgement machine suits code (.term result) before.localCount locals
        store fun part => ∃ terms, part = .term (.sequence terms) ∧
          ∃ parts, BuildsAll setting rounds items parts ∧ Part.join parts = some terms := by
      refine sequenceOf_runs tidy
        (steady_contributeAll Matcher.stable_never (AllRight.steady rights)) made ?_
      intro list adding middle older adds growing inside changed place fixes known counted
      exact contributeAll_runs tidy rights deep safe.1 adds (growing.trans grows)
        (fine.mono (Nat.le_succ _)) older (unhidden.fixes fixes)
        (stands.fixes fine fixes) known counted
    refine Runs.weaken leaves ?_ fun _ _ given => given
    rintro last changed ⟨fixes, keeps, _, ⟨terms, rfl, parts, all, joined⟩, within, shows⟩
    exact ⟨fixes, keeps, _, .sequence plain all joined, within, shows⟩

/-- The results of metafunctions on what templates give. -/
theorem application_right (tidy : Term.Tidy suits) {items : List Template}
    {annotated : List Annotated} {function target : Symbol} {arguments : List Template}
    (rights : AllRight judgement machine suits draft setting allowance table scope depth arguments
      annotated)
    (applied : applied? setting.depths setting.metafunctions items = some function)
    (same : items = .symbol function :: arguments)
    (found : table.find? function = some target)
    (serves : ∀ argument, suits argument → allowance.applies function argument → ∀ store,
      Calls judgement machine target [.term argument] store
        (GivesTerm store fun term => setting.applied function argument term ∧ suits term)) :
    Right judgement machine suits draft setting allowance scope depth (.sequence items)
      (build table scope (.metafunction function annotated)) where
  steady := by
    rw [build, found]
    exact .bind (steady_sequenceOf Matcher.stable_never
      (steady_contributeAll Matcher.stable_never (AllRight.steady rights))) fun _ =>
      .bind (Matcher.stable_never.freshLocal _) fun _ => .pure _
  older := by
    intro before after code piece yields _
    rw [build, found] at yields
    obtain ⟨⟨first, argument⟩, middle, made, yields⟩ := yields_bind.mp yields
    rw [← Draft.skip_zero middle] at yields
    obtain ⟨result, slot, yields⟩ := yields_local (by decide) (by decide) yields
    obtain ⟨same, rfl⟩ := yields_pure.mp yields
    cases same
    exact slot.older (Nat.lt_succ_self _)
  leaves := by
    intro before after code piece yields grows fine rounds locals store deep safe unhidden stands
    subst same
    obtain ⟨⟨_, _, safely⟩, applying⟩ := safe
    have free : setting.depths.find? function = none := by
      obtain ⟨_, same, free, _⟩ := applied?_eq_some applied
      cases same
      exact free
    rw [build, found] at yields
    obtain ⟨⟨first, argument⟩, middle, made, yields⟩ := yields_bind.mp yields
    have le := ((steady_sequenceOf Matcher.stable_never (steady_contributeAll Matcher.stable_never
      (AllRight.steady rights))).grows _ _ _ made).localCount
    rw [← Draft.skip_zero middle] at yields
    obtain ⟨result, slot, yields⟩ := yields_local (by decide) (by decide) yields
    obtain ⟨same, rfl⟩ := yields_pure.mp yields
    cases same
    have leaves : LeavesPart judgement machine suits first (.term argument) before.localCount locals
        store fun part => ∃ terms, part = .term (.sequence terms) ∧
          ∃ parts, BuildsAll setting rounds arguments parts ∧ Part.join parts = some terms := by
      refine sequenceOf_runs tidy
        (steady_contributeAll Matcher.stable_never (AllRight.steady rights)) made ?_
      intro list adding later older adds growing inside changed place fixes known counted
      exact contributeAll_runs tidy rights deep (safely _ _ (.unbound free) rfl) adds
        ((growing.trans (middle.grows_skip 1)).trans grows) (fine.mono (Nat.le_succ _)) older
        (unhidden.fixes fixes)
        ((stands.mono fun name listed => List.mem_append_right _ listed).fixes fine fixes) known
        counted
    refine Runs.append leaves ?_
    rintro inner changed ⟨fixes, keeps, _, ⟨terms, rfl, parts, all, joined⟩, within, shows⟩
    have allowed := applying function parts terms applied all joined
    refine Runs.weaken (call_leaves slot le (Machine.readAll_one shows)
      (serves _ within allowed changed)) ?_ fun _ _ given => given
    rintro last final ⟨still, kept, term, gives, suited, shown⟩
    exact ⟨fixes.trans still, keeps.trans kept, .term term,
      .application applied all joined gives, suited, shown⟩

/-- Contexts with their holes filled. -/
theorem inHole_right (tidy : Term.Tidy suits) {metafunctions : SymbolSet} {above : Nat}
    {context contents : Template} {outer inner : Annotated}
    (one : context.annotateAt setting.depths metafunctions above = .ok outer)
    (two : contents.annotateAt setting.depths metafunctions above = .ok inner)
    (around : Right judgement machine suits draft setting allowance scope depth context
      (build table scope outer))
    (within : Right judgement machine suits draft setting allowance scope depth contents
      (build table scope inner)) :
    Right judgement machine suits draft setting allowance scope depth (.inHole context contents)
      (build table scope (.inHole outer inner)) where
  steady := by
    rw [build]
    exact .bind (steady_asTerm Matcher.stable_never around.steady _) fun _ =>
      .bind (steady_asTerm Matcher.stable_never within.steady _) fun _ =>
      .bind (Matcher.stable_never.freshLocal _) fun _ => .pure _
  older := by
    intro before after code piece yields _
    rw [build] at yields
    obtain ⟨_, _, _, yields⟩ := yields_bind.mp yields
    obtain ⟨_, middle, _, yields⟩ := yields_bind.mp yields
    rw [← Draft.skip_zero middle] at yields
    obtain ⟨result, slot, yields⟩ := yields_local (by decide) (by decide) yields
    obtain ⟨same, rfl⟩ := yields_pure.mp yields
    cases same
    exact slot.older (Nat.lt_succ_self _)
  leaves := by
    intro before after code piece yields grows fine rounds locals store deep safe unhidden stands
    rw [build] at yields
    obtain ⟨⟨first, left⟩, middle, made, yields⟩ := yields_bind.mp yields
    obtain ⟨⟨second, right⟩, last, then_, yields⟩ := yields_bind.mp yields
    have le := ((steady_asTerm Matcher.stable_never around.steady _).grows _ _ _ made).localCount
    have growing := (steady_asTerm Matcher.stable_never within.steady _).grows _ _ _ then_
    rw [← Draft.skip_zero last] at yields
    obtain ⟨result, slot, yields⟩ := yields_local (by decide) (by decide) yields
    obtain ⟨same, rfl⟩ := yields_pure.mp yields
    cases same
    have skipping := (last.grows_skip 1).trans grows
    obtain ⟨early, leaves⟩ := asTerm_runs tidy one around made (growing.trans skipping) fine
    obtain ⟨_, leaving⟩ := asTerm_runs tidy two within then_ skipping (fine.mono le)
    rw [List.append_assoc]
    obtain ⟨first, safely⟩ := safe
    refine Runs.append (leaves deep first unhidden
      (stands.mono fun name listed => List.mem_append_left _ listed)) ?_
    rintro inside changed ⟨fixes, keeps, _, ⟨part, builds, rfl⟩, suited, shown⟩
    obtain ⟨second, plugs⟩ := safely part builds
    refine Runs.append (leaving deep second (unhidden.fixes fixes)
      ((stands.mono fun name listed => List.mem_append_right _ listed).fixes fine fixes)) ?_
    rintro final later ⟨still, kept, _, ⟨other, fills, rfl⟩, fitting, shows⟩
    refine Runs.plug ((read_fixes still early).trans shown) shows ?_ ?_
    · exact plugs other fills
    · intro term plugged
      exact .nil ⟨(fixes.trans (still.mono le)).insert slot
          (Nat.le_trans le growing.localCount) _, keeps.trans kept, .term term,
        .inHole builds fills plugged, tidy.plug _ _ _ suited fitting plugged,
        Machine.read_name (Table.find?_insert_self _ _ _)⟩

/-- The results of host functions. -/
theorem foreign_right (tidy : Term.Tidy suits) {metafunctions : SymbolSet} {above : Nat}
    {function : Symbol} {arguments : List Template} {mode : InsertMode} {annotated : List Annotated}
    (accepted : annotateAllAt setting.depths metafunctions above arguments = .ok annotated)
    (rights : AllRight judgement machine suits draft setting allowance table scope depth arguments
      annotated)
    (serves : ∀ arguments : List Term, (∀ argument ∈ arguments, suits argument) →
      allowance.calls function arguments → ∀ store,
      Calls judgement machine function (arguments.map Value.term) store
        (GivesTerm store fun term => setting.called function arguments term ∧ suits term)) :
    Right judgement machine suits draft setting allowance scope depth
      (.foreign function arguments mode) (build table scope (.foreign function annotated mode)) where
  steady := by
    rw [build]
    refine .bind (steady_buildArguments Matcher.stable_never (AllRight.steady rights)) fun _ =>
      .bind (Matcher.stable_never.freshLocal _) fun _ => ?_
    cases mode <;> exact .pure _
  older := by
    intro before after code piece yields _
    rw [build] at yields
    obtain ⟨_, middle, _, yields⟩ := yields_bind.mp yields
    rw [← Draft.skip_zero middle] at yields
    obtain ⟨result, slot, yields⟩ := yields_local (by decide) (by decide) yields
    cases mode <;>
    · obtain ⟨same, rfl⟩ := yields_pure.mp yields
      cases same
      exact slot.older (Nat.lt_succ_self _)
  leaves := by
    intro before after code piece yields grows fine rounds locals store deep safe unhidden stands
    rw [build] at yields
    obtain ⟨⟨first, names⟩, middle, made, yields⟩ := yields_bind.mp yields
    have le := ((steady_buildArguments Matcher.stable_never (AllRight.steady rights)).grows _ _ _
      made).localCount
    rw [← Draft.skip_zero middle] at yields
    obtain ⟨result, slot, yields⟩ := yields_local (by decide) (by decide) yields
    have ended : after = middle.skip (0 + 1) ∧
        code = first ++ [assignCall result function (names.map Operand.name)] := by
      cases mode <;>
      · obtain ⟨same, rfl⟩ := yields_pure.mp yields
        cases same
        exact ⟨rfl, rfl⟩
    obtain ⟨rfl, rfl⟩ := ended
    obtain ⟨_, leaves⟩ := buildArguments_runs tidy rights accepted made
      ((middle.grows_skip 1).trans grows) fine
    have runs : Runs judgement machine
        (first ++ [assignCall result function (names.map Operand.name)]) locals store
        (fun last changed => Fixes before.localCount locals last ∧ store.Keeps changed ∧
          ∃ parts term, BuildsAll setting rounds arguments parts ∧
            setting.called function (parts.map Part.whole) term ∧ suits term ∧
            machine.read last (.name result) = .ok (.term term))
        fun _ _ => False := by
      refine Runs.append (leaves deep safe.1 unhidden stands) ?_
      rintro inner changed ⟨fixes, keeps, parts, all, suited, shows⟩
      have fitting : ∀ argument ∈ parts.map Part.whole, suits argument := by
        intro argument listed
        obtain ⟨part, among, rfl⟩ := List.mem_map.mp listed
        exact suited part among
      refine Runs.weaken (call_leaves slot le shows.readAll (serves _ fitting (safe.2 parts all) changed)) ?_
        fun _ _ given => given
      rintro last final ⟨still, kept, term, gives, good, shown⟩
      exact ⟨fixes.trans still, keeps.trans kept, parts, term, all, gives, good, shown⟩
    cases mode with
    | append =>
      obtain ⟨same, _⟩ := yields_pure.mp yields
      cases same
      refine Runs.weaken runs ?_ fun _ _ given => given
      rintro last changed ⟨fixes, keeps, parts, term, all, gives, suited, shown⟩
      exact ⟨fixes, keeps, .term term, .call all gives, suited, shown⟩
    | splice =>
      obtain ⟨same, _⟩ := yields_pure.mp yields
      cases same
      refine Runs.weaken runs ?_ fun _ _ given => given
      rintro last changed ⟨fixes, keeps, parts, term, all, gives, suited, shown⟩
      exact ⟨fixes, keeps, .spliced term, .splice all gives, suited, shown⟩

end Building

/-- The code of templates is right if that of each template is. -/
theorem allRight_of_each {judgement : Judgement} {machine : Machine} {suits : Term → Prop}
    {draft : Draft} {setting : Setting} {allowance : Allowance} {table : Table Symbol}
    {items : List Template} {depth : Nat} {scope : Scope}
    (each : ∀ item ∈ items, item.Constants setting.depths (fun term => term.reread = term ∧ suits term) →
      Serves judgement machine table setting allowance suits item.foreigns →
      ∀ {annotated : Annotated},
        item.annotateAt setting.depths setting.metafunctions depth = .ok annotated →
        Covers setting.depths scope item.symbols →
        Right judgement machine suits draft setting allowance scope depth item
          (build table scope annotated)) :
    ConstantsAll setting.depths (fun term => term.reread = term ∧ suits term) items →
    Serves judgement machine table setting allowance suits (foreignsAll items) →
    ∀ {annotated : List Annotated},
      annotateAllAt setting.depths setting.metafunctions depth items = .ok annotated →
      Covers setting.depths scope (symbolsAll items) →
      AllRight judgement machine suits draft setting allowance table scope depth items annotated := by
  induction items with
  | nil =>
    intro _ _ annotated accepted _
    cases accepted
    exact .nil
  | cons item rest ih =>
    intro constants serves annotated accepted covers
    obtain ⟨first, others, one, two, rfl⟩ := annotateAllAt_cons.mp accepted
    obtain ⟨here, later⟩ := List.forall_mem_cons.mp each
    refine .cons (here constants.1 (serves.mono fun used listed => List.mem_append_left _ listed)
      one (covers.mono fun name listed => List.mem_append_left _ listed)) ?_
    exact ih later constants.2 (serves.mono fun used listed => List.mem_append_right _ listed) two
      (covers.mono fun name listed => List.mem_append_right _ listed)

/-- The code of every template is right, if the functions are that it calls. -/
theorem build_right {judgement : Judgement} {machine : Machine} {suits : Term → Prop}
    {draft : Draft} {setting : Setting} {allowance : Allowance} {table : Table Symbol}
    (tidy : Term.Tidy suits) (carries : machine.Carries draft)
    (known : ∀ function, setting.metafunctions.contains function = true →
      ∃ target, table.find? function = some target) (template : Template) :
    template.Constants setting.depths (fun term => term.reread = term ∧ suits term) →
    Serves judgement machine table setting allowance suits template.foreigns →
    ∀ {depth : Nat} {annotated : Annotated} {scope : Scope},
      template.annotateAt setting.depths setting.metafunctions depth = .ok annotated →
      Covers setting.depths scope template.symbols →
      Right judgement machine suits draft setting allowance scope depth template
        (build table scope annotated) := by
  induction template using Template.induction with
  | literal term =>
    intro constants _ depth annotated scope accepted _
    cases accepted
    exact literal_right carries constants.1 constants.2 fun _ => .literal
  | symbol name =>
    intro constants _ depth annotated scope accepted covers
    rw [annotateAt_symbol_eq, annotateSymbol] at accepted
    split at accepted
    · rename_i free
      cases accepted
      exact literal_right carries (constants free).1 (constants free).2 fun _ => .unbound free
    · rename_i bound found
      split at accepted
      · cases accepted
      · cases accepted
        obtain ⟨source, there⟩ := covers name (List.mem_singleton.mpr rfl) bound found
        exact variable_right found there
  | sequence items each =>
    intro constants serves depth annotated scope accepted covers
    rcases annotateAt_sequence accepted with
      ⟨plain, inner, one, rfl⟩ | ⟨function, arguments, inner, applied, rfl, _, there, one, rfl⟩
    · exact sequence_right tidy (allRight_of_each (fun item listed constants serves _ accepted
        covers => each item listed constants serves accepted covers) constants serves one covers)
        plain
    · obtain ⟨target, found⟩ := known function there
      refine application_right tidy (allRight_of_each (fun item listed constants serves _ accepted
        covers => each item (List.mem_cons_of_mem _ listed) constants serves accepted covers)
        constants.2 serves one (covers.mono fun name listed => List.mem_append_right _ listed))
        applied rfl found (serves.applied function target found)
  | repeated inner ih =>
    intro constants serves depth annotated scope accepted covers
    obtain ⟨body, one, driven, rfl⟩ := annotateAt_repeated accepted
    rw [build]
    exact repeatCode_right tidy one driven covers fun innerScope covered =>
      ih constants serves one covered
  | inHole context contents around within =>
    intro constants serves depth annotated scope accepted covers
    obtain ⟨outer, inner, one, two, rfl⟩ := annotateAt_inHole accepted
    exact inHole_right tidy one two
      (around constants.1 (serves.mono fun used listed => List.mem_append_left _ listed) one
        (covers.mono fun name listed => List.mem_append_left _ listed))
      (within constants.2 (serves.mono fun used listed => List.mem_append_right _ listed) two
        (covers.mono fun name listed => List.mem_append_right _ listed))
  | foreign function arguments mode each =>
    intro constants serves depth annotated scope accepted covers
    obtain ⟨inner, one, rfl⟩ := annotateAt_foreign accepted
    exact foreign_right tidy one (allRight_of_each (fun item listed constants serves _ accepted
      covers => each item listed constants serves accepted covers) constants
      (serves.mono fun used listed => List.mem_cons_of_mem _ listed) one covers)
      (serves.called function mode List.mem_cons_self)

/-- Every variable among some symbols has a value of its depth in the bindings. -/
def Supplies (setting : Setting) (suits : Term → Prop) (names : List Symbol) (bindings : Bindings) :
    Prop :=
  ∀ name ∈ names, ∀ depth, setting.depths.find? name = some depth →
    ∃ term, bindings.lookup name = some term ∧ setting.assignment name = some term ∧
      term.NestedTo depth ∧ suits term

section Compiling

variable {table : Table Symbol} {depths : Depths} {metafunctions : SymbolSet} {template : Template}
  {annotated : Annotated} {before after : Draft} {name : Symbol}

theorem older_bindings (count : Nat) : Older count "m" := older_of_endsPlain (by decide) count

/-- The variables that are fetched are those of the template. -/
theorem covers_fetched (accepted : template.annotate depths metafunctions = .ok annotated)
    {bindings : Symbol} {scope : Scope} {code : List Statement}
    (yields : Yields (fetchVariables bindings annotated.readSymbols .empty) before (code, scope)
      after) : Covers depths scope template.symbols := by
  rw [fetchVariables_eq] at yields
  obtain ⟨_, _, entered⟩ := yields_fetchEach (by decide) (by decide) yields
  intro symbol listed depth bound
  have read := (mem_readSymbols accepted).mpr ⟨listed, depth, bound⟩
  obtain ⟨target, _, found, _⟩ := entered symbol (by rwa [List.map_id])
  exact ⟨target, found⟩

/-- An annotated template is compiled. -/
theorem exists_compile
    (known : ∀ function, metafunctions.contains function = true →
      ∃ target, table.find? function = some target)
    (accepted : template.annotate depths metafunctions = .ok annotated) (before : Draft) :
    ∃ name after, Yields (compile table annotated) before name after := by
  have stable : Stable fun _ : Draft => True := ⟨fun _ _ => trivial, fun _ _ _ => trivial⟩
  obtain ⟨name, named, drawn⟩ : ∃ name named, Yields (freshFunction "term" "") before name
      named := ⟨_, _, rfl⟩
  have fetching := steady_fetchEach stable "v" id (fun target symbol =>
    assignPrimitive target .matchGet [.name "m", .string symbol]) annotated.readSymbols .empty
  rw [← fetchVariables_eq] at fetching
  obtain ⟨⟨fetch, scope⟩, fetched, yields, _⟩ := fetching.succeeds named trivial
  obtain ⟨⟨code, result⟩, last, built, _⟩ := (steady_asTerm stable
    (steady_build stable known template accepted (covers_fetched accepted yields))
    annotated).succeeds fetched trivial
  refine ⟨name, _, yields_bind.mpr ⟨name, named, drawn, yields_bind.mpr ⟨(fetch, scope), fetched,
    yields, yields_bind.mpr ⟨(code, result), last, built, yields_bind.mpr
      ⟨⟨⟩, _, yields_modify.mpr rfl, yields_pure.mpr ⟨rfl, rfl⟩⟩⟩⟩⟩⟩

/-- The function that is compiled for an annotated template gives what the template denotes. -/
theorem compile_performs {judgement : Judgement} {machine : Machine} {suits : Term → Prop}
    {draft : Draft} {setting : Setting} {allowance : Allowance} (tidy : Term.Tidy suits)
    (carries : machine.Carries draft)
    (known : ∀ function, setting.metafunctions.contains function = true →
      ∃ target, table.find? function = some target)
    (constants : template.Constants setting.depths fun term => term.reread = term ∧ suits term)
    (serves : Serves judgement machine table setting allowance suits template.foreigns)
    (accepted : template.annotate setting.depths setting.metafunctions = .ok annotated)
    (yields : Yields (compile table annotated) before name after) (grows : after.Grows draft)
    (safe : Safe judgement.excuses allowance setting [] template) {store : Store} {place : Nat}
    {bindings : Bindings} (held : store.cell? place = some (.bindings bindings))
    (supplies : Supplies setting suits template.symbols bindings) :
    Performs judgement machine name [.bindings place] store
      (GivesTerm store fun term => Denotes setting template term ∧ suits term) := by
  obtain ⟨fresh, named, drawn, yields⟩ := yields_bind.mp yields
  obtain ⟨_, rfl⟩ := yields_freshFunction drawn
  obtain ⟨⟨fetch, scope⟩, fetched, fetches, yields⟩ := yields_bind.mp yields
  obtain ⟨⟨code, result⟩, last, built, yields⟩ := yields_bind.mp yields
  obtain ⟨_, _, added, yields⟩ := yields_bind.mp yields
  obtain rfl := yields_modify.mp added
  obtain ⟨rfl, rfl⟩ := yields_pure.mp yields
  have defined := carries.functions _ _ _
    (grows.functions _ (List.mem_append_right _ (List.mem_singleton.mpr rfl)))
  refine ⟨_, defined, rfl, ?_⟩
  have covers := covers_fetched accepted fetches
  have right := build_right tidy carries known template constants serves accepted covers
  rw [fetchVariables_eq] at fetches
  have empty : ScopeOlder .empty before.localCount := nofun
  have fine := ScopeOlder.fetchEach (by decide) (by decide) fetches empty
  have growing : last.Grows draft := (grows_addFunction _ _).trans grows
  obtain ⟨_, leaves⟩ := asTerm_runs tidy accepted right built growing fine
  have given : (Table.ofList (["m"].zip [Value.bindings place])).find? "m" =
      some (.bindings place) := Table.find?_insert_self _ _ _
  rw [List.append_assoc]
  refine fetchEach_runs (by decide) (by decide)
    (fun symbol => .term ((bindings.lookup symbol).getD .hole)) fetches ?_ ?_
  · intro symbol listed target later bound fixes rest
    obtain ⟨among, depth, deep⟩ := (mem_readSymbols accepted).mp listed
    obtain ⟨term, found, _⟩ := supplies symbol among depth deep
    refine Runs.matchGet (Machine.read_name ((fixes "m" (older_bindings _)).trans given)) held found ?_
    rw [id, found, Option.getD_some] at rest
    exact rest
  · intro bound fixes fetched
    have plain : EndsPlain "m".toList := by decide
    have unhidden : Unhidden bound := (unhidden_empty.insert plain _).fixes fixes
    have stands : Stands setting suits scope [] template.symbols bound := by
      intro symbol listed depth source deep found
      obtain ⟨term, there, assigned, nested, suited⟩ := supplies symbol listed depth deep
      have read := (mem_readSymbols accepted).mpr ⟨listed, depth, deep⟩
      have value := fetched symbol (by rwa [List.map_id]) source found
      rw [there, Option.getD_some] at value
      refine ⟨term, value, ?_, nested, suited⟩
      rw [Setting.element?, deep, Option.bind_some, assigned, Option.bind_some, List.take_nil]
      cases term <;> rfl
    refine Runs.append (Runs.weaken (leaves rfl safe unhidden stands)
      (fun _ _ reached => reached) fun _ _ none_ => none_.elim) ?_
    rintro inner changed ⟨_, keeps, _, ⟨part, builds, rfl⟩, suited, shown⟩
    exact Runs.returns shown ⟨part.whole, rfl, ⟨⟨part, builds, rfl⟩, suited⟩, keeps⟩

end Compiling

end Construction

end Reduct
