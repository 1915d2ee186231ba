import Reduct.Compile.Construction
import Reduct.Proofs.LocalNames
import Reduct.Proofs.TemplateMeaning

/-!
# Constructions are compiled

The code of an annotated template can be generated in every scope that has its variables, if
every metafunction has a function. Generating it only adds to the draft.
-/

namespace Reduct

namespace Construction

open Draft Statement

/-- Fetching things one by one into new locals, which enter a scope under keys. -/
def fetchEach {α : Type} (hint : String) (key : α → Symbol) (fetch : Symbol → α → Statement) :
    List α → Scope → Drafting (List Statement × Scope)
  | [], scope => pure ([], scope)
  | item :: rest, scope => do
    let target ← freshLocal hint
    let (code, scope) ← fetchEach hint key fetch rest (scope.insert (key item) target)
    pure (fetch target item :: code, scope)

theorem fetchElements_eq (index : Symbol) (sources : List (Symbol × Symbol)) (scope : Scope) :
    fetchElements index sources scope =
      fetchEach "e" (·.1) (fun element source =>
        assignPrimitive element .sequenceGet [.name source.2, .name index]) sources scope := by
  induction sources generalizing scope with
  | nil => rfl
  | cons source rest ih =>
    rw [fetchElements, fetchEach]
    exact bind_congr fun element => by rw [ih]

theorem fetchVariables_eq (bindings : Symbol) (symbols : List Symbol) (scope : Scope) :
    fetchVariables bindings symbols scope =
      fetchEach "v" id (fun target symbol =>
        assignPrimitive target .matchGet [.name bindings, .string symbol]) symbols scope := by
  induction symbols generalizing scope with
  | nil => rfl
  | cons symbol rest ih =>
    rw [fetchVariables, fetchEach]
    exact bind_congr fun target => by rw [ih]; rfl

/-- A scope has the variables among some symbols. -/
def Covers (depths : Depths) (scope : Scope) (names : List Symbol) : Prop :=
  ∀ name ∈ names, ∀ depth, depths.find? name = some depth → ∃ source, scope.find? name = some source

theorem Covers.mono {depths : Depths} {scope : Scope} {names fewer : List Symbol}
    (covers : Covers depths scope names) (within : ∀ name ∈ fewer, name ∈ names) :
    Covers depths scope fewer :=
  fun name listed => covers name (within name listed)

/-- Names of locals that were drawn before, for every variable of a scope. -/
def ScopeOlder (scope : Scope) (count : Nat) : Prop :=
  ∀ name source, scope.find? name = some source → Older count source

theorem ScopeOlder.mono {scope : Scope} {fewer count : Nat} (older : ScopeOlder scope fewer)
    (le : fewer ≤ count) : ScopeOlder scope count :=
  fun name source found => (older name source found).mono le

/-- What is fetched enters the scope under new names, and all else stays there as it was. -/
theorem yields_fetchEach {α : Type} {hint : String} (plain : EndsPlain hint.toList)
    (other : hint ≠ "lit") {key : α → Symbol} {fetch : Symbol → α → Statement} {items : List α} :
    ∀ {scope inner : Scope} {before after : Draft} {code : List Statement},
      Yields (fetchEach hint key fetch items scope) before (code, inner) after →
      after = before.skip items.length ∧
      (∀ name, name ∉ items.map key → inner.find? name = scope.find? name) ∧
      ∀ name ∈ items.map key, ∃ target number, inner.find? name = some target ∧
        Slot target number ∧ before.localCount ≤ number ∧ number < after.localCount := by
  induction items with
  | nil =>
    intro scope inner before after code yields
    obtain ⟨same, rfl⟩ := yields_pure.mp yields
    cases same
    exact ⟨rfl, fun _ _ => rfl, nofun⟩
  | cons item rest ih =>
    intro scope inner before after code yields
    rw [fetchEach, ← Draft.skip_zero before] at yields
    obtain ⟨target, slot, yields⟩ := yields_local plain other yields
    obtain ⟨⟨others, last⟩, middle, fetched, yields⟩ := yields_bind.mp yields
    obtain ⟨same, rfl⟩ := yields_pure.mp yields
    cases same
    obtain ⟨rfl, kept, entered⟩ := ih fetched
    simp only [localCount_skip] at entered
    refine ⟨?_, ?_, ?_⟩
    · unfold Draft.skip
      simp only [List.length_cons, Nat.add_assoc, Nat.add_comm 1]
    · intro name outside
      rw [List.map_cons, List.mem_cons, not_or] at outside
      rw [kept name outside.2, Table.find?_insert_ne _ _ (Ne.symm outside.1)]
    · intro name listed
      simp only [localCount_skip]
      by_cases later : name ∈ rest.map key
      · obtain ⟨found, number, there, slot, above, below⟩ := entered name later
        exact ⟨found, number, there, slot, by omega, by omega⟩
      · have first : name = key item := (List.mem_cons.mp listed).resolve_right later
        refine ⟨target, before.localCount, ?_, slot, Nat.le_refl _, by omega⟩
        rw [kept name later, first, Table.find?_insert_self]

section Steady

variable {good : Draft → Prop}

theorem steady_fetchEach (stable : Stable good) {α : Type} (hint : String) (key : α → Symbol)
    (fetch : Symbol → α → Statement) (items : List α) (scope : Scope) :
    Steady good (fetchEach hint key fetch items scope) := by
  induction items generalizing scope with
  | nil => exact .pure _
  | cons item rest ih =>
    exact .bind (stable.freshLocal _) fun _ => .bind (ih _) fun _ => .pure _

theorem steady_addPiece (stable : Stable good) (list : Symbol) (piece : Piece) :
    Steady good (addPiece list piece) := by
  cases piece with
  | term result => exact .pure _
  | list result => exact .pure _
  | spliced result => exact .bind (stable.freshLocal _) fun _ => .pure _

theorem steady_contribution (stable : Stable good) {coded : Coded} (steady : Steady good coded)
    (list : Symbol) : Steady good (contribution coded list) :=
  .bind steady fun _ => .bind (steady_addPiece stable list _) fun _ => .pure _

theorem steady_listOf (stable : Stable good) {contribute : Symbol → Drafting (List Statement)}
    (each : ∀ list, Steady good (contribute list)) : Steady good (listOf contribute) :=
  .bind (stable.freshLocal _) fun list => .bind (each list) fun _ => .pure _

theorem steady_sequenceOf (stable : Stable good) {contribute : Symbol → Drafting (List Statement)}
    (each : ∀ list, Steady good (contribute list)) : Steady good (sequenceOf contribute) :=
  .bind (steady_listOf stable each) fun _ => .bind (stable.freshLocal _) fun _ => .pure _

theorem steady_asTerm (stable : Stable good) {coded : Coded} (steady : Steady good coded)
    (template : Annotated) : Steady good (asTerm template coded) := by
  unfold asTerm
  split
  · exact steady_sequenceOf stable (steady_contribution stable steady)
  · refine .bind steady fun built => ?_
    obtain ⟨code, piece⟩ := built
    cases piece <;> exact .pure _

/-- The drivers of an ellipsis have locals in a scope. -/
theorem yields_driverLocals {scope : Scope} {drivers : List Symbol} :
    ∀ {before after : Draft} {sources : List (Symbol × Symbol)},
      Yields (driverLocals scope drivers) before sources after →
      after = before ∧ sources.map (·.1) = drivers ∧
        ∀ source ∈ sources, scope.find? source.1 = some source.2 := by
  induction drivers with
  | nil =>
    intro before after sources yields
    obtain ⟨rfl, rfl⟩ := yields_pure.mp yields
    exact ⟨rfl, rfl, nofun⟩
  | cons driver rest ih =>
    intro before after sources yields
    rw [driverLocals] at yields
    split at yields
    · cases yields
    · rename_i source found
      obtain ⟨others, middle, later, yields⟩ := yields_bind.mp yields
      obtain ⟨rfl, rfl⟩ := yields_pure.mp yields
      obtain ⟨rfl, same, known⟩ := ih later
      refine ⟨rfl, by rw [List.map_cons, same], ?_⟩
      exact List.forall_mem_cons.mpr ⟨found, known⟩

theorem steady_driverLocals {scope : Scope} {drivers : List Symbol}
    (known : ∀ driver ∈ drivers, ∃ source, scope.find? driver = some source) :
    Steady good (driverLocals scope drivers) := by
  induction drivers with
  | nil => exact .pure _
  | cons driver rest ih =>
    obtain ⟨source, found⟩ := known driver List.mem_cons_self
    rw [driverLocals, found]
    exact .bind (ih fun other listed => known other (List.mem_cons_of_mem _ listed)) fun _ =>
      .pure _

/-- The scope inside an ellipsis has the variables that the scope around it has. -/
theorem Covers.fetchElements {depths : Depths} {scope inner : Scope} {names : List Symbol}
    {index : Symbol} {sources : List (Symbol × Symbol)} {before after : Draft}
    {code : List Statement} (covers : Covers depths scope names)
    (yields : Yields (fetchElements index sources scope) before (code, inner) after) :
    Covers depths inner names := by
  rw [fetchElements_eq] at yields
  obtain ⟨_, kept, entered⟩ := yields_fetchEach (by decide) (by decide) yields
  intro name listed depth bound
  by_cases driver : name ∈ sources.map (·.1)
  · obtain ⟨target, _, found, _⟩ := entered name driver
    exact ⟨target, found⟩
  · rw [kept name driver]
    exact covers name listed depth bound

theorem steady_repeatCode (stable : Stable good) {depths : Depths} {scope : Scope}
    {names drivers : List Symbol} (covers : Covers depths scope names)
    (driven : drivers ≠ []) (walked : ∀ driver ∈ drivers, ∃ source, scope.find? driver = some source)
    {inner : Scope → Coded}
    (each : ∀ innerScope, Covers depths innerScope names → Steady good (inner innerScope)) :
    Steady good (repeatCode scope drivers inner) := by
  unfold repeatCode
  refine .bindOf (steady_driverLocals walked) fun before sources after located => ?_
  obtain ⟨_, same, _⟩ := yields_driverLocals located
  cases sources with
  | nil => exact absurd same.symm driven
  | cons first others =>
    refine .bind (stable.freshLocal _) fun _ => .bind (stable.freshLocal _) fun _ =>
      .bind (stable.freshLocal _) fun index => .bindOf ?_ fun _ fetched _ yields => ?_
    · rw [fetchElements_eq]
      exact steady_fetchEach stable _ _ _ _ _
    · exact .bind (steady_listOf stable
        (steady_contribution stable (each fetched.2 (covers.fetchElements yields)))) fun _ =>
        .pure _

end Steady

section Templates

variable {good : Draft → Prop} {table : Table Symbol} {depths : Depths}
  {metafunctions : SymbolSet}

theorem steady_contributeAll (stable : Stable good) {scope : Scope} {items : List Annotated}
    (each : ∀ item ∈ items, Steady good (build table scope item)) (list : Symbol) :
    Steady good (contributeAll table scope items list) := by
  induction items with
  | nil => exact .pure _
  | cons item rest ih =>
    rw [contributeAll]
    exact .bind (steady_contribution stable (each item List.mem_cons_self) list) fun _ =>
      .bind (ih fun other listed => each other (List.mem_cons_of_mem _ listed)) fun _ => .pure _

theorem steady_buildArguments (stable : Stable good) {scope : Scope} {items : List Annotated}
    (each : ∀ item ∈ items, Steady good (build table scope item)) :
    Steady good (buildArguments table scope items) := by
  induction items with
  | nil => exact .pure _
  | cons item rest ih =>
    rw [buildArguments]
    exact .bind (steady_asTerm stable (each item List.mem_cons_self) item) fun _ =>
      .bind (ih fun other listed => each other (List.mem_cons_of_mem _ listed)) fun _ => .pure _

/-- Each of some annotated templates comes of one of the templates. -/
theorem exists_of_mem_annotated {depth : Nat} {items : List Template} :
    ∀ {annotated : List Annotated},
      Template.annotateAllAt depths metafunctions depth items = .ok annotated →
      ∀ other ∈ annotated, ∃ item ∈ items,
        item.annotateAt depths metafunctions depth = .ok other := by
  induction items with
  | nil =>
    intro annotated accepted
    cases accepted
    nofun
  | cons item rest ih =>
    intro annotated accepted other listed
    obtain ⟨first, others, one, two, rfl⟩ := Template.annotateAllAt_cons.mp accepted
    rcases List.mem_cons.mp listed with rfl | later
    · exact ⟨item, List.mem_cons_self, one⟩
    · obtain ⟨found, among, same⟩ := ih two other later
      exact ⟨found, List.mem_cons_of_mem _ among, same⟩

/-- The code of an annotated template can be generated. -/
theorem steady_build (stable : Stable good)
    (known : ∀ function, metafunctions.contains function = true →
      ∃ target, table.find? function = some target) (template : Template) :
    ∀ {depth : Nat} {annotated : Annotated} {scope : Scope},
      template.annotateAt depths metafunctions depth = .ok annotated →
      Covers depths scope template.symbols → Steady good (build table scope annotated) := by
  have all : ∀ {items : List Template} {depth : Nat} {annotated : List Annotated} {scope : Scope},
      (∀ item ∈ items, ∀ {depth : Nat} {annotated : Annotated} {scope : Scope},
        item.annotateAt depths metafunctions depth = .ok annotated →
        Covers depths scope item.symbols → Steady good (build table scope annotated)) →
      Template.annotateAllAt depths metafunctions depth items = .ok annotated →
      Covers depths scope (Template.symbolsAll items) →
      ∀ other ∈ annotated, Steady good (build table scope other) := by
    intro items depth annotated scope each accepted covers other listed
    obtain ⟨item, among, one⟩ := exists_of_mem_annotated accepted other listed
    exact each item among one
      (covers.mono fun name inside => Template.mem_symbolsAll.mpr ⟨item, among, inside⟩)
  induction template using Template.induction with
  | literal term =>
    intro depth annotated scope accepted covers
    cases accepted
    rw [build]
    exact .bind (stable.constant _) fun _ => .pure _
  | symbol name =>
    intro depth annotated scope accepted covers
    rw [Template.annotateAt_symbol_eq, Template.annotateSymbol] at accepted
    split at accepted
    · cases accepted
      rw [build]
      exact .bind (stable.constant _) fun _ => .pure _
    · rename_i bound found
      split at accepted
      · cases accepted
      · cases accepted
        obtain ⟨source, there⟩ := covers name (List.mem_singleton.mpr rfl) bound found
        rw [build, there]
        exact .pure _
  | sequence items each =>
    intro depth annotated scope accepted covers
    rcases Template.annotateAt_sequence accepted with
      ⟨_, inner, one, rfl⟩ | ⟨function, arguments, inner, _, rfl, _, there, one, rfl⟩
    · rw [build]
      exact .bind (steady_sequenceOf stable
        (steady_contributeAll stable (all each one covers))) fun _ => .pure _
    · obtain ⟨target, found⟩ := known function there
      rw [build, found]
      refine .bind (steady_sequenceOf stable (steady_contributeAll stable (all
        (fun item listed => each item (List.mem_cons_of_mem _ listed)) one
        (covers.mono fun name listed => List.mem_append_right _ listed)))) fun _ => ?_
      exact .bind (stable.freshLocal _) fun _ => .pure _
  | repeated inner ih =>
    intro depth annotated scope accepted covers
    obtain ⟨body, one, driven, rfl⟩ := Template.annotateAt_repeated accepted
    rw [build]
    refine steady_repeatCode stable covers driven ?_ fun innerScope inside => ih one inside
    intro driver listed
    obtain ⟨among, bound, found, _⟩ := (Template.mem_driversAt one).mp listed
    exact covers driver among bound found
  | inHole context contents around within =>
    intro depth annotated scope accepted covers
    obtain ⟨outer, inner, one, two, rfl⟩ := Template.annotateAt_inHole accepted
    rw [build]
    refine .bind (steady_asTerm stable (around one
      (covers.mono fun name listed => List.mem_append_left _ listed)) _) fun _ => ?_
    refine .bind (steady_asTerm stable (within two
      (covers.mono fun name listed => List.mem_append_right _ listed)) _) fun _ => ?_
    exact .bind (stable.freshLocal _) fun _ => .pure _
  | foreign function arguments mode each =>
    intro depth annotated scope accepted covers
    obtain ⟨inner, one, rfl⟩ := Template.annotateAt_foreign accepted
    rw [build]
    refine .bind (steady_buildArguments stable (all each one covers)) fun _ => ?_
    refine .bind (stable.freshLocal _) fun _ => ?_
    cases mode <;> exact .pure _

end Templates

end Construction

end Reduct
