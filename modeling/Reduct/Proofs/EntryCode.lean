import Reduct.Proofs.DefinitionCode
import Reduct.Proofs.EntryMeaning

/-!
# The code of entries

The function of an entry calls a top-level matcher, a construction or the function of a relation,
and compares what comes of it with what is expected. It returns if the entry comes to its end, and
fails with what the entry fails with. Expected matches may name a symbol twice; then bindings are
used out of turn, which ends the run.
-/

namespace Reduct

/-! ## Lists of matches and of terms -/

/-- A list that shows bindings is a list of matches. -/
theorem Display.Lists.toMatches {store : Store} {place : Nat} {found : List Bindings}
    (lists : Display.found.Lists store place found) :
    (Value.list place).toMatches store = .ok found := by
  obtain ⟨items, held, shown⟩ := lists
  have all : ∀ {values : List Value} {contents : List Bindings},
      List.Forall₂ (Display.found.shows store) values contents →
      values.mapM (fun item : Value => (item.toBindings store).map (·.2)) = .ok contents := by
    intro values contents pointwise
    induction pointwise with
    | nil => rfl
    | cons one _ ih =>
      obtain ⟨source, rfl, there⟩ := one
      rw [List.mapM_cons, ih]
      simp only [Value.toBindings, store.bindings?_of_cell? there]
      rfl
  unfold Value.toMatches
  simp only [Value.toList, store.list?_of_cell? held, Option.getD_some, bind, Except.bind]
  exact all shown

namespace Primitive

variable {store : Store} {place other : Nat}

theorem apply_matchesToString {found : List Bindings}
    (lists : Display.found.Lists store place found) :
    Primitive.matchesToString.apply store [.list place] =
      .ok (.keep (.string (Bindings.listText found))) := by
  change (ofCheck ((Value.list place).toMatches store)).bind _ = _
  rw [lists.toMatches]
  rfl

theorem apply_termsToString {terms : List Term} (lists : Display.term.Lists store place terms) :
    Primitive.termsToString.apply store [.list place] =
      .ok (.keep (.string (Term.listText terms))) := by
  change (ofCheck ((Value.list place).toTerms store)).bind _ = _
  rw [lists.toTerms]
  rfl

theorem apply_termSetsEqual {first second : List Term}
    (left : Display.term.Lists store place first) (right : Display.term.Lists store other second) :
    Primitive.termSetsEqual.apply store [.list place, .list other] =
      .ok (.keep (.bool (sameMembers first second))) := by
  change (ofCheck ((Value.list place).toTerms store)).bind (fun one =>
    (ofCheck ((Value.list other).toTerms store)).bind fun two =>
      Except.ok (Change.keep (.bool (sameMembers one two)))) = _
  rw [left.toTerms, right.toTerms]
  rfl

theorem apply_matchSetsEqual {first second : List Bindings}
    (left : Display.found.Lists store place first)
    (right : Display.found.Lists store other second) {same : Bool}
    (compared : Bindings.sameMatches first second = .ok same) :
    Primitive.matchSetsEqual.apply store [.list place, .list other] =
      .ok (.keep (.bool same)) := by
  change (ofCheck ((Value.list place).toMatches store)).bind (fun one =>
    (ofCheck ((Value.list other).toMatches store)).bind fun two =>
      (ofBindings (Bindings.sameMatches one two)).bind fun equal =>
        Except.ok (Change.keep (.bool equal))) = _
  rw [left.toMatches, right.toMatches]
  change (ofBindings (Bindings.sameMatches first second)).bind _ = _
  rw [compared]
  rfl

end Primitive

namespace Program.Compilation

open Draft Statement Construction Attempt Template

variable {forms : List Form} {prints : Bool} {compilation : Compilation forms prints}
  {judgement : Judgement} {machine : Machine} {host : Host} {ends : Prop}
  {apply : Symbol → Term → Attempt Term}

/-- A constant of a form is read as it is written. -/
theorem Supports.reads_constant
    (supports : compilation.Supports judgement machine host ends apply) {term : Term}
    (plain : term.Plain) {before after : Draft} {name : Symbol}
    (yields : Yields (constant term) before name after) (grows : after.Grows compilation.draft)
    {locals : Table Value} (unhidden : Unhidden locals) :
    machine.read locals (.name name) = .ok (.term term) := by
  have held := supports.carries.read unhidden ((yields_constant yields).2.grows grows)
  rwa [plain.proper.reread] at held

/-- An addition is an entry of a description and a kind, whose function gives what it should. -/
def Concludes (judgement : Judgement) (machine : Machine) (addition : Addition)
    (description : String) (kind : EntryKind) (span : Span) (gives : Value → Store → Prop) : Prop :=
  ∃ function, addition = .entry ⟨function, description, kind, span⟩ ∧
    ∀ store, Performs judgement machine function [] store gives

section Entries

variable {name : Symbol} {body : List Statement} {description : String} {kind : EntryKind}
  {span : Span} {before after : Draft} {addition : Addition}

theorem grows_freshFunction {hint base : String}
    (yields : Yields (freshFunction base hint) before name after) : before.Grows after := by
  obtain ⟨_, rfl⟩ := yields_freshFunction yields
  exact ⟨List.prefix_refl _, fun _ listed => listed, fun _ _ found => found,
    fun _ _ found => found, fun _ _ found => found, Nat.le_refl _⟩

theorem grows_entry (yields : Yields (entry name body description kind span) before addition after) :
    before.Grows after := by
  obtain ⟨_, middle, added, yields⟩ := yields_bind.mp yields
  obtain rfl := yields_modify.mp added
  obtain ⟨rfl, rfl⟩ := yields_pure.mp yields
  exact grows_addFunction _ _

/-- An entry concludes if its body does. -/
theorem Supports.concludes (supports : compilation.Supports judgement machine host ends apply)
    (yields : Yields (entry name body description kind span) before addition after)
    (grows : after.Grows compilation.draft) {gives : Value → Store → Prop}
    (runs : ∀ store, Runs judgement machine body .empty store (fun _ _ => False) gives) :
    Concludes judgement machine addition description kind span gives := by
  obtain ⟨_, middle, added, yields⟩ := yields_bind.mp yields
  obtain rfl := yields_modify.mp added
  obtain ⟨rfl, rfl⟩ := yields_pure.mp yields
  have written := grows.functions _ (List.mem_append_right _ List.mem_cons_self)
  exact ⟨_, rfl, fun store => ⟨_, supports.carries.functions _ _ _ written, rfl, runs store⟩⟩

end Entries

/-! ## Entries that match -/

section Matching

variable (read : ∀ form ∈ forms, form.Read) {name : Symbol} {pattern : Pattern}
  {prepared : Prepared} (uses : compilation.Uses name pattern prepared)

include read uses

/-- An entry that gives matches, and prints them if it has to. -/
theorem Supports.redexMatch_concludes
    (supports : compilation.Supports judgement machine host ends apply) {term : Term}
    (plain : term.Plain) {description : String} {span : Span} {before after : Draft}
    {addition : Addition}
    (yields : Yields (generate compilation.scope span
      (.redexMatch name prepared term description)) before addition after)
    (grows : after.Grows compilation.draft) :
    Concludes judgement machine addition description .matching span fun value after =>
      ∃ place found, (compilation.world host).found name pattern term = some (.ok found) ∧
        value = .list place ∧ Display.found.Lists after place found := by
  obtain ⟨_, _, found, _, _, searched, _⟩ := uses.exists_found read host term
  obtain ⟨matcher, top, matching, yields⟩ := yields_bind.mp yields
  obtain ⟨function, named, drawn, yields⟩ := yields_bind.mp yields
  obtain ⟨input, start, constant, yields⟩ := yields_bind.mp yields
  rw [← Draft.skip_zero start] at yields
  obtain ⟨list, slot, yields⟩ := yields_local (by decide) (by decide) yields
  -- The matches are listed, whether they are printed or not.
  have calls : ∀ {rest : List Statement} {gives : Value → Store → Prop} (store : Store),
      start.Grows compilation.draft →
      (∀ place changed, Display.found.Lists changed place found →
        Runs judgement machine rest ((Table.empty : Table Value).insert list (.list place)) changed
          (fun _ _ => False) gives) →
      Runs judgement machine (assignCall list matcher [.name input] :: rest) .empty store
        (fun _ _ => False) gives := by
    intro rest gives store inside others
    refine Runs.assignCall (Machine.readAll_one
      (supports.reads_constant plain constant inside unhidden_empty))
      (supports.topMatcher_calls read uses matching ((grows_freshFunction drawn).trans
        ((yields_constant constant).1.trans inside)) plain.proper searched store) ?_
    rintro _ changed ⟨place, _, rfl, _, same, _, lists⟩
    cases same
    exact others place changed lists
  dsimp only at yields
  split at yields
  · obtain ⟨text, slot1, yields⟩ := yields_local (by decide) (by decide) yields
    obtain ⟨_, _, printed, yields⟩ := yields_bind.mp yields
    obtain ⟨rfl, rfl⟩ := yields_pure.mp printed
    refine supports.concludes yields grows fun store => calls store
      ((start.grows_skip 2).trans ((grows_entry yields).trans grows)) fun place changed lists => ?_
    refine Runs.keep (Machine.readAll_one (Machine.read_name (Table.find?_insert_self _ _ _)))
      (Primitive.apply_matchesToString lists) ?_
    refine Runs.print (Machine.read_name (Table.find?_insert_self _ _ _)) ?_
    have kept : (((Table.empty : Table Value).insert list (.list place)).insert text
        (.string (Bindings.listText found))).find? list = some (.list place) := by
      rw [Table.find?_insert_ne _ _ (slot1.ne slot (by omega)), Table.find?_insert_self]
    exact Runs.returns (Machine.read_name kept) ⟨place, found, searched, rfl, lists⟩
  · obtain ⟨_, _, printed, yields⟩ := yields_bind.mp yields
    obtain ⟨rfl, rfl⟩ := yields_pure.mp printed
    refine supports.concludes yields grows fun store => calls store
      ((start.grows_skip 1).trans ((grows_entry yields).trans grows)) fun place changed lists => ?_
    exact Runs.returns (Machine.read_name (Table.find?_insert_self _ _ _))
      ⟨place, found, searched, rfl, lists⟩

end Matching

section Expecting

variable (supports : compilation.Supports judgement machine host ends apply)

include supports

/-- Expected bindings are added to bindings one by one, unless a symbol is named twice. -/
theorem Supports.addEach_runs {env : Symbol} {place : Nat}
    {pairs : List (Symbol × Term)} {locals : Table Value}
    (known : locals.find? env = some (.bindings place)) (unhidden : Unhidden locals) :
    ∀ {before after : Draft} {code : List Statement},
      Yields (pairs.mapM fun pair => do
        let value ← constant pair.2
        pure (perform .matchAdd [.name env, .string pair.1, .name value])) before code after →
      after.Grows compilation.draft → (∀ pair ∈ pairs, pair.2.Plain) →
      ∀ {store : Store} {content : Bindings}, store.cell? place = some (.bindings content) →
        judgement.Expects (content.addAll? pairs) → ∀ {gives : Value → Store → Prop},
        Runs judgement machine code locals store
          (fun last changed => last = locals ∧ Store.KeepsBut place store changed ∧
            ∃ result, content.addAll? pairs = some result ∧
              changed.cell? place = some (.bindings result))
          gives := by
  induction pairs with
  | nil =>
    intro before after code yields _ _ store content held _ gives
    rw [List.mapM_nil] at yields
    obtain ⟨rfl, rfl⟩ := yields_pure.mp yields
    exact .nil ⟨rfl, (Store.Keeps.refl store).but place, content, rfl, held⟩
  | cons pair rest ih =>
    intro before after code yields grows plain store content held expected gives
    obtain ⟨here, later⟩ := List.forall_mem_cons.mp plain
    rw [List.mapM_cons] at yields
    rw [Bindings.addAll?_cons] at expected ⊢
    obtain ⟨first, middle, one, yields⟩ := yields_bind.mp yields
    obtain ⟨others, last, two, yields⟩ := yields_bind.mp yields
    obtain ⟨rfl, rfl⟩ := yields_pure.mp yields
    obtain ⟨value, _, made, one⟩ := yields_bind.mp one
    obtain ⟨rfl, rfl⟩ := yields_pure.mp one
    have lenient := lenient_continues Atom.Legible compilation.HasLanguage
    have adding := lenient.mapM (fun pair among => lenient.bind
      (lenient.constant (later pair among).legible) fun _ => lenient.pure _) _ _ _ two
    refine Runs.matchAdd (Machine.read_name known) held
      (supports.reads_constant here made (adding.grows.trans grows) unhidden) expected.of_bind ?_
    intro changed added
    have own : (store.setBindings place changed).cell? place = some (.bindings changed) := by
      rw [Store.cell?_setBindings _ held, if_pos rfl]
    refine Runs.weaken (ih two grows later own (expected.bind_some added)) ?_ fun _ _ => id
    rintro _ final ⟨rfl, kept, result, all, there⟩
    refine ⟨rfl, (Store.keepsBut_setBindings held changed).trans kept, result, ?_, there⟩
    rw [added, Option.bind_some, all]

/-- The bindings of one expected match are built and added to a list. -/
theorem Supports.expectedBindings_runs {wanted : Symbol} {target : Nat}
    {pairs : List (Symbol × Term)} (plain : ∀ pair ∈ pairs, pair.2.Plain)
    (expected : judgement.Expects (Bindings.empty.addAll? pairs))
    {before after : Draft} {code : List Statement}
    (yields : Yields (expectedBindings wanted pairs) before code after)
    (grows : after.Grows compilation.draft) (older : Older before.localCount wanted)
    {locals : Table Value} (unhidden : Unhidden locals)
    (known : locals.find? wanted = some (.list target)) {store : Store} {items : Array Value}
    (held : store.cell? target = some (.list items)) {gives : Value → Store → Prop} :
    Runs judgement machine code locals store
      (fun last changed => Fixes before.localCount locals last ∧
        ∃ result, Bindings.empty.addAll? pairs = some result ∧
          Display.found.Appends target store changed [result])
      gives := by
  rw [expectedBindings, ← Draft.skip_zero before] at yields
  obtain ⟨env, slot, yields⟩ := yields_local (by decide) (by decide) yields
  obtain ⟨adds, last, adding, yields⟩ := yields_bind.mp yields
  obtain ⟨rfl, rfl⟩ := yields_pure.mp yields
  have fixes := (Fixes.refl before.localCount locals).insert slot (Nat.le_refl _)
    (.bindings store.size)
  have keeps := store.keeps_addCell (.bindings .empty)
  refine Runs.newMatch ?_
  refine Runs.append (supports.addEach_runs (Table.find?_insert_self _ _ _)
    (unhidden.fixes fixes) adding grows plain (store.cell?_addCell_self _) expected) ?_
  rintro _ changed ⟨rfl, kept, result, added, there⟩
  have from_ := keeps.trans_but store.cell?_size kept
  refine Runs.listAppend (Machine.read_name ((fixes wanted older).trans known)) (from_ _ _ held)
    (Machine.read_name (Table.find?_insert_self _ _ _)) fun _ => .nil ⟨fixes, result, added, ?_⟩
  have appends := Display.appends_extendList (from_ _ _ held)
    (.cons ⟨store.size, rfl, there⟩ .nil : List.Forall₂ (Display.found.shows changed) _ [result])
  exact appends.keeps_left from_ held

/-- The bindings of all expected matches are built and added to a list. -/
theorem Supports.expectations_runs {wanted : Symbol} {target : Nat}
    {expected : List (List (Symbol × Term))} {gives : Value → Store → Prop} :
    ∀ {before after : Draft} {codes : List (List Statement)},
      Yields (expected.mapM (expectedBindings wanted)) before codes after →
      after.Grows compilation.draft → (∀ pairs ∈ expected, ∀ pair ∈ pairs, pair.2.Plain) →
      Older before.localCount wanted →
      judgement.Expects (expected.mapM fun pairs => Bindings.empty.addAll? pairs) →
      ∀ {locals : Table Value} {store : Store} {items : Array Value}, Unhidden locals →
        locals.find? wanted = some (.list target) → store.cell? target = some (.list items) →
        Runs judgement machine codes.flatten locals store
          (fun last changed => Fixes before.localCount locals last ∧
            ∃ results, expected.mapM (fun pairs => Bindings.empty.addAll? pairs) = some results ∧
              Display.found.Appends target store changed results)
          gives := by
  induction expected with
  | nil =>
    intro before after codes yields _ _ _ _ locals store items _ _ held
    rw [List.mapM_nil] at yields
    obtain ⟨rfl, rfl⟩ := yields_pure.mp yields
    exact .nil ⟨.refl _ _, [], rfl, .nil held (.refl store)⟩
  | cons pairs rest ih =>
    intro before after codes yields grows plain older built locals store items unhidden known held
    obtain ⟨here, later⟩ := List.forall_mem_cons.mp plain
    rw [List.mapM_cons] at yields built ⊢
    obtain ⟨code, middle, one, yields⟩ := yields_bind.mp yields
    obtain ⟨codes, last, two, yields⟩ := yields_bind.mp yields
    obtain ⟨rfl, rfl⟩ := yields_pure.mp yields
    have first : Continues Atom.Legible compilation.HasLanguage before middle :=
      continues_expectedBindings _ (fun pair among => (here pair among).legible) _ _ _ one
    have second : Continues Atom.Legible compilation.HasLanguage middle last :=
      (lenient_continues _ _).mapM (fun pairs among => continues_expectedBindings _
        fun pair inside => (later pairs among pair inside).legible) _ _ _ two
    have le := first.grows.localCount
    rw [List.flatten_cons]
    refine Runs.append (supports.expectedBindings_runs here built.of_bind one
      (second.grows.trans grows) older unhidden known held) ?_
    rintro inner changed ⟨fixes, result, added, appends⟩
    obtain ⟨_, _, _, own, _⟩ := appends.grown
    refine Runs.weaken (ih two grows later (older.mono le) (built.bind_some added).of_bind
      (unhidden.fixes fixes) ((fixes wanted older).trans known) own) ?_ fun _ _ => id
    rintro final store_ ⟨still, results, all, appended⟩
    refine ⟨fixes.trans (still.mono le), _, ?_, appends.trans appended⟩
    rw [added, all]
    rfl

/-- Expected terms are added to a list one by one. -/
theorem Supports.appendEach_runs {wanted : Symbol} {target : Nat} {terms : List Term}
    {locals : Table Value} (unhidden : Unhidden locals)
    (known : locals.find? wanted = some (.list target)) :
    ∀ {before after : Draft} {code : List Statement},
      Yields (terms.mapM fun term => do
        let value ← constant term
        pure (perform .listAppend [.name wanted, .name value])) before code after →
      after.Grows compilation.draft → (∀ term ∈ terms, term.Plain) →
      ∀ {store : Store} {items : Array Value}, store.cell? target = some (.list items) →
        ∀ {gives : Value → Store → Prop}, Runs judgement machine code locals store
          (fun last changed => last = locals ∧ Display.term.Appends target store changed terms)
          gives := by
  induction terms with
  | nil =>
    intro before after code yields _ _ store items held gives
    rw [List.mapM_nil] at yields
    obtain ⟨rfl, rfl⟩ := yields_pure.mp yields
    exact .nil ⟨rfl, .nil held (.refl store)⟩
  | cons term rest ih =>
    intro before after code yields grows plain store items held gives
    obtain ⟨here, later⟩ := List.forall_mem_cons.mp plain
    rw [List.mapM_cons] at yields
    obtain ⟨first, middle, one, yields⟩ := yields_bind.mp yields
    obtain ⟨others, last, two, yields⟩ := yields_bind.mp yields
    obtain ⟨rfl, rfl⟩ := yields_pure.mp yields
    obtain ⟨value, _, made, one⟩ := yields_bind.mp one
    obtain ⟨rfl, rfl⟩ := yields_pure.mp one
    have lenient := lenient_continues Atom.Legible compilation.HasLanguage
    have adding := lenient.mapM (fun term among => lenient.bind
      (lenient.constant (later term among).legible) fun _ => lenient.pure _) _ _ _ two
    refine Runs.listAppend (Machine.read_name known) held
      (supports.reads_constant here made (adding.grows.trans grows) unhidden) fun _ => ?_
    have appends : Display.term.Appends target store (store.extendList target [.term term]) [term] :=
      Display.appends_extendList held (.cons rfl .nil)
    obtain ⟨_, _, _, own, _⟩ := appends.grown
    refine Runs.weaken (ih two grows later own) ?_ fun _ _ => id
    rintro _ changed ⟨rfl, appended⟩
    exact ⟨rfl, appends.trans appended⟩

end Expecting

section Asserting

variable {name : Symbol} {description : String} {span : Span} {before after : Draft}
  {addition : Addition} (read : ∀ form ∈ forms, form.Read)
  (supports : compilation.Supports judgement machine host ends apply)

include read supports

/-- An entry that asserts which matches a pattern has. -/
theorem Supports.assertMatch_concludes {pattern : Pattern} {prepared : Prepared}
    (uses : compilation.Uses name pattern prepared) {term : Term} (plain : term.Plain)
    {expected : List (List (Symbol × Term))}
    (wanting : ∀ pairs ∈ expected, ∀ pair ∈ pairs, pair.2.Plain)
    (built : judgement.Expects (expected.mapM fun pairs => Bindings.empty.addAll? pairs))
    {shown : List Pattern} (fine : Fine ends judgement.excuses ((compilation.world host).verdict apply
      shown (.assertMatch name pattern term expected)))
    (yields : Yields (generate compilation.scope span
      (.assertMatch name prepared term expected description)) before addition after)
    (grows : after.Grows compilation.draft) :
    Concludes judgement machine addition description .assertion span fun _ _ =>
      (compilation.world host).verdict apply shown (.assertMatch name pattern term expected) =
        some (.ok ()) := by
  obtain ⟨_, _, found, _, _, searched, _⟩ := uses.exists_found read host term
  simp only [World.verdict] at fine ⊢
  rw [bind_of_ok searched] at fine ⊢
  obtain ⟨matcher, top, matching, yields⟩ := yields_bind.mp yields
  obtain ⟨function, named, drawn, yields⟩ := yields_bind.mp yields
  obtain ⟨input, start, constant, yields⟩ := yields_bind.mp yields
  rw [← Draft.skip_zero start] at yields
  obtain ⟨actual, slot, yields⟩ := yields_local (by decide) (by decide) yields
  obtain ⟨wanted, slot1, yields⟩ := yields_local (by decide) (by decide) yields
  obtain ⟨expectations, middle, expecting, yields⟩ := yields_bind.mp yields
  rw [← Draft.skip_zero middle] at yields
  obtain ⟨equal, slot2, yields⟩ := yields_local (by decide) (by decide) yields
  obtain ⟨failure, last, raising, yields⟩ := yields_bind.mp yields
  have first : Continues Atom.Legible compilation.HasLanguage (start.skip 2) middle :=
    (lenient_continues _ _).mapM (fun pairs among => continues_expectedBindings _
      fun pair inside => (wanting pairs among pair inside).legible) _ _ _ expecting
  have second : Continues Atom.Legible compilation.HasLanguage (middle.skip 1) last :=
    continues_raiseMismatch _ _ _ _ _ _ raising
  have ended := (grows_entry yields).trans grows
  have inside := (middle.grows_skip 1).trans (second.grows.trans ended)
  have begun := (start.grows_skip 2).trans (first.grows.trans inside)
  have le := first.grows.localCount
  rw [Draft.localCount_skip] at le
  refine supports.concludes yields grows fun store => ?_
  refine Runs.assignCall (Machine.readAll_one
    (supports.reads_constant plain constant begun unhidden_empty))
    (supports.topMatcher_calls read uses matching ((grows_freshFunction drawn).trans
      ((yields_constant constant).1.trans begun)) plain.proper searched store) ?_
  rintro _ changed ⟨place, _, rfl, _, same, _, lists⟩
  cases same
  refine Runs.newList ?_
  have fixes : Fixes start.localCount .empty (((Table.empty : Table Value).insert actual
      (.list place)).insert wanted (.list changed.size)) :=
    ((Fixes.refl _ _).insert slot (Nat.le_refl _) _).insert slot1 (by omega) _
  have listed := lists.keeps (changed.keeps_addCell (.list #[]))
  refine Runs.append (supports.expectations_runs expecting inside wanting
    (slot1.older (by rw [Draft.localCount_skip]; omega)) built (unhidden_empty.fixes fixes)
    (Table.find?_insert_self _ _ _) (changed.cell?_addCell_self _)) ?_
  rintro locals final ⟨still, results, all, appends⟩
  have empty : Display.found.Lists (changed.addCell (.list #[])) changed.size [] :=
    Display.lists_nil (changed.cell?_addCell_self _)
  have shown_ := empty.appends appends
  rw [List.nil_append] at shown_
  obtain ⟨_, held, _⟩ := id listed
  have away : place ≠ changed.size := by
    obtain ⟨_, there, _⟩ := lists
    have bound := changed.lt_size_of_cell? there
    omega
  have kept := listed.keepsBut appends.kept (changed.cell?_addCell_self _) away
  have one : locals.find? actual = some (.list place) := by
    rw [still actual (slot.older (by rw [Draft.localCount_skip]; omega)),
      Table.find?_insert_ne _ _ (slot1.ne slot (by omega)), Table.find?_insert_self]
  have two : locals.find? wanted = some (.list changed.size) := by
    rw [still wanted (slot1.older (by rw [Draft.localCount_skip]; omega)),
      Table.find?_insert_self]
  obtain ⟨same, compared, _⟩ :=
    Bindings.exists_sameMatches (uses.finished read host searched) (Bindings.finished_addAll? all)
  rw [World.compareMatches_eq all compared] at fine ⊢
  refine Runs.keep (Machine.readAll_two (Machine.read_name one) (Machine.read_name two))
    (Primitive.apply_matchSetsEqual kept shown_ compared) ?_
  refine Runs.whenFalse (fun _ _ => same = true) (Table.find?_insert_self _ _ _) (fun differ => ?_)
    id fun _ _ holds => Runs.returns rfl (by rw [holds]; rfl)
  have differs : ∀ {number : Nat} {other : Symbol}, Slot other number → number < middle.localCount →
      equal ≠ other := fun slotted below => slot2.ne slotted (by omega)
  refine raiseMismatch_runs raising
    (slot.older (by rw [Draft.localCount_skip]; omega))
    ((Table.find?_insert_ne _ _ (differs slot1 (by omega))).trans two)
    ((Table.find?_insert_ne _ _ (differs slot (by omega))).trans one)
    (Primitive.apply_matchesToString shown_) (Primitive.apply_matchesToString kept) ?_
  subst differ
  exact fine.2 _ rfl

variable (unmarked : ∀ form ∈ forms, form.Unmarked)

include unmarked

/-- An entry that asserts what a relation gives. -/
theorem Supports.assertReduction_concludes {relation function : Symbol}
    (named : compilation.names.relations.find? relation = some function) {term : Term}
    (plain : term.Plain) {expected : List Term} (wanting : ∀ term ∈ expected, term.Plain)
    {shown : List Pattern} (fine : Fine ends judgement.excuses
      ((compilation.world host).verdict apply shown (.assertReduction relation term expected)))
    (yields : Yields (generate compilation.scope span
      (.assertReduction relation function term expected description)) before addition after)
    (grows : after.Grows compilation.draft) :
    Concludes judgement machine addition description .assertion span fun _ _ =>
      (compilation.world host).verdict apply shown (.assertReduction relation term expected) =
        some (.ok ()) := by
  obtain ⟨definition, defined, called, _, written⟩ :
      ∃ definition, (compilation.world host).relation? relation = some definition ∧
        definition.name = relation ∧ ∃ span, ⟨.relation definition, span⟩ ∈ forms := by
    rcases compilation.collects.1.relation relation function named with
      none | ⟨definition, span, listed, called⟩
    · cases none
    obtain ⟨other, found⟩ := (compilation.world host).exists_relation? listed
    rw [called] at found
    obtain ⟨same, there⟩ := World.exists_of_relation? found
    exact ⟨other, found, same, there⟩
  simp only [World.verdict, defined] at fine ⊢
  obtain ⟨name, _, drawn, yields⟩ := yields_bind.mp yields
  obtain ⟨input, start, constant, yields⟩ := yields_bind.mp yields
  rw [← Draft.skip_zero start] at yields
  obtain ⟨actual, slot, yields⟩ := yields_local (by decide) (by decide) yields
  obtain ⟨wanted, slot1, yields⟩ := yields_local (by decide) (by decide) yields
  obtain ⟨expectations, middle, expecting, yields⟩ := yields_bind.mp yields
  rw [← Draft.skip_zero middle] at yields
  obtain ⟨equal, slot2, yields⟩ := yields_local (by decide) (by decide) yields
  obtain ⟨failure, last, raising, yields⟩ := yields_bind.mp yields
  have lenient := lenient_continues Atom.Legible compilation.HasLanguage
  have first := lenient.mapM (fun term among => lenient.bind
    (lenient.constant (wanting term among).legible) fun _ => lenient.pure _) _ _ _ expecting
  have second : Continues Atom.Legible compilation.HasLanguage (middle.skip 1) last :=
    continues_raiseMismatch _ _ _ _ _ _ raising
  have inside := (middle.grows_skip 1).trans
    (second.grows.trans ((grows_entry yields).trans grows))
  have begun := (start.grows_skip 2).trans (first.grows.trans inside)
  have le := first.grows.localCount
  rw [Draft.localCount_skip] at le
  refine supports.concludes yields grows fun store => ?_
  rw [← called] at named
  refine Runs.assignCall (Machine.readAll_one
    (supports.reads_constant plain constant begun unhidden_empty))
    (supports.relation_performs read unmarked written named plain.proper fine.of_bind store).calls ?_
  rintro _ changed ⟨place, terms, rfl, ⟨meant, _⟩, _, lists⟩
  rw [bind_of_ok meant] at fine ⊢
  refine Runs.newList ?_
  have fixes : Fixes start.localCount .empty (((Table.empty : Table Value).insert actual
      (.list place)).insert wanted (.list changed.size)) :=
    ((Fixes.refl _ _).insert slot (Nat.le_refl _) _).insert slot1 (by omega) _
  have listed := lists.keeps (changed.keeps_addCell (.list #[]))
  have two : (((Table.empty : Table Value).insert actual (.list place)).insert wanted
      (.list changed.size)).find? wanted = some (.list changed.size) :=
    Table.find?_insert_self _ _ _
  refine Runs.append (supports.appendEach_runs (unhidden_empty.fixes fixes) two expecting inside
    wanting (changed.cell?_addCell_self _)) ?_
  rintro _ final ⟨rfl, appends⟩
  have empty : Display.term.Lists (changed.addCell (.list #[])) changed.size [] :=
    Display.lists_nil (changed.cell?_addCell_self _)
  have shown_ := empty.appends appends
  rw [List.nil_append] at shown_
  have away : place ≠ changed.size := by
    obtain ⟨_, there, _⟩ := lists
    have bound := changed.lt_size_of_cell? there
    omega
  have kept := listed.keepsBut appends.kept (changed.cell?_addCell_self _) away
  have one : (((Table.empty : Table Value).insert actual (.list place)).insert wanted
      (.list changed.size)).find? actual = some (.list place) := by
    rw [Table.find?_insert_ne _ _ (slot1.ne slot (by omega)), Table.find?_insert_self]
  refine Runs.keep (Machine.readAll_two (Machine.read_name one) (Machine.read_name two))
    (Primitive.apply_termSetsEqual kept shown_) ?_
  refine Runs.whenFalse (fun _ _ => sameMembers terms expected = true)
    (Table.find?_insert_self _ _ _) (fun differ => ?_) id
    fun _ _ holds => Runs.returns rfl (by rw [holds]; rfl)
  refine raiseMismatch_runs raising (slot.older (by rw [Draft.localCount_skip]; omega))
    ((Table.find?_insert_ne _ _ (slot2.ne slot1 (by omega))).trans two)
    ((Table.find?_insert_ne _ _ (slot2.ne slot (by omega))).trans one)
    (Primitive.apply_termsToString shown_) (Primitive.apply_termsToString kept) ?_
  rw [differ] at fine
  exact fine.2 _ rfl

end Asserting

/-! ## Entries that build a term -/

/-- The fresh names of a prepared pattern have the mark of generated names. -/
theorem Uses.marked {name : Symbol} {pattern : Pattern} {prepared : Prepared}
    (uses : compilation.Uses name pattern prepared) :
    ∀ symbol ∈ prepared.synthetic, Symbol.isSynthetic symbol = true := by
  obtain ⟨_, _, _, _, _, _, _, prepares⟩ := uses.made
  exact prepares.marked

/-- What a match binds has a depth in the prepared pattern, and no mark. -/
theorem Uses.known (read : ∀ form ∈ forms, form.Read) {name : Symbol} {pattern : Pattern}
    {prepared : Prepared} (uses : compilation.Uses name pattern prepared) {term : Term}
    {found : List Bindings}
    (searched : (compilation.world host).found name pattern term = some (.ok found))
    {bindings : Bindings} (listed : bindings ∈ found) {symbol : Symbol}
    (bound : (bindings.lookup symbol).isSome = true) :
    Symbol.isSynthetic symbol = false ∧ prepared.depths.find? symbol ≠ none := by
  obtain ⟨language, resolved, results, there, resolves, also, holds, _⟩ :=
    uses.exists_found read host term
  rw [also] at searched
  cases searched
  obtain ⟨other, _, _, again, found, _, resolution, prepares, plain⟩ := uses.exists_resolved
  rw [there] at found
  cases found
  rw [resolves] at resolution
  cases resolution
  have matched := (holds.2 bindings.lookup).mp ⟨bindings, listed, rfl⟩
  have occurs := (matched.isSome_iff symbol).mp bound
  obtain ⟨depth, nested⟩ := Pattern.mem_occurrences_iff.mp occurs
  have unmarked := plain symbol occurs
  refine ⟨unmarked, ?_⟩
  rw [(prepares.find?_depths unmarked).mpr nested]
  exact Option.some_ne_none _

section Building

variable {name : Symbol}

/-- An assignment gives a term of the right depth to every variable that some patterns bind. -/
def Supplies (assignment : Assignment) (patterns : List Prepared) : Prop :=
  ∀ prepared ∈ patterns, ∀ symbol, Symbol.isSynthetic symbol = false →
    ∀ depth, prepared.depths.find? symbol = some depth →
      ∃ value, assignment symbol = some value ∧ value.NestedTo depth ∧ value.Proper

/-- An assignment knows none of the variables that a pattern binds. -/
def Spares (assignment : Assignment) (prepared : Prepared) : Prop :=
  ∀ symbol, Symbol.isSynthetic symbol = false → prepared.depths.find? symbol ≠ none →
    assignment symbol = none

/-- The first match of a pattern is merged into bindings that know none of its variables, or a
message is raised. -/
theorem Supports.mergeBinding_runs (read : ∀ form ∈ forms, form.Read)
    (supports : compilation.Supports judgement machine host ends apply)
    {pattern : Pattern} {prepared : Prepared} (uses : compilation.Uses name pattern prepared)
    {term : Term} (plain : term.Plain) {env : Symbol} {before after : Draft}
    {code : List Statement}
    (yields : Yields (mergeBinding compilation.scope name env (prepared, term)) before code after)
    (grows : after.Grows compilation.draft) (older : Older before.localCount env)
    {locals : Table Value} (unhidden : Unhidden locals) {place : Nat}
    (known : locals.find? env = some (.bindings place)) {store : Store} {content : Bindings}
    (held : store.cell? place = some (.bindings content)) {assigned : Assignment}
    (made : Bindings.empty.Extends assigned content) (spares : Spares assigned prepared)
    (fine : Fine ends judgement.excuses
      ((compilation.world host).firstMatch name (World.unmatched prepared.pattern) pattern term))
    {gives : Value → Store → Prop} :
    Runs judgement machine code locals store
      (fun last changed => Fixes before.localCount locals last ∧ ∃ first merged,
        (compilation.world host).firstMatch name (World.unmatched prepared.pattern) pattern term =
          some (.ok first) ∧ changed.cell? place = some (.bindings merged) ∧
        Bindings.empty.Extends (assigned.union first.lookup) merged ∧
        (∀ symbol, (first.lookup symbol).isSome = true →
          Symbol.isSynthetic symbol = false ∧ prepared.depths.find? symbol ≠ none) ∧
        ∀ patterns, Supplies assigned patterns →
          Supplies (assigned.union first.lookup) (prepared :: patterns))
      gives := by
  obtain ⟨_, _, found, _, _, searched, _⟩ := uses.exists_found read host term
  rw [World.firstMatch, bind_of_ok searched] at fine
  obtain ⟨matcher, top, matching, yields⟩ := yields_bind.mp yields
  obtain ⟨input, start, constant, yields⟩ := yields_bind.mp yields
  rw [← Draft.skip_zero start] at yields
  obtain ⟨list, slot, yields⟩ := yields_local (by decide) (by decide) yields
  obtain ⟨count, slot1, yields⟩ := yields_local (by decide) (by decide) yields
  obtain ⟨any, slot2, yields⟩ := yields_local (by decide) (by decide) yields
  obtain ⟨first, slot3, yields⟩ := yields_local (by decide) (by decide) yields
  obtain ⟨failure, last, raising, yields⟩ := yields_bind.mp yields
  obtain ⟨rfl, rfl⟩ := yields_pure.mp yields
  have one : Continues Atom.Legible compilation.HasLanguage before top :=
    uses.continues_topMatcher read _ _ _ matching
  have two := (yields_constant constant).1
  have three : Continues Atom.Legible compilation.HasLanguage (start.skip 4) last :=
    continues_raiseTerm _ _ _ _ _ raising
  have inside := (start.grows_skip 4).trans (three.grows.trans grows)
  have le := Nat.le_trans one.grows.localCount two.localCount
  have constant_ : ∀ {locals : Table Value}, Unhidden locals →
      machine.read locals (.name input) = .ok (.term term) :=
    supports.reads_constant plain constant inside
  refine findsAny_runs (constant_ unhidden)
    (supports.topMatcher_calls read uses matching (two.trans inside) plain.proper searched store) ?_
  intro source changed _ keeps lists
  have fixes : Fixes before.localCount locals (((locals.insert list (.list source)).insert count
      (.int (wordOfCount found.length))).insert any (.bool (!found.isEmpty))) :=
    (((Fixes.refl before.localCount locals).insert slot (by omega) _).insert slot1 (by omega)
      _).insert slot2 (by omega) _
  refine Runs.whenFalse (fun last after => last = (((locals.insert list (.list source)).insert
      count (.int (wordOfCount found.length))).insert any (.bool (!found.isEmpty))) ∧
      changed = after ∧ found ≠ [])
    (Table.find?_insert_self _ _ _) (fun none_ => ?_) ?_ ?_
  · refine raiseTerm_runs raising (constant_ (unhidden.fixes fixes)) ?_
    obtain rfl : found = [] := by simpa using none_
    exact fine.2 _ rfl
  · intro some_
    refine ⟨rfl, rfl, ?_⟩
    rintro rfl
    cases some_
  · rintro _ _ ⟨rfl, rfl, filled⟩
    obtain ⟨bindings, others, rfl⟩ := List.exists_cons_of_ne_nil filled
    have parted : Display.found.Lists changed source ([] ++ bindings :: others) := lists
    obtain ⟨items, value, there, gotten, _, position, rfl, bound⟩ := parted.exists_get
    have listed : (((locals.insert list (.list source)).insert count
        (.int (wordOfCount (bindings :: others).length))).insert any
          (.bool (!(bindings :: others).isEmpty))).find? list = some (.list source) := by
      rw [Table.find?_insert_ne _ _ (slot2.ne slot (by omega)),
        Table.find?_insert_ne _ _ (slot1.ne slot (by omega)), Table.find?_insert_self]
    have binds : ∀ symbol, (bindings.lookup symbol).isSome = true →
        Symbol.isSynthetic symbol = false ∧ prepared.depths.find? symbol ≠ none :=
      fun symbol => uses.known read searched List.mem_cons_self
    have spared : ∀ symbol, (bindings.lookup symbol).isSome = true → assigned symbol = none :=
      fun symbol given => spares symbol (binds symbol given).1 (binds symbol given).2
    -- The symbols of the match are unbound before, so they can be added.
    obtain ⟨finished, formed⟩ := uses.finished read host searched bindings List.mem_cons_self
    obtain ⟨merged, done, extended⟩ := Bindings.exists_merge made.wellFormed formed.sorted finished
      fun symbol given => by
        rw [made.kept symbol (spared symbol given), Bindings.levels_empty]
        trivial
    refine Runs.listGet (Nat.zero_le _) (Machine.read_name listed) there rfl gotten ?_
    have fixed := fixes.insert slot3 (by omega) (.bindings position)
    refine Runs.matchMerge (Machine.read_name ((fixed env older).trans known)) (keeps _ _ held)
      (Machine.read_name (Table.find?_insert_self _ _ _)) bound (.inr (by rw [done]; rfl)) ?_
    intro other same
    rw [done] at same
    cases same
    refine .nil ⟨fixed, bindings, merged, ?_, ?_, ?_, binds, fun patterns supplies => ?_⟩
    · rw [World.firstMatch, bind_of_ok searched]
      rfl
    · rw [Store.cell?_setBindings _ (keeps _ _ held), if_pos rfl]
    · refine made.trans extended fun symbol given => ?_
      by_contra also
      have unknown := spared symbol (Option.isSome_iff_ne_none.mpr also)
      rw [unknown] at given
      cases given
    · refine List.forall_mem_cons.mpr ⟨fun symbol unmarked depth deep => ?_,
        fun other among symbol unmarked depth deep => ?_⟩
      · obtain ⟨value, here, right⟩ :=
          uses.supplied read plain.proper searched List.mem_cons_self unmarked deep
        have absent := spared symbol (Option.isSome_iff_exists.mpr ⟨value, here⟩)
        exact ⟨value, (Assignment.union_eq_right absent).trans here, right⟩
      · obtain ⟨value, here, right⟩ := supplies other among symbol unmarked depth deep
        exact ⟨value, Assignment.union_eq_left here, right⟩

/-- The first matches of some patterns that bind different variables are merged into bindings, or a
message is raised. -/
theorem Supports.mergeBindings_runs (read : ∀ form ∈ forms, form.Read)
    (supports : compilation.Supports judgement machine host ends apply) {env : Symbol} {place : Nat}
    {bindings : List (Pattern × Term)} {results : List (Prepared × Term)}
    (each : List.Forall₂ (fun binding result => compilation.Uses name binding.1 result.1 ∧
      result.2 = binding.2) bindings results) (plain : ∀ binding ∈ bindings, binding.2.Plain)
    (apart : results.Pairwise fun one two => ∀ symbol, Symbol.isSynthetic symbol = false →
      one.1.depths.find? symbol ≠ none → two.1.depths.find? symbol = none)
    {gives : Value → Store → Prop} :
    ∀ {before after : Draft} {codes : List (List Statement)},
      Yields (results.mapM (mergeBinding compilation.scope name env)) before codes after →
      after.Grows compilation.draft → Older before.localCount env →
      ∀ {locals : Table Value}, Unhidden locals → locals.find? env = some (.bindings place) →
        ∀ {store : Store} {content : Bindings} {assigned : Assignment} {patterns : List Prepared},
          store.cell? place = some (.bindings content) →
          Bindings.empty.Extends assigned content →
          (∀ result ∈ results, Spares assigned result.1) → Supplies assigned patterns →
          Fine ends judgement.excuses ((compilation.world host).firstMatches name
            (results.map (·.1.pattern)) bindings) →
          Runs judgement machine codes.flatten locals store
            (fun last changed => Fixes before.localCount locals last ∧ ∃ firsts merged,
              (compilation.world host).firstMatches name (results.map (·.1.pattern)) bindings =
                some (.ok firsts) ∧ changed.cell? place = some (.bindings merged) ∧
              Bindings.empty.Extends (assigned.union (Bindings.joint firsts)) merged ∧
              Supplies (assigned.union (Bindings.joint firsts)) (patterns ++ results.map (·.1)))
            gives := by
  induction each with
  | nil =>
    intro before after codes yields _ _ locals _ _ store content assigned patterns held made _
      supplies _
    rw [List.mapM_nil] at yields
    obtain ⟨rfl, rfl⟩ := yields_pure.mp yields
    have same : assigned.union (Bindings.joint []) = assigned := Assignment.union_empty assigned
    refine .nil ⟨.refl _ _, [], content, rfl, held, ?_⟩
    rw [same, List.map_nil, List.append_nil]
    exact ⟨made, supplies⟩
  | @cons binding result rest others first each ih =>
    intro before after codes yields grows older locals unhidden known store content assigned patterns
      held made spares supplies fine
    obtain ⟨here, later⟩ := List.forall_mem_cons.mp plain
    obtain ⟨away, further⟩ := List.pairwise_cons.mp apart
    obtain ⟨own, sparing⟩ := List.forall_mem_cons.mp spares
    rw [List.mapM_cons] at yields
    obtain ⟨code, middle, one, yields⟩ := yields_bind.mp yields
    obtain ⟨codes, last, two, yields⟩ := yields_bind.mp yields
    obtain ⟨rfl, rfl⟩ := yields_pure.mp yields
    obtain ⟨prepared, term⟩ := result
    obtain ⟨uses, rfl⟩ := first
    have merging : ∀ item ∈ (prepared, binding.2) :: others,
        Moves (Continues Atom.Legible compilation.HasLanguage)
          (mergeBinding compilation.scope name env item) := by
      intro item among
      obtain ⟨written, listed, used, same⟩ := exists_of_mem_right (.cons ⟨uses, rfl⟩ each) among
      refine continues_mergeBinding (compilation.ready_legible read)
        (compilation.suits read used.made used.read used.read.legible) ?_ env
      rw [same]
      exact (plain written listed).legible
    have started := merging _ List.mem_cons_self _ _ _ one
    have ended : Continues Atom.Legible compilation.HasLanguage middle last :=
      (lenient_continues _ _).mapM (fun item among => merging item (List.mem_cons_of_mem _ among))
        _ _ _ two
    have le := started.grows.localCount
    rw [List.map_cons, World.firstMatches_cons] at fine ⊢
    rw [List.flatten_cons]
    refine Runs.append (supports.mergeBinding_runs read uses here one (ended.grows.trans grows) older
      unhidden known held made own fine.of_bind) ?_
    rintro inner changed ⟨fixes, front, merged, found, there, extended, binds, more⟩
    have spared : ∀ item ∈ others, Spares (assigned.union front.lookup) item.1 := by
      intro item among symbol unmarked bound
      refine Option.not_isSome_iff_eq_none.mp fun given => ?_
      rcases Assignment.isSome_union.mp given with old | new
      · rw [sparing item among symbol unmarked bound] at old
        cases old
      · exact bound (away item among symbol unmarked (binds symbol new).2)
    refine Runs.weaken (ih later further two grows (older.mono le) (unhidden.fixes fixes)
      ((fixes env older).trans known) there extended spared (more patterns supplies)
      (fine.bind_some found).of_bind) ?_ fun _ _ => id
    rintro final store_ ⟨fixed, firsts, all, matched, held, extends_, given⟩
    refine ⟨fixes.trans (fixed.mono le), front :: firsts, all, ?_, held, ?_, ?_⟩
    · rw [bind_of_ok found, bind_of_ok matched]
      rfl
    · rwa [Assignment.union_assoc] at extends_
    · rw [Assignment.union_assoc] at given
      refine fun one among => given one ?_
      simp only [List.map_cons, List.mem_append, List.mem_cons] at among ⊢
      tauto

/-- The depths of joined patterns are those of the patterns as they are written, for the symbols
that carry no mark. -/
theorem find?_depths_of_joined (host : Host) {bindings : List (Pattern × Term)}
    {results : List (Prepared × Term)}
    (each : List.Forall₂ (fun binding result => compilation.Uses name binding.1 result.1 ∧
      result.2 = binding.2) bindings results) {depths : Depths}
    (joined : Joined .empty (results.map (·.1)) depths) {symbol : Symbol}
    (plain : Symbol.isSynthetic symbol = false) :
    ((compilation.world host).depths name (bindings.map (·.1))).find? symbol =
      depths.find? symbol := by
  have known : ∀ {pattern : Pattern} {prepared : Prepared}, compilation.Uses name pattern prepared →
      ∀ depth, prepared.depths.find? symbol = some depth ↔ (symbol, depth) ∈
        (((compilation.world host).resolved? name pattern).map Pattern.nestings).getD [] := by
    intro pattern prepared uses depth
    obtain ⟨language, _, _, resolved, found, _, resolves, prepares, _⟩ := uses.exists_resolved
    have there : (compilation.world host).resolved? name pattern = some resolved := by
      rw [World.resolved?,
        show (compilation.world host).languages.find? name = some language from found]
      exact resolves
    rw [there]
    exact prepares.find?_depths plain
  refine Table.find?_ofList_of_iff fun depth => ?_
  rw [joined.find?, List.mem_flatMap]
  constructor
  · rintro (none_ | ⟨prepared, among, found, _⟩)
    · cases none_
    · obtain ⟨result, inside, rfl⟩ := List.mem_map.mp among
      obtain ⟨binding, listed, uses, _⟩ := exists_of_mem_right each inside
      exact ⟨_, List.mem_map_of_mem listed, (known uses depth).mp found⟩
  · rintro ⟨pattern, among, nested⟩
    obtain ⟨binding, listed, rfl⟩ := List.mem_map.mp among
    obtain ⟨result, inside, uses, _⟩ := exists_of_mem_left each listed
    refine .inr ⟨_, List.mem_map_of_mem inside, (known uses depth).mpr nested, fun fresh => ?_⟩
    rw [uses.marked symbol fresh] at plain
    cases plain

/-- Joined patterns bind different variables. -/
theorem apart_of_joined {bindings : List (Pattern × Term)} {results : List (Prepared × Term)}
    (each : List.Forall₂ (fun binding result => compilation.Uses name binding.1 result.1 ∧
      result.2 = binding.2) bindings results) {depths : Depths}
    (joined : Joined .empty (results.map (·.1)) depths) :
    results.Pairwise fun one two => ∀ symbol, Symbol.isSynthetic symbol = false →
      one.1.depths.find? symbol ≠ none → two.1.depths.find? symbol = none := by
  have away : ∀ result ∈ results, ∀ symbol, Symbol.isSynthetic symbol = false →
      symbol ∉ result.1.synthetic := by
    intro result listed symbol plain fresh
    obtain ⟨_, _, uses, _⟩ := exists_of_mem_right each listed
    rw [uses.marked symbol fresh] at plain
    cases plain
  refine (List.pairwise_map.mp joined.apart).imp_of_mem fun one two apart symbol plain => ?_
  exact apart symbol (away _ one symbol plain) (away _ two symbol plain)

/-- An entry that asserts what a template builds from first matches. -/
theorem Supports.assertTerm_concludes (read : ∀ form ∈ forms, form.Read)
    (supports : compilation.Supports judgement machine host ends apply)
    (unmarked : ∀ form ∈ forms, form.Unmarked) {bindings : List (Pattern × Term)}
    {template : Template} {expected : Term} {origin : Span}
    (listed : ⟨.assertTerm name bindings template expected, origin⟩ ∈ forms)
    {results : List (Prepared × Term)} {depths : Depths}
    (each : List.Forall₂ (fun binding result => compilation.Uses name binding.1 result.1 ∧
      result.2 = binding.2) bindings results)
    (joined : Joined .empty (results.map (·.1)) depths)
    (fine : Fine ends judgement.excuses ((compilation.world host).verdict apply
      (results.map (·.1.pattern)) (.assertTerm name bindings template expected)))
    {description : String} {span : Span} {before after : Draft} {addition : Addition}
    (yields : Yields (generate compilation.scope span
      (.assertTerm name results depths template expected description)) before addition after)
    (grows : after.Grows compilation.draft) :
    Concludes judgement machine addition description .assertion span fun _ _ =>
      (compilation.world host).verdict apply (results.map (·.1.pattern))
        (.assertTerm name bindings template expected) = some (.ok ()) := by
  have terms := (read _ listed).terms
  have plain : ∀ binding ∈ bindings, binding.2.Plain := fun binding among =>
    terms _ (List.mem_append_left _ (List.mem_map_of_mem among))
  have wanting : expected.Plain := terms _ (List.mem_append_right _ (List.mem_singleton.mpr rfl))
  have among : template ∈ Form.templates ⟨.assertTerm name bindings template expected, origin⟩ :=
    List.mem_singleton.mpr rfl
  have written := writes read unmarked listed among
  simp only [World.verdict, World.builtFrom] at fine ⊢
  obtain ⟨function, start, drawn, yields⟩ := yields_bind.mp yields
  rw [← Draft.skip_zero start] at yields
  obtain ⟨env, slot, yields⟩ := yields_local (by decide) (by decide) yields
  obtain ⟨merges, middle, merging, yields⟩ := yields_bind.mp yields
  obtain ⟨builder, later, constructing, yields⟩ := yields_bind.mp yields
  rw [← Draft.skip_zero later] at yields
  obtain ⟨built, slot1, yields⟩ := yields_local (by decide) (by decide) yields
  obtain ⟨wanted, last, constant, yields⟩ := yields_bind.mp yields
  rw [← Draft.skip_zero last] at yields
  obtain ⟨equal, slot2, yields⟩ := yields_local (by decide) (by decide) yields
  obtain ⟨failure, final, raising, yields⟩ := yields_bind.mp yields
  have one : Continues Atom.Legible compilation.HasLanguage (start.skip 1) middle := by
    refine (lenient_continues _ _).mapM (fun item among => ?_) _ _ _ merging
    obtain ⟨binding, inside, used, same⟩ := exists_of_mem_right each among
    refine continues_mergeBinding (compilation.ready_legible read)
      (compilation.suits read used.made used.read used.read.legible) ?_ env
    rw [same]
    exact (plain binding inside).legible
  have two : Continues Atom.Legible compilation.HasLanguage middle later :=
    continues_construction (Template.constants_of_empty _ written.read.legible) _ _ _ constructing
  have three := (yields_constant constant).1
  have four : Continues Atom.Legible compilation.HasLanguage (last.skip 1) final :=
    continues_raiseTerm _ _ _ _ _ raising
  have closing := (last.grows_skip 1).trans (four.grows.trans ((grows_entry yields).trans grows))
  have building := (later.grows_skip 1).trans (three.trans closing)
  have le := one.grows.localCount
  have more := two.grows.localCount
  have most := three.localCount
  simp only [Draft.localCount_skip] at le most
  refine supports.concludes yields grows fun store => ?_
  refine Runs.newMatch ?_
  have first : ((Table.empty : Table Value).insert env (.bindings store.size)).find? env =
      some (.bindings store.size) := Table.find?_insert_self _ _ _
  have fixes : Fixes start.localCount .empty ((Table.empty : Table Value).insert env
      (.bindings store.size)) := (Fixes.refl _ _).insert slot (Nat.le_refl _) _
  have nothing : Supplies .empty ([] : List Prepared) :=
    fun prepared among => absurd among List.not_mem_nil
  refine Runs.append (supports.mergeBindings_runs read each plain (apart_of_joined each joined)
    merging (two.grows.trans building) (slot.older (by rw [Draft.localCount_skip]; omega))
    (unhidden_empty.fixes fixes) first (store.cell?_addCell_self _)
    (.refl Bindings.wellFormed_empty) (fun _ _ _ _ _ => rfl) nothing fine.of_bind.of_bind) ?_
  rintro locals changed ⟨fixed, firsts, merged, found, held, extended, supplies⟩
  rw [Assignment.empty_union] at extended supplies
  rw [bind_of_ok found] at fine ⊢
  have there := (fixed env (slot.older (by rw [Draft.localCount_skip]; omega))).trans first
  have same : merged.lookup = Bindings.joint firsts := extended.finished.2
  rw [← same] at fine supplies ⊢
  refine Runs.assignCall (Machine.readAll_one (Machine.read_name there))
    (supports.construction_calls written
      (fun symbol inside => find?_depths_of_joined host each joined (written.unmarked symbol inside))
      constructing building held ?_ fine.of_bind) ?_
  · intro symbol inside depth known
    rcases (joined.find? symbol depth).mp known with none_ | ⟨prepared, among, bound, _⟩
    · cases none_
    · exact supplies prepared among symbol (written.unmarked symbol inside) depth bound
  · rintro _ after ⟨term, rfl, ⟨meant, _⟩, _⟩
    rw [bind_of_ok meant] at fine ⊢
    have unhidden := ((unhidden_empty.fixes fixes).fixes fixed).fixes
      ((Fixes.refl later.localCount locals).insert slot1 (Nat.le_refl _) (.term term))
    refine Runs.keep (Machine.readAll_two (Machine.read_name (Table.find?_insert_self _ _ _))
      (supports.reads_constant wanting constant closing unhidden)) rfl ?_
    refine Runs.whenFalse (fun _ _ => term = expected) (Table.find?_insert_self _ _ _)
      (fun differ => ?_) of_decide_eq_true fun _ _ holds => Runs.returns rfl (by rw [if_pos holds]; rfl)
    have kept : ((locals.insert built (.term term)).insert equal
        (.bool (decide (term = expected)))).find? built = some (.term term) := by
      rw [Table.find?_insert_ne _ _ (slot2.ne slot1 (by omega)), Table.find?_insert_self]
    refine raiseTerm_runs raising (Machine.read_name kept) ?_
    rw [if_neg (of_decide_eq_false differ)] at fine
    exact fine.2 _ rfl

end Building

end Program.Compilation

end Reduct
