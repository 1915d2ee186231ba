import Reduct.Proofs.MatcherCalls

/-!
# The code of leaves

The matcher of a leaf tests the term at its position and binds it in a copy of the bindings.
-/

namespace Reduct

namespace Matcher

open Draft Statement

/-- A test runs some code if it passes, and else comes to its end. -/
def Decides (judgement : Judgement) (machine : Machine) (code success : List Statement)
    (count : Nat) (locals : Table Value) (store : Store) (passes : Bool) : Prop :=
  ∀ (ends : Table Value → Store → Prop) (gives : Value → Store → Prop),
    (passes = true → ∀ after changed, Fixes count locals after → store.Keeps changed →
      Runs judgement machine success after changed ends gives) →
    (passes = false → ∀ after changed, Fixes count locals after → store.Keeps changed →
      ends after changed) →
    Runs judgement machine code locals store ends gives

section Tests

variable {judgement : Judgement} {machine : Machine} {language : Language} {draft : Draft}
  {ground : Ground} {locals : Table Value} {store : Store} {term : Symbol} {subject : Term}

/-- The value of a test decides what is run. -/
theorem runs_whenTrue {ok : Symbol} {success : List Statement} {count : Nat} {passes : Bool}
    {ends : Table Value → Store → Prop} {gives : Value → Store → Prop} {after : Table Value}
    {changed : Store} (fixes : Fixes count locals after) (keeps : store.Keeps changed)
    (known : after.find? ok = some (.bool passes))
    (passed : passes = true → ∀ after changed, Fixes count locals after → store.Keeps changed →
      Runs judgement machine success after changed ends gives)
    (failed : passes = false → ∀ after changed, Fixes count locals after → store.Keeps changed →
      ends after changed) :
    Runs judgement machine [whenTrue ok success] after changed ends gives :=
  Runs.whenTrue ends known (fun yes => passed yes after changed fixes keeps)
    (fun no => failed no after changed fixes keeps) fun _ _ reached => .nil reached

/-- A test by a primitive that only looks at the term. -/
theorem decides_keep {ok : Symbol} {success : List Statement} {count number : Nat}
    (slot : Slot ok number) (above : count ≤ number) {function : Primitive}
    {arguments : List Operand} {values : List Value} {passes : Bool}
    (known : machine.readAll locals arguments = .ok values)
    (applied : function.apply store values = .ok (.keep (.bool passes))) :
    Decides judgement machine [assignPrimitive ok function arguments, whenTrue ok success] success
      count locals store passes := by
  intro ends gives passed failed
  refine Runs.keep known applied ?_
  exact runs_whenTrue ((Fixes.refl count locals).insert slot above _) (.refl store)
    (Table.find?_insert_self _ _ _) passed failed

theorem Decides.mono {code success : List Statement} {fewer count : Nat} {passes : Bool}
    (le : fewer ≤ count)
    (decides : Decides judgement machine code success count locals store passes) :
    Decides judgement machine code success fewer locals store passes :=
  fun ends gives passed failed => decides ends gives
    (fun yes after changed fixes => passed yes after changed (fixes.mono le))
    fun no after changed fixes => failed no after changed (fixes.mono le)

theorem variableTest_decides {excluded : Symbol} {names : List Symbol} {success code : List Statement}
    {before after : Draft} (yields : Yields (variableTest term excluded success) before code after)
    (proper : subject.Proper) (older : Older before.localCount term)
    (known : locals.find? term = some (.term subject))
    (listed : ∀ other, Fixes before.localCount locals other →
      machine.read other (.name excluded) =
        .ok (.term (.sequence (Term.rereadAll (names.map Term.symbol))))) {passes : Bool}
    (meaning : passes = match subject with
      | .atom (.symbol name) => !decide (name ∈ names)
      | _ => false) :
    Decides judgement machine code success before.localCount locals store passes := by
  rw [← Draft.skip_zero before] at yields
  unfold variableTest at yields
  obtain ⟨isVariable, first, yields⟩ := yields_local (by decide) (by decide) yields
  obtain ⟨inside, second, yields⟩ := yields_local (by decide) (by decide) yields
  obtain ⟨ok, third, yields⟩ := yields_local (by decide) (by decide) yields
  obtain ⟨rfl, rfl⟩ := yields_pure.mp yields
  intro ends gives passed failed
  have fixed := (Fixes.refl before.localCount locals).insert first (Nat.le_refl _)
    (.bool (decide (subject.kind = .symbol)))
  refine Runs.keep (Machine.readAll_one (Machine.read_name known)) rfl ?_
  refine Runs.whenTrue ends (Table.find?_insert_self _ _ _) ?_ ?_ fun _ _ reached => .nil reached
  · intro variable_
    obtain ⟨name, rfl⟩ : ∃ name, subject = .symbol name := by
      match subject, of_decide_eq_true variable_ with
      | .atom (.symbol name), _ => exact ⟨name, rfl⟩
    have there := (fixed term older).trans known
    refine Runs.keep (Machine.readAll_two (listed _ fixed) (Machine.read_name there)) rfl ?_
    have again := fixed.insert second (Nat.le_succ _)
      (.bool (decide (Term.symbol name ∈ Term.rereadAll (names.map Term.symbol))))
    refine Runs.assignBinary (Machine.read_name (Table.find?_insert_self _ _ _)) rfl rfl ?_
    refine runs_whenTrue (again.insert third (by omega) _) (.refl store) ?_ passed failed
    rw [Table.find?_insert_self, meaning]
    change some (Value.bool (decide _ == false)) = _
    rw [decide_eq_decide.mpr (proper.mem_reread names)]
    change some (Value.bool (decide (name ∈ names) == false)) =
      some (.bool !decide (name ∈ names))
    cases decide (name ∈ names) <;> rfl
  · intro other
    refine failed ?_ _ _ fixed (.refl store)
    rw [meaning]
    split
    · cases other
    · rfl

/-- What the matcher of a leaf rests on: the constants, the literal variables and the predicate
of a non-terminal. -/
structure LeafReady (judgement : Judgement) (machine : Machine) (language : Language)
    (draft : Draft) (ground : Ground) (leaf : Pattern) (subject : Term) : Prop where
  closed : language.Closed
  carries : machine.Carries draft
  mentioned : ∀ name, draft.mentioned.find? language.name = some name →
    draft.Names name (.sequence (language.mentioned.members.map Term.symbol))
  same : ground.mentioned = language.mentioned
  literal : leaf ≠ .literal (.symbol "hole")
  accepts : ∀ stem symbol, leaf = .nonTerminal stem symbol →
    PredicateMeets judgement machine language draft ground stem subject

/-- The test of a leaf tells whether the leaf admits the term. -/
theorem leafTest_decides {leaf : Pattern} (leafy : leaf.isLeaf = true)
    (ready : LeafReady judgement machine language draft ground leaf subject)
    {success code : List Statement} {fuel : Nat} {before after : Draft}
    (yields : Yields (leafTest language (predicate language fuel) leaf term success) before code
      after)
    (grows : after.Grows draft) (proper : subject.Proper) (unhidden : Unhidden locals)
    (older : Older before.localCount term) (known : locals.find? term = some (.term subject)) :
    Decides judgement machine code success before.localCount locals store
      (ground.admits leaf subject) := by
  rw [← Draft.skip_zero before] at yields
  unfold leafTest at yields
  obtain ⟨ok, slot, yields⟩ := yields_local (by decide) (by decide) yields
  cases leaf with
  | literal value =>
    obtain ⟨wanted, _, made, yields⟩ := yields_bind.mp yields
    obtain ⟨rfl, rfl⟩ := yields_pure.mp yields
    have names := (yields_constant made).2.grows grows
    have held := ready.carries.read unhidden names
    rw [Term.reread_atom (fun same => ready.literal (by rw [same]))] at held
    exact decides_keep slot (Nat.le_refl _)
      (Machine.readAll_two (Machine.read_name known) held) rfl
  | nonTerminal stem symbol =>
    obtain ⟨test, _, compiled, yields⟩ := yields_bind.mp yields
    obtain ⟨rfl, rfl⟩ := yields_pure.mp yields
    have reserved := grows.predicates _ _ (yields_predicate ready.closed compiled).2
    intro ends gives passed failed
    refine Runs.assignCall (Machine.readAll_one (Machine.read_name known))
      (ready.accepts stem symbol rfl test reserved store) ?_
    rintro value changed ⟨rfl, keeps⟩
    exact runs_whenTrue ((Fixes.refl _ locals).insert slot (Nat.le_refl _) _) keeps
      (Table.find?_insert_self _ _ _) passed failed
  | builtIn kind symbol =>
    cases kind with
    | variableNotOtherwiseMentioned =>
      obtain ⟨mentioned, middle, made, yields⟩ := yields_bind.mp yields
      obtain ⟨earlier, found⟩ := yields_mentionedConstant made
      have later : middle.Grows draft :=
        ((steady_variableTest stable_never term mentioned success).grows _ _ _ yields).trans grows
      have names := ready.mentioned mentioned (later.mentioned _ _ found)
      have above : before.localCount ≤ middle.localCount :=
        Nat.le_trans (Nat.le_succ _) earlier.localCount
      refine Decides.mono above (variableTest_decides yields proper (older.mono above) known
        (fun other fixes => ready.carries.read (unhidden.fixes fixes) names) ?_)
      change BuiltIn.holdsOf ground.mentioned _ subject = _
      rw [ready.same]
      unfold BuiltIn.holdsOf
      split <;> first | rfl | simp_all
    | variableExcept excluded =>
      obtain ⟨listed, middle, made, yields⟩ := yields_bind.mp yields
      obtain ⟨earlier, names⟩ := yields_constant made
      have later : middle.Grows draft :=
        ((steady_variableTest stable_never term listed success).grows _ _ _ yields).trans grows
      have above : before.localCount ≤ middle.localCount :=
        Nat.le_trans (Nat.le_succ _) earlier.localCount
      refine Decides.mono above (variableTest_decides yields proper (older.mono above) known
        (fun other fixes => ready.carries.read (unhidden.fixes fixes) (names.grows later)) ?_)
      change BuiltIn.holdsOf ground.mentioned _ subject = _
      unfold BuiltIn.holdsOf
      split <;> first | rfl | simp_all
    | _ =>
      obtain ⟨rfl, rfl⟩ := yields_pure.mp yields
      exact decides_keep slot (Nat.le_refl _) (Machine.readAll_one (Machine.read_name known)) rfl
  | _ => cases leafy

end Tests

section Binding

variable {judgement : Judgement} {machine : Machine} {locals : Table Value} {store : Store}
  {results extended next pair term : Symbol} {count position place target : Nat}
  {bindings : Bindings} {subject : Term} {items : Array Value}

/-- The code after a leaf has passed its test: the term is bound in a copy of the bindings. -/
def bindCode (leaf : Pattern) (results extended next pair term : Symbol) : List Statement :=
  assignPrimitive extended .matchCopy [.name env] ::
    leaf.bindingSymbol?.toList.map (fun symbol =>
      perform .matchAdd [.name extended, .string symbol, .name term]) ++
    [assignBinary next .add (.name head) (.int 1),
      assignPrimitive pair .makePair [.name extended, .name next],
      perform .listAppend [.name results, .name pair]]

/-- A leaf binds its term in a copy of the bindings. -/
theorem bindCode_runs {leaf : Pattern} {ends : Table Value → Store → Prop}
    {gives : Value → Store → Prop}
    (slots : Slot extended count ∧ Slot next (count + 1) ∧ Slot pair (count + 2))
    (listed : Older count results) (subjected : Older count term)
    (source : locals.find? env = some (.bindings place))
    (held : store.cell? place = some (.bindings bindings))
    (known : locals.find? head = some (.int (wordOfCount position)))
    (given : locals.find? term = some (.term subject))
    (list : locals.find? results = some (.list target))
    (there : store.cell? target = some (.list items)) (room : position < mostCount)
    (expected : judgement.Expects (bindings.bindLeaf leaf subject))
    (reached : ∀ after changed bound, Fixes count locals after →
      bindings.bindLeaf leaf subject = some bound →
      Display.entry.Appends target store changed [(bound, position + 1)] → ends after changed) :
    Runs judgement machine (bindCode leaf results extended next pair term) locals store ends
      gives := by
  have copied := (Fixes.refl count locals).insert slots.1 (Nat.le_refl _) (.bindings store.size)
  have fresh := store.cell?_addCell_self (.bindings bindings)
  have keeps := Store.keeps_addCell store (.bindings bindings)
  have away : target ≠ store.size := by
    have bound := store.lt_size_of_cell? there
    omega
  -- Whatever the copy holds after the binding, it is appended with the next position.
  have append : ∀ after changed, bindings.bindLeaf leaf subject = some after →
      store.Keeps changed → changed.cell? store.size = some (.bindings after) →
      Runs judgement machine
        [assignBinary next .add (.name head) (.int 1),
          assignPrimitive pair .makePair [.name extended, .name next],
          perform .listAppend [.name results, .name pair]]
        (locals.insert extended (.bindings store.size)) changed ends gives := by
    intro after changed bound kept now
    have moved := copied.insert slots.2.1 (Nat.le_succ _) (.int (wordOfCount (position + 1)))
    refine Runs.assignBinary (Machine.read_name ((copied head (older_head count)).trans known)) rfl
      (BinaryOp.apply_add_one room) ?_
    refine runs_appendPair slots.2.2 (listed.mono (by omega)) ?_ now
      (Machine.read_name (Table.find?_insert_self _ _ _))
      ((moved results listed).trans list) (kept _ _ there) ?_
    · rw [Table.find?_insert_ne _ _ (slots.2.1.ne slots.1 (by omega)), Table.find?_insert_self]
    · intro last final fixes appends
      exact reached last final after (moved.trans (fixes.mono (by omega))) bound
        (appends.keeps_left kept there)
  refine Runs.matchCopy (Machine.read_name source) held ?_
  unfold Bindings.bindLeaf at expected append
  cases symbol : leaf.bindingSymbol? with
  | none =>
    rw [symbol] at append
    exact append bindings _ rfl keeps fresh
  | some name =>
    rw [symbol] at expected append
    refine Runs.matchAdd (Machine.read_name (Table.find?_insert_self _ _ _)) fresh
      (Machine.read_name ((copied term subjected).trans given)) expected ?_
    intro changed added
    refine append changed _ added ?_ ?_
    · exact keeps.trans_but store.cell?_size (Store.keepsBut_setBindings fresh changed)
    · rw [Store.cell?_setBindings _ fresh, if_pos rfl]

end Binding

section Body

variable {judgement : Judgement} {machine : Machine} {language : Language} {draft : Draft}
  {ground : Ground} {subject : Term}

/-- The matcher of a leaf gives what is found at its term. -/
theorem leafBody_runs {leaf : Pattern} (leafy : leaf.isLeaf = true)
    (ready : LeafReady judgement machine language draft ground leaf subject)
    {body : List Statement} {fuel : Nat} {before after : Draft}
    (yields : Yields (leafBody language (predicate language fuel) leaf) before body after)
    (grows : after.Grows draft) (proper : subject.Proper) {sequence : List Term}
    {position last place : Nat} {bindings : Bindings} {store : Store} (small : last ≤ mostCount)
    (below : position < last) (there : sequence[position]? = some subject)
    (held : store.cell? place = some (.bindings bindings))
    (expected : judgement.Expects (visit ground leaf subject bindings)) :
    Runs judgement machine body (callLocals sequence position last place) store
      (fun _ _ => False)
      (GivesList store
        ((visit ground leaf subject bindings).map fun found => found.map (·, position + 1))) := by
  rw [← Draft.skip_zero before] at yields
  unfold leafBody at yields
  obtain ⟨results, first, yields⟩ := yields_local (by decide) (by decide) yields
  obtain ⟨inRange, second, yields⟩ := yields_local (by decide) (by decide) yields
  obtain ⟨term, third, yields⟩ := yields_local (by decide) (by decide) yields
  obtain ⟨extended, fourth, yields⟩ := yields_local (by decide) (by decide) yields
  obtain ⟨next, fifth, yields⟩ := yields_local (by decide) (by decide) yields
  obtain ⟨pair, sixth, yields⟩ := yields_local (by decide) (by decide) yields
  obtain ⟨test, _, tested, yields⟩ := yields_bind.mp yields
  obtain ⟨rfl, rfl⟩ := yields_pure.mp yields
  have slots : Slots before.localCount [results, inRange] := ⟨first, second, trivial⟩
  have room : position < mostCount := by omega
  refine guardedBody_runs slots ?_ ?_
  · intro _ locals fixes list
    have known := (fixes terms (older_terms _)).trans (find?_terms sequence position last place)
    have start := (fixes head (older_head _)).trans (find?_head sequence position last place)
    have source := (fixes env (older_env _)).trans (find?_env sequence position last place)
    have fetched := (Fixes.refl (before.localCount + 2) locals).insert third (Nat.le_refl _)
      (.term subject)
    refine Runs.sequenceGet (Nat.le_of_lt room) (Machine.read_name known)
      (Machine.read_name start) there ?_
    rw [visit_leaf ground leafy] at expected ⊢
    refine leafTest_decides leafy ready tested grows proper
      (((unhidden_callLocals sequence position last place).fixes fixes).fixes fetched)
      (third.older (by simp only [Draft.localCount_skip]; omega)) (Table.find?_insert_self _ _ _)
      _ _ ?_ ?_
    · intro passes final changed fixed keeps
      rw [if_pos passes] at expected ⊢
      have earlier := fetched.trans (fixed.mono (by simp only [Draft.localCount_skip]; omega))
      have cell := keeps _ _ (Store.keeps_addCell store (.list #[]) _ _ held)
      have own : changed.cell? store.size = some (.list #[]) :=
        keeps _ _ (store.cell?_addCell_self _)
      have subjected : final.find? term = some (.term subject) :=
        (fixed term (third.older (by simp only [Draft.localCount_skip]; omega))).trans
          (Table.find?_insert_self _ _ _)
      refine bindCode_runs ⟨fourth, fifth, sixth⟩ (first.older (by omega))
        (third.older (by omega)) ((earlier env (older_env _)).trans source) cell
        ((earlier head (older_head _)).trans start) subjected
        ((earlier results (first.older (by omega))).trans list) own room expected.of_map ?_
      intro done stored bound moved binds appends
      refine ⟨earlier.trans (moved.mono (by omega)), _, ?_,
        appends.keeps_left keeps (store.cell?_addCell_self _)⟩
      rw [binds]
      rfl
    · intro fails final changed fixed keeps
      refine ⟨fetched.trans (fixed.mono (by simp only [Draft.localCount_skip]; omega)), [], ?_,
        .nil (store.cell?_addCell_self _) keeps⟩
      rw [if_neg (by rw [fails]; decide)]
      rfl
  · intro above
    rw [capped_eq small, capped_eq (Nat.le_of_lt room)] at above
    exact absurd below above

end Body

end Matcher

end Reduct
