import Reduct.Proofs.ConstructionCode

/-!
# The code of template ellipses

An ellipsis first tests that its drivers have equally many elements. Every round fetches the
elements of the drivers, and adds what the template gives for them to the list of the ellipsis.
-/

namespace Reduct

namespace Construction

open Draft Statement Template

section Fetching

variable {judgement : Judgement} {machine : Machine}

/-- Fetching binds every key to its value, and goes on. -/
theorem fetchEach_runs {α : Type} {hint : String} (plain : EndsPlain hint.toList)
    (other : hint ≠ "lit") (value : Symbol → Value) {key : α → Symbol}
    {fetch : Symbol → α → Statement} {items : List α} {rest : List Statement} {store : Store}
    {ends : Table Value → Store → Prop} {gives : Value → Store → Prop} :
    ∀ {scope inner : Scope} {before after : Draft} {code : List Statement} {locals : Table Value},
      Yields (fetchEach hint key fetch items scope) before (code, inner) after →
      (∀ item ∈ items, ∀ target later bound, Fixes before.localCount locals bound →
        Runs judgement machine later (bound.insert target (value (key item))) store ends gives →
        Runs judgement machine (fetch target item :: later) bound store ends gives) →
      (∀ bound, Fixes before.localCount locals bound →
        (∀ name ∈ items.map key, ∀ target, inner.find? name = some target →
          bound.find? target = some (value name)) →
        Runs judgement machine rest bound store ends gives) →
      Runs judgement machine (code ++ rest) locals store ends gives := by
  induction items with
  | nil =>
    intro scope inner before after code locals yields _ others
    obtain ⟨same, rfl⟩ := yields_pure.mp yields
    cases same
    exact others locals (.refl _ _) nofun
  | cons item remaining ih =>
    intro scope inner before after code locals yields each others
    rw [fetchEach, ← Draft.skip_zero before] at yields
    obtain ⟨target, slot, yields⟩ := yields_local plain other yields
    obtain ⟨⟨later, last⟩, middle, fetched, yields⟩ := yields_bind.mp yields
    obtain ⟨same, rfl⟩ := yields_pure.mp yields
    cases same
    have fixed := (Fixes.refl before.localCount locals).insert slot (Nat.le_refl _)
      (value (key item))
    have within : ∀ {bound : Table Value},
        Fixes (before.skip (0 + 1)).localCount (locals.insert target (value (key item))) bound →
        Fixes before.localCount locals bound :=
      fun fixes => fixed.trans (fixes.mono (Nat.le_succ _))
    refine each item List.mem_cons_self target _ locals (.refl _ _) (ih fetched ?_ ?_)
    · exact fun next listed found after bound fixes =>
        each next (List.mem_cons_of_mem _ listed) found after bound (within fixes)
    · intro bound fixes held
      refine others bound (within fixes) fun name listed found there => ?_
      by_cases later : name ∈ remaining.map key
      · exact held name later found there
      · obtain ⟨_, kept, _⟩ := yields_fetchEach plain other fetched
        obtain rfl : name = key item := (List.mem_cons.mp listed).resolve_right later
        rw [kept _ later, Table.find?_insert_self] at there
        cases there
        exact (fixes target (slot.older (Nat.lt_succ_self _))).trans
          (Table.find?_insert_self _ _ _)

/-- Names that are fetched are newer than all others, and older than what comes later. -/
theorem ScopeOlder.fetchEach {α : Type} {hint : String} (plain : EndsPlain hint.toList)
    (other : hint ≠ "lit") {key : α → Symbol} {fetch : Symbol → α → Statement} {items : List α}
    {scope inner : Scope} {before after : Draft} {code : List Statement}
    (yields : Yields (fetchEach hint key fetch items scope) before (code, inner) after)
    (older : ScopeOlder scope before.localCount) : ScopeOlder inner after.localCount := by
  obtain ⟨rfl, kept, entered⟩ := yields_fetchEach plain other yields
  intro name source found
  by_cases fetched : name ∈ items.map key
  · obtain ⟨target, number, there, slot, _, below⟩ := entered name fetched
    rw [there] at found
    cases found
    exact slot.older below
  · rw [kept name fetched] at found
    exact (older name source found).mono (Nat.le_add_right _ _)

end Fetching

section Drivers

variable {setting : Setting} {suits : Term → Prop} {scope : Scope} {rounds : List Nat}
  {inner : Template} {locals : Table Value}

/-- A walked variable is held as the sequence of its elements. -/
theorem Stands.walked (stands : Stands setting suits scope rounds inner.symbols locals)
    {name source : Symbol} {depth : Nat} (listed : name ∈ inner.symbols)
    (known : setting.depths.find? name = some depth) (below : rounds.length < depth)
    (found : scope.find? name = some source) :
    locals.find? source = some (.term (.sequence (setting.elements rounds name))) ∧
      setting.element? rounds name = some (.sequence (setting.elements rounds name)) ∧
      (setting.elements rounds name).length ≤ mostCount ∧
      suits (.sequence (setting.elements rounds name)) ∧
      ∀ item ∈ setting.elements rounds name, item.NestedTo (depth - (rounds.length + 1)) := by
  obtain ⟨term, held, selected, nested, suited⟩ := stands name listed depth source known found
  rw [show depth - rounds.length = depth - (rounds.length + 1) + 1 by omega] at nested
  obtain ⟨items, rfl, small, each⟩ := nested
  have same : setting.elements rounds name = items := by
    unfold Setting.elements
    rw [selected]
    rfl
  rw [same]
  exact ⟨held, selected, small, suited, each⟩

/-- The element of a walked variable in a round. -/
def elementValue (setting : Setting) (rounds : List Nat) (round : Nat) (name : Symbol) : Value :=
  .term ((setting.elements rounds name).getD round .hole)

theorem getElem?_elements {name : Symbol} {round : Nat}
    (inside : round < (setting.elements rounds name).length) :
    (setting.elements rounds name)[round]? =
      some ((setting.elements rounds name).getD round .hole) := by
  rw [List.getD_eq_getElem?_getD, List.getElem?_eq_getElem inside, Option.getD_some]

/-- In a round, the scope inside an ellipsis holds the elements of the drivers. -/
theorem Stands.inRound (tidy : Term.Tidy suits)
    (stands : Stands setting suits scope rounds inner.symbols locals) {count round : Nat}
    (counts : setting.Counts rounds inner count) (below : round < count) {innerScope : Scope}
    {sources : List (Symbol × Symbol)} {bound : Table Value} {number : Nat}
    (located : ∀ source ∈ sources, scope.find? source.1 = some source.2)
    (drivers : ∀ name, name ∈ sources.map (·.1) ↔ setting.Walks rounds.length inner name)
    (fine : ScopeOlder scope number) (fixes : Fixes number locals bound)
    (kept : ∀ name, name ∉ sources.map (·.1) → innerScope.find? name = scope.find? name)
    (fetched : ∀ name ∈ sources.map (·.1), ∀ target, innerScope.find? name = some target →
      bound.find? target = some (elementValue setting rounds round name)) :
    Stands setting suits innerScope (rounds ++ [round]) inner.symbols bound := by
  intro name listed depth source known found
  by_cases driver : name ∈ sources.map (·.1)
  · have walks := (drivers name).mp driver
    have ⟨_, deep, again, above⟩ := walks
    rw [known] at again
    cases again
    obtain ⟨⟨other, outer⟩, there, same⟩ := List.mem_map.mp driver
    have located : scope.find? name = some outer := same ▸ located _ there
    obtain ⟨_, selected, _, suited, nested⟩ := stands.walked listed known above located
    obtain ⟨items, chosen, sized⟩ := counts name walks
    rw [selected] at chosen
    cases chosen
    have element := getElem?_elements (show round < (setting.elements rounds name).length by omega)
    have among := List.mem_of_getElem? element
    refine ⟨_, fetched name driver source found,
      (Setting.element?_walked known above selected round).trans element, ?_,
      tidy.child _ _ suited among⟩
    rw [List.length_append, List.length_singleton]
    exact nested _ among
  · rw [kept name driver] at found
    have above : depth ≤ rounds.length := by
      by_contra deeper
      exact driver ((drivers name).mpr ⟨listed, depth, known, Nat.lt_of_not_le deeper⟩)
    obtain ⟨term, held, selected, _, suited⟩ := stands name listed depth source known found
    refine ⟨term, (fixes source (fine name source found)).trans held,
      (Setting.element?_kept known above round).trans selected, ?_, suited⟩
    rw [List.length_append, List.length_singleton, Nat.sub_eq_zero_of_le (by omega)]
    trivial

end Drivers

section Rounds

variable {judgement : Judgement} {machine : Machine} {suits : Term → Prop} {draft : Draft}
  {setting : Setting} {allowance : Allowance} {scope : Scope} {rounds : List Nat}
  {inner : Template}

/-- The lengths of further drivers are compared with that of the first. -/
theorem countChecks_run (elements : Symbol → List Term) {others : List (Symbol × Symbol)}
    {count : Symbol} {length : Nat} {rest : List Statement} {locals : Table Value} {store : Store}
    {ends : Table Value → Store → Prop} {gives : Value → Store → Prop} (small : length ≤ mostCount)
    (known : locals.find? count = some (.int (wordOfCount length)))
    (held : ∀ source ∈ others,
      locals.find? source.2 = some (.term (.sequence (elements source.1))))
    (uneven : ∀ source, others.find? (fun source => (elements source.1).length ≠ length) =
        some source →
      judgement.excuses (.term (.inconsistentCounts length (elements source.1).length)))
    (even : (∀ source ∈ others, (elements source.1).length = length) →
      Runs judgement machine rest locals store ends gives) :
    Runs judgement machine
      (others.map (fun (_, source) => perform .checkEllipsisCounts [.name source, .name count]) ++
        rest) locals store ends gives := by
  induction others with
  | nil => exact even nofun
  | cons first others ih =>
    obtain ⟨here, later⟩ := List.forall_mem_cons.mp held
    refine Runs.checkEllipsisCounts small (Machine.read_name here) (Machine.read_name known)
      ?_ fun same => ih later ?_ fun all => even (List.forall_mem_cons.mpr ⟨same, all⟩)
    · intro differ
      exact uneven first (List.find?_cons_of_pos (decide_eq_true differ))
    · intro source found
      apply uneven source
      rwa [List.find?_cons_of_neg (by simpa using same)]

/-- A round adds what the template gives for its elements to the list of the ellipsis. -/
theorem round_runs (tidy : Term.Tidy suits) {coded : Scope → Coded}
    (right : ∀ innerScope, Covers setting.depths innerScope inner.symbols →
      Right judgement machine suits draft setting allowance innerScope (rounds.length + 1) inner
        (coded innerScope))
    (covers : Covers setting.depths scope inner.symbols) {index : Symbol}
    {sources : List (Symbol × Symbol)} {innerScope : Scope} {before middle after : Draft}
    {fetch code : List Statement} {list results : Symbol}
    (fetches : Yields (fetchElements index sources scope) before (fetch, innerScope) middle)
    (listed : Yields (listOf (contribution (coded innerScope))) middle (code, list) after)
    (grows : after.Grows draft) (fine : ScopeOlder scope before.localCount)
    (older : Older before.localCount results) (early : Older before.localCount index)
    (located : ∀ source ∈ sources, scope.find? source.1 = some source.2)
    (drivers : ∀ name, name ∈ sources.map (·.1) ↔ setting.Walks rounds.length inner name)
    {count round : Nat} (counts : setting.Counts rounds inner count) (below : round < count)
    (small : count ≤ mostCount)
    (safe : Safe judgement.excuses allowance setting (rounds ++ [round]) inner)
    (splices : SplicesSafely judgement.excuses setting (rounds ++ [round]) inner)
    {locals : Table Value}
    {store : Store} {place : Nat} (unhidden : Unhidden locals)
    (stands : Stands setting suits scope rounds inner.symbols locals)
    (indexed : locals.find? index = some (.int (wordOfCount round)))
    (known : locals.find? results = some (.list place)) (counted : Counted store place) :
    Contributes judgement machine suits
      (fetch ++ code ++ [perform .listExtend [.name results, .name list]]) before.localCount locals
      store place
      fun terms => ∃ part, Builds setting (rounds ++ [round]) inner part ∧
        part.items? = some terms := by
  have covered := covers.fetchElements fetches
  rw [fetchElements_eq] at fetches
  obtain ⟨sized, kept, _⟩ := yields_fetchEach (by decide) (by decide) fetches
  have le : before.localCount ≤ middle.localCount := by
    rw [sized]
    exact Nat.le_add_right _ _
  have newer := fine.fetchEach (by decide) (by decide) fetches
  rw [List.append_assoc]
  refine fetchEach_runs (by decide) (by decide) (elementValue setting rounds round) fetches ?_ ?_
  · intro source among target later bound fixes rest
    have walks := (drivers source.1).mp (List.mem_map.mpr ⟨source, among, rfl⟩)
    have ⟨occurs, _, deep, above⟩ := walks
    obtain ⟨held, selected, _⟩ := stands.walked occurs deep above (located source among)
    obtain ⟨items, chosen, length⟩ := counts source.1 walks
    rw [selected] at chosen
    cases chosen
    refine Runs.sequenceGet (by omega)
      (Machine.read_name ((fixes _ (fine _ _ (located source among))).trans held))
      (Machine.read_name ((fixes index early).trans indexed))
      (getElem?_elements (by omega)) rest
  · intro bound fixes fetched
    have inside := stands.inRound tidy counts below located drivers fine fixes kept fetched
    have made := right innerScope covered
    obtain ⟨items, held, room⟩ := counted
    have deep : (rounds ++ [round]).length = rounds.length + 1 := by
      rw [List.length_append, List.length_singleton]
    refine Runs.append (listOf_runs suits (fun terms => ∃ part,
      Builds setting (rounds ++ [round]) inner part ∧ part.items? = some terms) listed ?_).2 ?_
    · intro other contributed slot adds last changed site still found bounded
      exact contribution_runs tidy made adds grows (newer.mono (Nat.le_succ _))
        (slot.older (Nat.lt_succ_self _)) deep safe splices
        ((unhidden.fixes fixes).fixes still) (inside.fixes newer still) found bounded
    rintro last changed ⟨still, keeps, source, terms, found, means, suited, _, values, there, shown⟩
    have same := (still results (older.mono le)).trans ((fixes results older).trans known)
    refine Runs.listExtend (Machine.read_name same) (keeps _ _ held) (Machine.read_name found) there
      fun fits => .nil ?_
    exact ⟨fixes.trans (still.mono le), terms, means, suited,
      (Display.appends_extendList (keeps _ _ held) shown).keeps_left keeps held,
      counted_extendList (keeps _ _ held) fits⟩

/-- After some rounds of an ellipsis, its list holds what they have built. -/
def RoundsBuilt (suits : Term → Prop) (setting : Setting) (rounds : List Nat) (inner : Template)
    (place : Nat) (start : Store) (finished : Nat) (store : Store) : Prop :=
  ∃ (part : Nat → Part) (terms : List Term),
    (∀ round < finished, Builds setting (rounds ++ [round]) inner (part round)) ∧
      Part.join ((List.range finished).map part) = some terms ∧ (∀ term ∈ terms, suits term) ∧
      Display.term.Appends place start store terms ∧ Counted store place

/-- Every round that is finished has built terms. -/
theorem RoundsBuilt.earlier {place finished : Nat} {start store : Store}
    (built : RoundsBuilt suits setting rounds inner place start finished store) :
    ∀ earlier < finished, ∃ part terms, Builds setting (rounds ++ [earlier]) inner part ∧
      part.items? = some terms := by
  obtain ⟨part, _, each, joined, _⟩ := built
  intro earlier below
  obtain ⟨terms, items⟩ :=
    exists_of_gather joined (List.mem_map_of_mem (List.mem_range.mpr below))
  exact ⟨part earlier, terms, each earlier below, items⟩

/-- One more round adds what it builds. -/
theorem RoundsBuilt.next {place finished : Nat} {start store changed : Store} {terms : List Term}
    (built : RoundsBuilt suits setting rounds inner place start finished store)
    (round : ∃ part, Builds setting (rounds ++ [finished]) inner part ∧ part.items? = some terms)
    (suited : ∀ term ∈ terms, suits term)
    (appends : Display.term.Appends place store changed terms) (counted : Counted changed place) :
    RoundsBuilt suits setting rounds inner place start (finished + 1) changed := by
  obtain ⟨part, front, each, joined, fine, before, _⟩ := built
  obtain ⟨last, builds, items⟩ := round
  have others : ∀ other < finished, Function.update part finished last other = part other :=
    fun other below => Function.update_of_ne (Nat.ne_of_lt below) _ _
  refine ⟨Function.update part finished last, front ++ terms, ?_, ?_, ?_, before.trans appends,
    counted⟩
  · intro other below
    rcases Nat.lt_succ_iff_lt_or_eq.mp below with earlier | rfl
    · rw [others other earlier]
      exact each other earlier
    · rw [Function.update_self]
      exact builds
  · have same : (List.range finished).map (Function.update part finished last) =
        (List.range finished).map part :=
      List.map_congr_left fun other listed => others other (List.mem_range.mp listed)
    rw [List.range_succ, List.map_append, same, List.map_singleton, Function.update_self]
    refine gather_append_eq_some.mpr ⟨front, terms, joined, ?_, rfl⟩
    exact gather_cons_eq_some.mpr ⟨terms, [], items, rfl, (List.append_nil _).symm⟩
  · exact fun term listed => (List.mem_append.mp listed).elim (fine term) (suited term)

/-- The loop of an ellipsis builds all rounds. -/
theorem repeated_loops (tidy : Term.Tidy suits) {coded : Scope → Coded}
    (right : ∀ innerScope, Covers setting.depths innerScope inner.symbols →
      Right judgement machine suits draft setting allowance innerScope (rounds.length + 1) inner
        (coded innerScope))
    (covers : Covers setting.depths scope inner.symbols) {index : Symbol}
    {sources : List (Symbol × Symbol)} {innerScope : Scope} {before middle after : Draft}
    {fetch code : List Statement} {list results count : Symbol}
    (fetches : Yields (fetchElements index sources scope) (before.skip 3) (fetch, innerScope) middle)
    (listed : Yields (listOf (contribution (coded innerScope))) middle (code, list) after)
    (grows : after.Grows draft) (fine : ScopeOlder scope before.localCount)
    (one : Slot results before.localCount) (two : Slot count (before.localCount + 1))
    (three : Slot index (before.localCount + 2))
    (located : ∀ source ∈ sources, scope.find? source.1 = some source.2)
    (drivers : ∀ name, name ∈ sources.map (·.1) ↔ setting.Walks rounds.length inner name)
    (driven : ∃ name, setting.Walks rounds.length inner name) {length : Nat}
    (counts : setting.Counts rounds inner length) (small : length ≤ mostCount)
    (safe : Safe judgement.excuses allowance setting rounds (.repeated inner))
    {locals : Table Value}
    {place : Nat} {value : Value} {start : Store}
    (fixed : Fixes before.localCount locals
      ((locals.insert results (.list place)).insert count value))
    (unhidden : Unhidden locals)
    (stands : Stands setting suits scope rounds inner.symbols locals)
    (built : RoundsBuilt suits setting rounds inner place start 0 start) :
    Loops judgement machine
      (.range index (wordOfCount 0) (wordOfCount length)
        (fetch ++ code ++ [perform .listExtend [.name results, .name list]]))
      ((locals.insert results (.list place)).insert count value) start
      (fun after changed =>
        Fixes (before.localCount + 2) ((locals.insert results (.list place)).insert count value)
          after ∧ RoundsBuilt suits setting rounds inner place start length changed)
      fun _ _ => False := by
  have round : ∀ done < length, ∀ inside store,
      (Fixes (before.localCount + 2) ((locals.insert results (.list place)).insert count value)
        inside ∧ RoundsBuilt suits setting rounds inner place start done store) →
      Runs judgement machine (fetch ++ code ++ [perform .listExtend [.name results, .name list]])
        (inside.insert index (.int (wordOfCount done))) store
        (fun after changed =>
          Fixes (before.localCount + 2) ((locals.insert results (.list place)).insert count value)
            after ∧ RoundsBuilt suits setting rounds inner place start (done + 1) changed)
        fun _ _ => False := by
    rintro done below inside store ⟨fixes, built⟩
    have still := fixes.insert three (Nat.le_refl _) (.int (wordOfCount done))
    have whole := fixed.trans (still.mono (by omega))
    have known : (inside.insert index (.int (wordOfCount done))).find? results =
        some (.list place) := by
      rw [still results (one.older (by omega)), Table.find?_insert_ne _ _ (two.ne one (by omega)),
        Table.find?_insert_self]
    have counted : Counted store place := by
      obtain ⟨_, _, _, _, _, _, counted⟩ := built
      exact counted
    obtain ⟨inside_, splices⟩ := safe.2 length done driven counts below built.earlier
    refine Runs.weaken (round_runs tidy right covers fetches listed grows
      (fine.mono (Nat.le_add_right _ _)) (one.older (by rw [Draft.localCount_skip]; omega))
      (three.older (by rw [Draft.localCount_skip]; omega)) located drivers counts below small
      inside_ splices (unhidden.fixes whole) (stands.fixes fine whole) (Table.find?_insert_self _ _ _) known
      counted) ?_ fun _ _ given => given
    rintro last changed ⟨final, terms, means, suited, appends, bounded⟩
    exact ⟨still.trans (final.mono (by rw [Draft.localCount_skip]; omega)),
      built.next means suited appends bounded⟩
  exact Loops.rounds small round length 0 (Nat.zero_add length) _ _ ⟨.refl _ _, built⟩

/-- The parts of the code of an ellipsis. -/
theorem yields_repeatCode {drivers : List Symbol} {coded : Scope → Coded} {before after : Draft}
    {code : List Statement} {piece : Piece}
    (yields : Yields (repeatCode scope drivers coded) before (code, piece) after) :
    ∃ driver first others results count index fetch innerScope body list middle,
      ((driver, first) :: others).map (·.1) = drivers ∧
      (∀ source ∈ (driver, first) :: others, scope.find? source.1 = some source.2) ∧
      Slot results before.localCount ∧ Slot count (before.localCount + 1) ∧
      Slot index (before.localCount + 2) ∧
      Yields (fetchElements index ((driver, first) :: others) scope) (before.skip 3)
        (fetch, innerScope) middle ∧
      Yields (listOf (contribution (coded innerScope))) middle (body, list) after ∧
      code = assignPrimitive results .newList [] ::
        assignPrimitive count .sequenceLength [.name first] ::
        (others.map (fun (_, source) =>
          perform .checkEllipsisCounts [.name source, .name count]) ++
        [.forRange index (.int 0) (.name count)
          (fetch ++ body ++ [perform .listExtend [.name results, .name list]])]) ∧
      piece = .list results := by
  unfold repeatCode at yields
  obtain ⟨sources, _, located, yields⟩ := yields_bind.mp yields
  obtain ⟨unchanged, same, known⟩ := yields_driverLocals located
  rw [unchanged] at yields
  cases sources with
  | nil => cases yields
  | cons source others =>
    obtain ⟨driver, first⟩ := source
    rw [← Draft.skip_zero before] at yields
    obtain ⟨results, one, yields⟩ := yields_local (by decide) (by decide) yields
    obtain ⟨count, two, yields⟩ := yields_local (by decide) (by decide) yields
    obtain ⟨index, three, yields⟩ := yields_local (by decide) (by decide) yields
    obtain ⟨⟨fetch, innerScope⟩, middle, fetched, yields⟩ := yields_bind.mp yields
    obtain ⟨⟨body, list⟩, last, listed, yields⟩ := yields_bind.mp yields
    obtain ⟨made, rfl⟩ := yields_pure.mp yields
    cases made
    exact ⟨driver, first, others, results, count, index, fetch, innerScope, body, list, middle,
      same, known, one, two, three, fetched, listed, by simp, rfl⟩

/-- The code of an ellipsis is right if the code of what it repeats is. -/
theorem repeatCode_right (tidy : Term.Tidy suits) {depth : Nat} {metafunctions : SymbolSet}
    {body : Annotated} {above : Nat}
    (accepted : inner.annotateAt setting.depths metafunctions above = .ok body)
    (driven : body.driversAt depth ≠ []) (covers : Covers setting.depths scope inner.symbols)
    {coded : Scope → Coded}
    (right : ∀ innerScope, Covers setting.depths innerScope inner.symbols →
      Right judgement machine suits draft setting allowance innerScope (depth + 1) inner
        (coded innerScope)) :
    Right judgement machine suits draft setting allowance scope depth (.repeated inner)
      (repeatCode scope (body.driversAt depth) coded) where
  steady := by
    refine steady_repeatCode Matcher.stable_never covers driven ?_
      fun innerScope covered => (right innerScope covered).steady
    intro driver listed
    obtain ⟨among, bound, known, _⟩ := (mem_driversAt accepted).mp listed
    exact covers driver among bound known
  older := by
    intro before after code piece yields _
    obtain ⟨driver, first, others, results, count, index, fetch, innerScope, round, list, middle, _,
      _, slot, _, _, fetched, listed, _, rfl⟩ := yields_repeatCode yields
    have covered := covers.fetchElements fetched
    rw [fetchElements_eq] at fetched
    have one := (steady_fetchEach Matcher.stable_never _ _ _ _ _).grows _ _ _ fetched
    have two := (steady_listOf Matcher.stable_never (steady_contribution Matcher.stable_never
      (right innerScope covered).steady)).grows _ _ _ listed
    have sum := Nat.le_trans one.localCount two.localCount
    rw [Draft.localCount_skip] at sum
    exact slot.older (by omega)
  leaves := by
    intro before after code piece yields grows fine rounds locals store deep safe unhidden stands
    subst deep
    obtain ⟨driver, first, others, results, count, index, fetch, innerScope, round, list, middle,
      same, located, one, two, three, fetched, listed, rfl, rfl⟩ := yields_repeatCode yields
    have drivers : ∀ name, name ∈ ((driver, first) :: others).map (·.1) ↔
        setting.Walks rounds.length inner name := by
      intro name
      rw [same]
      exact mem_driversAt accepted
    have holds : ∀ source ∈ (driver, first) :: others,
        locals.find? source.2 = some (.term (.sequence (setting.elements rounds source.1))) ∧
          setting.element? rounds source.1 =
            some (.sequence (setting.elements rounds source.1)) ∧
          (setting.elements rounds source.1).length ≤ mostCount := by
      intro source among
      obtain ⟨occurs, bound, known, deep⟩ :=
        (drivers source.1).mp (List.mem_map.mpr ⟨source, among, rfl⟩)
      obtain ⟨held, selected, small, _⟩ := stands.walked occurs known deep (located source among)
      exact ⟨held, selected, small⟩
    obtain ⟨⟨held, selected, small⟩, further⟩ := List.forall_mem_cons.mp holds
    have fixedList := (Fixes.refl before.localCount locals).insert one (Nat.le_refl _)
      (.list store.size)
    have fixed := fixedList.insert two (Nat.le_succ _)
      (.int (wordOfCount (setting.elements rounds driver).length))
    refine Runs.newList (Runs.sequenceLength (Machine.read_name ((fixedList first
      (fine _ _ (located _ List.mem_cons_self))).trans held)) ?_)
    refine countChecks_run (setting.elements rounds) small (Table.find?_insert_self _ _ _) ?_ ?_ ?_
    · intro source among
      exact (fixed _ (fine _ _ (located source (List.mem_cons_of_mem _ among)))).trans
        (further source among).1
    · intro source found
      apply safe.1
      have names : walked setting.depths rounds.length inner = driver :: others.map (·.1) := by
        rw [← driversAt_eq accepted, ← same, List.map_cons]
      have among : (others.map (·.1)).find? (fun name => (setting.elements rounds name).length ≠
          (setting.elements rounds driver).length) = some source.1 := by
        rw [List.find?_map]
        exact congrArg (Option.map (·.1)) found
      rw [Setting.mismatch?, names]
      simp only [among, Option.map_some]
    · intro even
      have counts : setting.Counts rounds inner (setting.elements rounds driver).length := by
        intro name walks
        obtain ⟨source, among, rfl⟩ := List.mem_map.mp ((drivers name).mpr walks)
        refine ⟨_, (holds source among).2.1, ?_⟩
        rcases List.mem_cons.mp among with rfl | later
        · rfl
        · exact even source later
      have empty := store.cell?_addCell_self (.list #[])
      have start : RoundsBuilt suits setting rounds inner store.size (store.addCell (.list #[])) 0
          (store.addCell (.list #[])) :=
        ⟨fun _ => .terms [], [], nofun, rfl, nofun, .nil empty (.refl _), #[], empty,
          Nat.zero_le _⟩
      refine Runs.forRange rfl (Machine.read_name (Table.find?_insert_self _ _ _))
        (repeated_loops tidy right covers fetched listed grows fine one two three located drivers
          ⟨driver, (drivers driver).mp List.mem_cons_self⟩ counts small safe fixed unhidden stands start) ?_
      rintro last changed ⟨fixes, part, terms, each, joined, suited, appends, _⟩
      refine .nil ⟨fixed.trans (fixes.mono (by omega)),
        (Store.keeps_addCell store _).trans_but store.cell?_size appends.kept, .terms terms,
        .repeated ⟨driver, (drivers driver).mp List.mem_cons_self⟩ counts each joined, suited,
        store.size, ?_, (Display.lists_nil empty).appends appends⟩
      rw [fixes results (one.older (by omega)), Table.find?_insert_ne _ _ (two.ne one (by omega)),
        Table.find?_insert_self]

end Rounds

end Construction

end Reduct
