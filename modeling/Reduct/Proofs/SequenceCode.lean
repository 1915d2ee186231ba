import Reduct.Proofs.LeafCode

/-!
# The code of sequences

The items of a sequence move a frontier, one list for each item. A loop over the frontier before
an item appends what the item finds from each entry, so the code computes the frontier that the
search computes. The entries that took all terms are the results.
-/

namespace Reduct

theorem Term.exists_of_kind_sequence {term : Term} (shaped : term.kind = .sequence) :
    ∃ items, term = .sequence items := by
  cases term with
  | atom value => cases value <;> cases shaped
  | hole => cases shaped
  | sequence items => exact ⟨items, rfl⟩

/-- A search that keeps or drops each entry filters. -/
theorem gather_filter {α : Type} (keeps : α → Bool) (entries : List α) :
    gather (fun entry => some (if keeps entry then [entry] else [])) entries =
      some (entries.filter keeps) := by
  induction entries with
  | nil => rfl
  | cons entry rest ih =>
    rw [gather, ih, List.filter_cons]
    cases keeps entry <;> rfl

/-- The entries that took all terms, with a new position. -/
theorem gather_finals (total position : Nat) (entries : List Reached) :
    gather (fun entry => some (if entry.2 = total then [(entry.1, position)] else [])) entries =
      some ((finals total entries).map (·, position)) := by
  induction entries with
  | nil => rfl
  | cons entry rest ih =>
    rw [gather, ih, finals, finals, List.filter_cons]
    by_cases ended : entry.2 = total
    · rw [if_pos ended, if_pos (decide_eq_true ended)]
      rfl
    · rw [if_neg ended, if_neg (by simpa using ended)]
      rfl

/-- What an item of a sequence finds from an entry of the frontier, given the items after it. -/
def itemSearch (ground : Ground) (terms : List Term) (rest : List Pattern) :
    Pattern → Reached → Option (List Reached)
  | .check test, entry => some (if entry.1.agree test.left test.right then [entry] else [])
  | .repeated inner mode, entry =>
    repetition inner.boundSymbols mode (visit ground inner) terms entry
  | item, entry =>
    advanceOne (Matcher.fixedCount (item :: rest)) (visit ground item) terms entry

section Items

variable {ground : Ground} {terms : List Term} {rest : List Pattern}

theorem itemSearch_fixed {item : Pattern} (fixed : item.isFixedWidth = true) :
    itemSearch ground terms rest item =
      advanceOne (Matcher.fixedCount (item :: rest)) (visit ground item) terms := by
  cases item with
  | check _ | repeated _ _ => cases fixed
  | _ => rfl

/-- An item moves the frontier by what it finds from each entry. -/
theorem advance_cons (item : Pattern) (frontier : List Reached) :
    advance ground terms (item :: rest) frontier =
      (gather (itemSearch ground terms rest item) frontier).bind (advance ground terms rest) := by
  cases item using Pattern.itemCases with
  | check test =>
    rw [advance_check]
    have filtered := gather_filter (fun entry : Reached => entry.1.agree test.left test.right)
      frontier
    have same : itemSearch ground terms rest (.check test) = fun entry =>
        some (if entry.1.agree test.left test.right then [entry] else []) := rfl
    rw [same, filtered, Option.bind_some]
  | repeated inner mode =>
    rw [advance_repeated]
    rfl
  | fixed item one => rw [advance_item ground one, itemSearch_fixed one]

/-- An item leaves no position behind the last term. -/
theorem itemSearch_le {item : Pattern} {entry : Reached} (bound : entry.2 ≤ terms.length)
    {found : List Reached} (searched : itemSearch ground terms rest item entry = some found) :
    ∀ state ∈ found, state.2 ≤ terms.length := by
  cases item using Pattern.itemCases with
  | check test =>
    intro state listed
    cases searched
    split at listed
    · rw [List.mem_singleton.mp listed]
      exact bound
    · cases listed
  | repeated inner mode => exact repetition_le bound searched
  | fixed item one =>
    rw [itemSearch_fixed one] at searched
    exact advanceOne_le searched

/-- The items of a sequence leave no position behind the last term. -/
theorem advance_le (items : List Pattern) :
    ∀ {frontier found : List Reached}, (∀ entry ∈ frontier, entry.2 ≤ terms.length) →
      advance ground terms items frontier = some found →
      ∀ state ∈ found, state.2 ≤ terms.length := by
  induction items with
  | nil =>
    intro frontier found bound advanced
    cases advanced
    exact bound
  | cons item rest ih =>
    intro frontier found bound advanced
    rw [advance_cons] at advanced
    obtain ⟨next, searched, later⟩ := Option.bind_eq_some_iff.mp advanced
    refine ih ?_ later
    intro state listed
    obtain ⟨entry, there, here, one, found⟩ := (mem_gather searched).mp listed
    exact itemSearch_le (bound entry there) one state found

end Items

namespace Matcher

open Draft Statement

section Steps

variable {judgement : Judgement} {machine : Machine} {locals : Table Value} {store : Store}
  {entry position next : Symbol} {count source target reached : Nat} {bindings : Bindings}
  {items : Array Value}

/-- A check keeps an entry if it holds. -/
theorem checkStep_runs {test : Check} {code : List Statement} {before after : Draft}
    (yields : Yields (checkStep test entry position next) before code after)
    (one : Older before.localCount entry) (two : Older before.localCount position)
    (listed : Older before.localCount next)
    (known : locals.find? entry = some (.bindings source))
    (held : store.cell? source = some (.bindings bindings))
    (moved : locals.find? position = some (.int (wordOfCount reached)))
    (list : locals.find? next = some (.list target))
    (there : store.cell? target = some (.list items)) :
    Appending judgement machine code before.localCount locals store target
      (some (if bindings.agree test.left test.right then [(bindings, reached)] else [])) := by
  rw [← Draft.skip_zero before] at yields
  unfold checkStep at yields
  obtain ⟨equal, first, yields⟩ := yields_local (by decide) (by decide) yields
  obtain ⟨pair, second, yields⟩ := yields_local (by decide) (by decide) yields
  obtain ⟨rfl, rfl⟩ := yields_pure.mp yields
  have tested := (Fixes.refl before.localCount locals).insert first (Nat.le_refl _)
    (.bool (bindings.agree test.left test.right))
  refine Runs.matchCompare (Machine.read_name known) held ?_
  refine Runs.whenTrue _ (Table.find?_insert_self _ _ _) ?_ ?_ fun _ _ reached => .nil reached
  · intro holds
    rw [if_pos holds]
    refine runs_appendPair second (listed.mono (Nat.le_add_right _ _))
      ((tested entry one).trans known) held (Machine.read_name ((tested position two).trans moved))
      ((tested next listed).trans list) there ?_
    intro last final fixes appends
    exact ⟨tested.trans (fixes.mono (Nat.le_add_right _ _)), _, rfl, appends⟩
  · intro fails
    exact ⟨tested, [], by rw [fails]; rfl, .nil there (.refl store)⟩

/-- A call of a matcher appends the list that it gives. -/
theorem runs_extendCall {matcher found : Symbol} {arguments : List Operand} {values : List Value}
    {search : Option (List Reached)} (slot : Slot found count)
    (listed : Older count next) (known : machine.readAll locals arguments = .ok values)
    (called : Calls judgement machine matcher values store (GivesList store search))
    (list : locals.find? next = some (.list target))
    (there : store.cell? target = some (.list items)) :
    Appending judgement machine
      [assignCall found matcher arguments, perform .listExtend [.name next, .name found]] count
      locals store target search := by
  refine Runs.assignCall known called ?_
  rintro value changed ⟨place, entries, rfl, _, searched, keeps, added, held, shown⟩
  have fetched := (Fixes.refl count locals).insert slot (Nat.le_refl _) (.list place)
  have own := keeps _ _ there
  refine Runs.listExtend (Machine.read_name ((fetched next listed).trans list)) own
    (Machine.read_name (Table.find?_insert_self _ _ _)) held fun _ => ?_
  exact .nil ⟨fetched, entries, searched,
    (Display.appends_extendList own shown).keeps_left keeps there⟩

variable {language : Language} {draft : Draft} {ground : Ground} {sequence : List Term}
  {term length : Symbol}

/-- What an item is matched against, and where its results go: the locals of the sequence and the
entry of the frontier. -/
structure ItemLocals (sequence : List Term) (term length entry position next : Symbol)
    (source reached target : Nat) (locals : Table Value) : Prop where
  term : locals.find? term = some (.term (.sequence sequence))
  length : locals.find? length = some (.int (wordOfCount sequence.length))
  entry : locals.find? entry = some (.bindings source)
  position : locals.find? position = some (.int (wordOfCount reached))
  next : locals.find? next = some (.list target)

theorem ItemLocals.reads {after : Table Value}
    (known : ItemLocals sequence term length entry position next source reached target locals)
    (same : ∀ name ∈ [term, length, entry, position, next], after.find? name = locals.find? name) :
    ItemLocals sequence term length entry position next source reached target after where
  term := (same term (by simp)).trans known.term
  length := (same length (by simp)).trans known.length
  entry := (same entry (by simp)).trans known.entry
  position := (same position (by simp)).trans known.position
  next := (same next (by simp)).trans known.next

theorem ItemLocals.readAll
    (known : ItemLocals sequence term length entry position next source reached target locals) :
    machine.readAll locals [.name term, .name position, .name length, .name entry] =
      .ok (callArguments sequence reached sequence.length source) :=
  Machine.readAll_cons (Machine.read_name known.term)
    (Machine.readAll_cons (Machine.read_name known.position)
      (Machine.readAll_two (Machine.read_name known.length) (Machine.read_name known.entry)))

/-- The code of an item that takes one term appends what is found at the next term, if there is
room for the items from here on. -/
theorem itemStep_fixed {item : Pattern} {matcher : Symbol} {needed : Nat} {code : List Statement}
    {before after : Draft}
    (yields : Yields (itemStep matcher true needed term length entry position next) before code
      after)
    (reserved : lookupIn (language.name, item) draft.matchers = some matcher)
    (each : ∀ term ∈ sequence, MatcherMeets judgement machine language draft ground item term)
    (positive : 0 < needed) (counted : sequence.length ≤ mostCount)
    (older : ∀ name ∈ [term, length, entry, position, next], Older before.localCount name)
    (known : ItemLocals sequence term length entry position next source reached target locals)
    (held : store.cell? source = some (.bindings bindings)) (bound : reached ≤ sequence.length)
    (there : store.cell? target = some (.list items))
    (expected : judgement.Expects
      (advanceOne needed (visit ground item) sequence (bindings, reached))) :
    Appending judgement machine code before.localCount locals store target
      (advanceOne needed (visit ground item) sequence (bindings, reached)) := by
  rw [← Draft.skip_zero before] at yields
  unfold itemStep at yields
  obtain ⟨found, first, yields⟩ := yields_local (by decide) (by decide) yields
  obtain ⟨rest, second, yields⟩ := yields_local (by decide) (by decide) yields
  obtain ⟨room, third, yields⟩ := yields_local (by decide) (by decide) yields
  obtain ⟨rfl, rfl⟩ := yields_pure.mp yields
  obtain ⟨left, subtracted, compared⟩ := BinaryOp.apply_subtract sequence.length reached
  have fixed := (Fixes.refl before.localCount locals).insert second (Nat.le_add_right _ _)
    (.int left)
  refine Runs.assignBinary (Machine.read_name known.length) (Machine.read_name known.position)
    subtracted ?_
  refine Runs.assignBinary (Machine.read_name (Table.find?_insert_self _ _ _)) rfl
    (compared needed) ?_
  have tested := fixed.insert third (Nat.le_add_right _ _)
    (.bool (decide (capped reached + capped needed ≤ capped sequence.length)))
  have reads : ∀ name ∈ [term, length, entry, position, next], ((locals.insert rest
      (.int left)).insert room (.bool (decide (capped reached + capped needed ≤
        capped sequence.length)))).find? name = locals.find? name :=
    fun name listed => tested name (older name listed)
  rw [capped_eq counted, capped_eq (Nat.le_trans bound counted)] at tested reads ⊢
  unfold advanceOne at expected ⊢
  refine Runs.whenTrue _ (Table.find?_insert_self _ _ _) ?_ ?_ fun _ _ reached => .nil reached
  · intro fits
    rw [decide_eq_true_eq] at fits
    have below : reached < sequence.length := by
      have some : 0 < capped needed := by
        unfold capped mostCount
        omega
      omega
    have at_ : sequence[reached]? = some sequence[reached] := List.getElem?_eq_getElem below
    simp only [if_pos fits, at_] at expected ⊢
    have given := known.reads reads
    refine (runs_extendCall first (older next (by simp)) given.readAll
      (each _ (List.getElem_mem below) matcher reserved sequence reached sequence.length source
        bindings store counted below at_ held expected.of_map).calls given.next there).weaken ?_
      fun _ _ => False.elim
    rintro after changed ⟨fixes, appended⟩
    exact ⟨tested.trans fixes, appended⟩
  · intro full
    rw [decide_eq_false_iff_not] at full
    exact ⟨tested, [], if_neg full, .nil there (.refl store)⟩

/-- The code of a repetition appends the states after its rounds. -/
theorem itemStep_repeated {inner : Pattern} {mode : RepeatMode} {matcher : Symbol} {needed : Nat}
    {code : List Statement} {before after : Draft}
    (yields : Yields (itemStep matcher false needed term length entry position next) before code
      after)
    (reserved : lookupIn (language.name, .repeated inner mode) draft.matchers = some matcher)
    (meets : RepeatMeets judgement machine language draft ground inner mode sequence)
    (older : Older before.localCount next)
    (known : ItemLocals sequence term length entry position next source reached target locals)
    (held : store.cell? source = some (.bindings bindings)) (bound : reached ≤ sequence.length)
    (there : store.cell? target = some (.list items))
    (expected : judgement.Expects (repetition inner.boundSymbols mode (visit ground inner) sequence
      (bindings, reached))) :
    Appending judgement machine code before.localCount locals store target
      (repetition inner.boundSymbols mode (visit ground inner) sequence (bindings, reached)) := by
  rw [← Draft.skip_zero before] at yields
  unfold itemStep at yields
  obtain ⟨found, first, yields⟩ := yields_local (by decide) (by decide) yields
  obtain ⟨rfl, rfl⟩ := yields_pure.mp yields
  have called := meets matcher reserved reached sequence.length source bindings store bound
    (Nat.le_refl _) held
  rw [List.take_length] at called
  exact runs_extendCall first older known.readAll (called expected).calls known.next there

end Steps

section Fold

variable {judgement : Judgement} {machine : Machine} {language : Language} {draft : Draft}
  {ground : Ground} {sequence : List Term}

/-- The matcher of an item of a sequence gives what the search finds. -/
def ItemMeets (judgement : Judgement) (machine : Machine) (language : Language) (draft : Draft)
    (ground : Ground) (sequence : List Term) : Pattern → Prop
  | .check _ => True
  | .repeated inner mode => RepeatMeets judgement machine language draft ground inner mode sequence
  | item => ∀ term ∈ sequence, MatcherMeets judgement machine language draft ground item term

theorem itemMeets_fixed {item : Pattern} (fixed : item.isFixedWidth = true)
    (each : ∀ term ∈ sequence, MatcherMeets judgement machine language draft ground item term) :
    ItemMeets judgement machine language draft ground sequence item := by
  cases item with
  | repeated inner mode => cases fixed
  | check test => cases fixed
  | _ => exact each

theorem Appending.mono {code : List Statement} {fewer count place : Nat} {locals : Table Value}
    {store : Store} {search : Option (List Reached)} (le : fewer ≤ count)
    (appending : Appending judgement machine code count locals store place search) :
    Appending judgement machine code fewer locals store place search := by
  refine Runs.weaken appending ?_ fun _ _ => False.elim
  rintro after changed ⟨fixes, appended⟩
  exact ⟨fixes.mono le, appended⟩

/-- The code of an item appends what the item finds from an entry of the frontier. -/
theorem stepWith_runs (closed : language.Closed) {names : SequenceLocals} {item : Pattern}
    {rest : List Pattern} {entry position next : Symbol} {code : List Statement} {fuel : Nat}
    {before after : Draft}
    (yields : Yields (stepWith language (predicate language fuel) names (fixedCount (item :: rest))
      entry position next item) before code after)
    (grows : after.Grows draft) (placed : item.isCheck = true ∨ item.isItem = true)
    (meets : ItemMeets judgement machine language draft ground sequence item)
    (counted : sequence.length ≤ mostCount)
    (older : ∀ name ∈ [names.term, names.length, entry, position, next],
      Older before.localCount name) {locals : Table Value} {store : Store}
    {source reached target : Nat} {bindings : Bindings} {items : Array Value}
    (known : ItemLocals sequence names.term names.length entry position next source reached target
      locals)
    (held : store.cell? source = some (.bindings bindings)) (bound : reached ≤ sequence.length)
    (there : store.cell? target = some (.list items))
    (expected : judgement.Expects (itemSearch ground sequence rest item (bindings, reached))) :
    Appending judgement machine code before.localCount locals store target
      (itemSearch ground sequence rest item (bindings, reached)) := by
  cases item using Pattern.itemCases with
  | check test =>
    exact checkStep_runs yields (older entry (by simp)) (older position (by simp))
      (older next (by simp)) known.entry held known.position known.next there
  | repeated inner mode =>
    obtain ⟨matcher, middle, compiled, stepped⟩ := yields_bind.mp yields
    obtain ⟨earlier, reserved⟩ := yields_compileWith closed (placed.resolve_left nofun) compiled
    have later := (steady_itemStep stable_never _ _ _ _ _ _ _ _).grows _ _ _ stepped
    exact (itemStep_repeated stepped ((later.trans grows).matchers _ _ reserved) meets
      ((older next (by simp)).mono earlier.localCount) known held bound there expected).mono
        earlier.localCount
  | fixed item one =>
    have other : stepWith language (predicate language fuel) names (fixedCount (item :: rest)) entry
        position next item = (do
          let matcher ← compileWith language (predicate language fuel) item
          itemStep matcher item.isFixedWidth (fixedCount (item :: rest)) names.term names.length
            entry position next) := by
      cases item with
      | check _ | repeated _ _ => cases one
      | _ => rfl
    rw [other, one] at yields
    obtain ⟨matcher, middle, compiled, stepped⟩ := yields_bind.mp yields
    have itemized := placed.resolve_left (by rw [Pattern.isCheck_of_isFixedWidth one]; decide)
    obtain ⟨earlier, reserved⟩ := yields_compileWith closed itemized compiled
    have later := (steady_itemStep stable_never _ _ _ _ _ _ _ _).grows _ _ _ stepped
    have each : ∀ term ∈ sequence,
        MatcherMeets judgement machine language draft ground item term := by
      cases item with
      | check _ | repeated _ _ => cases one
      | _ => exact meets
    have positive : 0 < fixedCount (item :: rest) := by
      rw [fixedCount_cons, if_pos one]
      exact Nat.succ_pos _
    rw [itemSearch_fixed one] at expected ⊢
    exact (itemStep_fixed stepped ((later.trans grows).matchers _ _ reserved) each positive counted
      (fun name listed => (older name listed).mono earlier.localCount) known held bound there
      expected).mono earlier.localCount

/-- The code of an item only adds to the draft. -/
theorem grows_stepWith (closed : language.Closed) {names : SequenceLocals} {item : Pattern}
    (placed : item.isCheck = true ∨ item.isItem = true) {remaining fuel : Nat}
    {entry position next : Symbol} {code : List Statement} {before after : Draft}
    (yields : Yields (stepWith language (predicate language fuel) names remaining entry position
      next item) before code after) : before.Grows after := by
  by_cases checked : item.isCheck = true
  · cases item with
    | check test => exact (steady_checkStep stable_never _ _ _ _).grows _ _ _ yields
    | _ => cases checked
  · have other : stepWith language (predicate language fuel) names remaining entry position next
        item = (do
          let matcher ← compileWith language (predicate language fuel) item
          itemStep matcher item.isFixedWidth remaining names.term names.length entry position
            next) := by
      cases item with
      | check _ => exact absurd rfl checked
      | _ => rfl
    rw [other] at yields
    obtain ⟨matcher, middle, compiled, stepped⟩ := yields_bind.mp yields
    have earlier := (yields_compileWith closed (placed.resolve_left checked) compiled).1
    exact earlier.trans ((steady_itemStep stable_never _ _ _ _ _ _ _ _).grows _ _ _ stepped)

/-- The compiled items only add to the draft, and the name of the last frontier is older than what
is compiled after them. -/
theorem grows_compileItems (closed : language.Closed) {names : SequenceLocals} {fuel : Nat}
    (items : List Pattern) (placed : ∀ item ∈ items, item.isCheck = true ∨ item.isItem = true) :
    ∀ {remaining : Nat} {frontier last : Symbol} {code : List Statement} {before after : Draft},
      Yields (compileItems language (predicate language fuel) names remaining frontier items) before
        (code, last) after →
      Older before.localCount frontier →
      before.Grows after ∧ Older after.localCount last := by
  induction items with
  | nil =>
    intro remaining frontier last code before after yields older
    rw [compileItems] at yields
    obtain ⟨same, rfl⟩ := yields_pure.mp yields
    cases same
    exact ⟨.refl _, older⟩
  | cons item rest ih =>
    intro remaining frontier last code before after yields older
    rw [← Draft.skip_zero before, compileItems_cons] at yields
    obtain ⟨next, first, yields⟩ := yields_local (by decide) (by decide) yields
    obtain ⟨entry, _, yields⟩ := yields_local (by decide) (by decide) yields
    obtain ⟨position, _, yields⟩ := yields_local (by decide) (by decide) yields
    obtain ⟨step, middle, stepped, yields⟩ := yields_bind.mp yields
    obtain ⟨⟨others, final⟩, later, folded, yields⟩ := yields_bind.mp yields
    obtain ⟨same, rfl⟩ := yields_pure.mp yields
    cases same
    have grown := grows_stepWith closed (placed item List.mem_cons_self) stepped
    obtain ⟨more, last⟩ := ih (fun other listed => placed other (List.mem_cons_of_mem _ listed))
      folded ((first.older (by rw [Draft.localCount_skip]; omega)).mono grown.localCount)
    exact ⟨(before.grows_skip 3).trans (grown.trans more), last⟩

/-- The code of the items computes the frontier that the search computes. -/
theorem compileItems_runs (closed : language.Closed) {names : SequenceLocals} {fuel : Nat}
    (counted : sequence.length ≤ mostCount) {gives : Value → Store → Prop} (items : List Pattern)
    (placed : ∀ item ∈ items, item.isCheck = true ∨ item.isItem = true)
    (meets : ∀ item ∈ items, ItemMeets judgement machine language draft ground sequence item) :
    ∀ {frontier last : Symbol} {code : List Statement} {before after : Draft},
      Yields (compileItems language (predicate language fuel) names (fixedCount items) frontier
        items) before (code, last) after →
      after.Grows draft →
      (∀ name ∈ [names.term, names.length, frontier], Older before.localCount name) →
      ∀ {locals : Table Value} {store : Store} {place : Nat} {entries : List Reached},
        locals.find? names.term = some (.term (.sequence sequence)) →
        locals.find? names.length = some (.int (wordOfCount sequence.length)) →
        locals.find? frontier = some (.list place) → Display.entry.Lists store place entries →
        (∀ entry ∈ entries, entry.2 ≤ sequence.length) →
        judgement.Expects (advance ground sequence items entries) →
        Runs judgement machine code locals store
          (FrontierAt before.localCount locals store last (advance ground sequence items entries))
          gives := by
  induction items with
  | nil =>
    intro frontier last code before after yields grows older locals store place entries _ _ list
      lists _ _
    rw [compileItems] at yields
    obtain ⟨same, rfl⟩ := yields_pure.mp yields
    cases same
    exact .nil ⟨.refl _ _, .refl _, place, entries, list, rfl, lists⟩
  | cons item rest ih =>
    intro frontier last code before after yields grows older locals store place entries subject
      length list lists bound expected
    have fitting := placed item List.mem_cons_self
    have others := fun other listed => placed other (List.mem_cons_of_mem item listed)
    rw [← Draft.skip_zero before, compileItems_cons] at yields
    obtain ⟨next, first, yields⟩ := yields_local (by decide) (by decide) yields
    obtain ⟨entry, second, yields⟩ := yields_local (by decide) (by decide) yields
    obtain ⟨position, third, yields⟩ := yields_local (by decide) (by decide) yields
    obtain ⟨step, middle, stepped, yields⟩ := yields_bind.mp yields
    obtain ⟨⟨code, final⟩, later, folded, yields⟩ := yields_bind.mp yields
    obtain ⟨same, rfl⟩ := yields_pure.mp yields
    cases same
    have grown := grows_stepWith closed fitting stepped
    have recent : Older middle.localCount next :=
      (first.older (by rw [Draft.localCount_skip]; omega)).mono grown.localCount
    have more := (grows_compileItems closed rest others folded recent).1
    have start : before.localCount ≤ middle.localCount :=
      Nat.le_trans (Nat.le_add_right _ _) grown.localCount
    have left : (if item.isFixedWidth then fixedCount (item :: rest) - 1
        else fixedCount (item :: rest)) = fixedCount rest := by
      rw [fixedCount_cons]
      split <;> omega
    rw [left] at folded
    rw [advance_cons] at expected ⊢
    have created := (Fixes.refl before.localCount locals).insert first (Nat.le_refl _)
      (.list store.size)
    have under := fun name listed => (created name (older name listed))
    refine Runs.newList ?_
    refine Runs.forPairs Display.entry (Older (before.localCount + 1)) Display.paired_entry
      (third.ne second (by omega)) (second.not_older (Nat.le_refl _))
      (third.not_older (Nat.le_succ _)) ((under _ (by simp)).trans list)
      (lists.keeps (Store.keeps_addCell store _)) (store.cell?_addCell_self _) bound
      expected.of_bind ?_ ?_
    · intro inner changed reached identity one two within fixes _ there left right shown wanted
      obtain ⟨items, held⟩ := there
      obtain ⟨_, origin, same, stored⟩ := shown
      cases same
      have slots : ∀ name ∈ [names.term, names.length, entry, position, next],
          Older (before.localCount + 3) name := by
        simp only [List.forall_mem_cons, List.not_mem_nil, false_implies, implies_true, and_true]
        exact ⟨(older _ (by simp)).mono (by omega), (older _ (by simp)).mono (by omega),
          second.older (by omega), third.older (by omega), first.older (by omega)⟩
      have known : ItemLocals sequence names.term names.length entry position next origin
          reached.2 store.size inner :=
        ⟨(fixes _ ((older _ (by simp)).mono (by omega))).trans ((under _ (by simp)).trans subject),
          (fixes _ ((older _ (by simp)).mono (by omega))).trans ((under _ (by simp)).trans length),
          left, right,
          (fixes _ (first.older (by omega))).trans (Table.find?_insert_self _ _ _)⟩
      refine (Appending.mono (Nat.add_le_add_left (by omega : 1 ≤ 3) _)
        (stepWith_runs closed stepped (more.trans grows) fitting (meets item List.mem_cons_self)
          counted slots known stored within held wanted)).weaken (fun _ _ ends => ends)
          fun _ _ => False.elim
    · intro after changed found fixes searched appends
      have keeps := (Store.keeps_addCell store (.list #[])).trans_but store.cell?_size appends.kept
      have moved := (Display.lists_nil (store.cell?_addCell_self _)).appends appends
      have behind : ∀ state ∈ found, state.2 ≤ sequence.length := by
        intro state listed
        obtain ⟨entry, there, here, one, found⟩ := (mem_gather searched).mp listed
        exact itemSearch_le (bound entry there) one state found
      have fixed := created.trans (Fixes.mono fixes (Nat.le_succ _))
      have recents : ∀ name ∈ [names.term, names.length, next], Older middle.localCount name := by
        simp only [List.forall_mem_cons, List.not_mem_nil, false_implies, implies_true, and_true]
        exact ⟨(older _ (by simp)).mono start, (older _ (by simp)).mono start, recent⟩
      refine (ih others (fun other listed => meets other (List.mem_cons_of_mem _ listed)) folded
        grows recents ((fixed _ (older _ (by simp))).trans subject)
        ((fixed _ (older _ (by simp))).trans length)
        ((fixes _ (first.older (by omega))).trans (Table.find?_insert_self _ _ _)) moved behind
        (expected.bind_some searched)).weaken ?_ fun _ _ given => given
      rintro last final ⟨later, kept, place, entries, known, advanced, listed⟩
      refine ⟨fixed.trans (later.mono start), keeps.trans kept, place, entries, known, ?_, listed⟩
      rw [searched]
      exact advanced

end Fold

section Whole

variable {judgement : Judgement} {machine : Machine} {language : Language} {draft : Draft}
  {ground : Ground} {sequence : List Term}

/-- The code after the items appends the entries that took all terms. -/
theorem finish_runs {length last results entry position done next pair : Symbol}
    {count first place target total : Nat} {locals : Table Value} {store : Store}
    {entries : List Reached} {items : Array Value}
    (slots : Slots count [entry, position, done, next, pair])
    (older : ∀ name ∈ [length, last, results], Older count name)
    (start : locals.find? head = some (.int (wordOfCount first))) (room : first < mostCount)
    (long : locals.find? length = some (.int (wordOfCount total))) (counted : total ≤ mostCount)
    (known : locals.find? last = some (.list place)) (lists : Display.entry.Lists store place entries)
    (bound : ∀ entry ∈ entries, entry.2 ≤ total)
    (list : locals.find? results = some (.list target))
    (held : store.cell? target = some (.list items)) :
    Appending judgement machine
      [assignBinary next .add (.name head) (.int 1),
        .forEach [entry, position] last
          [assignBinary done .equal (.name position) (.name length),
            whenTrue done
              [assignPrimitive pair .makePair [.name entry, .name next],
                perform .listAppend [.name results, .name pair]]]] count locals store target
      (some ((finals total entries).map (·, first + 1))) := by
  obtain ⟨one, two, three, four, five, _⟩ := slots
  have moved := (Fixes.refl count locals).insert four (by omega) (.int (wordOfCount (first + 1)))
  have under := fun name listed => moved name (older name listed)
  have collected : judgement.Expects (gather (fun entry : Reached =>
      some (if entry.2 = total then [(entry.1, first + 1)] else [])) entries) := by
    rw [gather_finals]
    exact .inr rfl
  refine Runs.assignBinary (Machine.read_name start) rfl (BinaryOp.apply_add_one room) ?_
  -- The next position is kept through the rounds, though its name is not an old one.
  refine Runs.forPairs Display.entry (OlderOr count next) Display.paired_entry
    (two.ne one (by omega)) (one.not_olderOr (Nat.le_refl _) (one.ne four (by omega)))
    (two.not_olderOr (Nat.le_succ _) (two.ne four (by omega))) ((under _ (by simp)).trans known)
    lists held bound collected ?_ ?_
  · intro inner changed reached identity left right within agrees _ there fetched other shown _
    obtain ⟨items, now⟩ := there
    obtain ⟨_, origin, same, stored⟩ := shown
    cases same
    have tested := (Agrees.refl (OlderOr count next) inner).insert
      (three.not_olderOr (by omega) (three.ne four (by omega)))
      (.bool (decide (capped reached.2 = capped total)))
    refine Runs.assignBinary (Machine.read_name other)
      (Machine.read_name ((agrees _ (.inl (older _ (by simp)))).trans
        ((under _ (by simp)).trans long))) (BinaryOp.apply_equal _ _) ?_
    refine Runs.whenTrue _ (Table.find?_insert_self _ _ _) ?_ ?_ fun _ _ reached => .nil reached
    · intro ended
      rw [decide_eq_true_eq, capped_eq counted, capped_eq (Nat.le_trans within counted)] at ended
      have kept := agrees next (.inr rfl)
      rw [Table.find?_insert_self] at kept
      refine runs_appendPair five ((older _ (by simp)).mono (by omega)) ?_ stored
        (Machine.read_name ((tested next (.inr rfl)).trans kept))
        ((tested _ (.inl (older _ (by simp)))).trans ((agrees _ (.inl (older _ (by simp)))).trans
          ((under _ (by simp)).trans list))) now ?_
      · rw [Table.find?_insert_ne _ _ (three.ne one (by omega))]
        exact fetched
      · intro after final fixes appends
        exact ⟨tested.trans (fixes.olderOr (by omega) four (by omega)), _, by rw [if_pos ended],
          appends⟩
    · intro unfinished
      rw [decide_eq_false_iff_not, capped_eq counted, capped_eq (Nat.le_trans within counted)]
        at unfinished
      exact ⟨tested, [], by rw [if_neg unfinished], .nil now (.refl changed)⟩
  · intro after changed found agrees searched appends
    rw [gather_finals] at searched
    exact .nil ⟨moved.trans fun name old => agrees name (.inl old), found, searched, appends⟩

/-- From the first frontier through the items to the results. -/
theorem wholeItems_runs (before : Draft) (closed : language.Closed) {items : List Pattern}
    (placed : ∀ item ∈ items, item.isCheck = true ∨ item.isItem = true)
    (counted : sequence.length ≤ mostCount)
    (meets : ∀ item ∈ items, ItemMeets judgement machine language draft ground sequence item)
    {names : SequenceLocals} {first start last results entry position done next pair : Symbol}
    {fold : List Statement} {fuel : Nat} {after : Draft}
    (yields : Yields (compileItems language (predicate language fuel) names (fixedCount items) first
      items) (before.skip 2) (fold, last) after)
    (grows : after.Grows draft) (slots : Slots before.localCount [first, start])
    (later : Slots after.localCount [entry, position, done, next, pair])
    (older : ∀ name ∈ [names.term, names.length, results], Older before.localCount name)
    {locals : Table Value} {store : Store} {begins place target : Nat} {bindings : Bindings}
    {values : Array Value} (subject : locals.find? names.term = some (.term (.sequence sequence)))
    (length : locals.find? names.length = some (.int (wordOfCount sequence.length)))
    (known : locals.find? head = some (.int (wordOfCount begins))) (room : begins < mostCount)
    (source : locals.find? env = some (.bindings place))
    (held : store.cell? place = some (.bindings bindings))
    (list : locals.find? results = some (.list target))
    (there : store.cell? target = some (.list values))
    (expected : judgement.Expects (advance ground sequence items [(bindings, 0)])) :
    Appending judgement machine
      ([assignPrimitive first .newList [],
          assignPrimitive start .makePair [.name env, .int 0],
          perform .listAppend [.name first, .name start]] ++ fold ++
        [assignBinary next .add (.name head) (.int 1),
          .forEach [entry, position] last
            [assignBinary done .equal (.name position) (.name names.length),
              whenTrue done
                [assignPrimitive pair .makePair [.name entry, .name next],
                  perform .listAppend [.name results, .name pair]]]])
      before.localCount locals store target
      ((advance ground sequence items [(bindings, 0)]).map fun reached =>
        (finals sequence.length reached).map (·, begins + 1)) := by
  obtain ⟨one, two, _⟩ := slots
  rw [List.append_assoc]
  have zero : ∀ value, machine.read (locals.insert first value) (.int 0) =
      .ok (.int (wordOfCount 0)) := fun _ => rfl
  refine Runs.append (runs_singleton ⟨one, two, trivial⟩ (older_env _) source held zero) ?_
  rintro begun changed ⟨fixes, keeps, frontier, lists⟩
  have recents : ∀ name ∈ [names.term, names.length, first],
      Older (before.skip 2).localCount name := by
    simp only [List.forall_mem_cons, List.not_mem_nil, false_implies, implies_true, and_true]
    exact ⟨(older _ (by simp)).mono (Nat.le_add_right _ _),
      (older _ (by simp)).mono (Nat.le_add_right _ _),
      one.older (by rw [Draft.localCount_skip]; omega)⟩
  refine Runs.append (compileItems_runs closed counted items placed meets yields grows recents
    ((fixes _ (older _ (by simp))).trans subject) ((fixes _ (older _ (by simp))).trans length)
    frontier lists (by simp) expected) ?_
  rintro folded final ⟨moved, kept, origin, found, named, advanced, listed⟩
  rw [advanced]
  obtain ⟨grown, behind⟩ := grows_compileItems closed items placed yields
    (recents first (by simp))
  have fixed := fixes.trans (moved.mono (Nat.le_add_right _ _))
  have passed : before.localCount ≤ after.localCount :=
    Nat.le_trans (Nat.le_add_right _ _) grown.localCount
  have late : ∀ name ∈ [names.length, last, results], Older after.localCount name := by
    simp only [List.forall_mem_cons, List.not_mem_nil, false_implies, implies_true, and_true]
    exact ⟨(older _ (by simp)).mono passed, behind, (older _ (by simp)).mono passed⟩
  have now := kept _ _ (keeps _ _ there)
  refine (finish_runs later late ((fixed head (older_head _)).trans known) room
    ((fixed _ (older _ (by simp))).trans length) counted named listed
    (advance_le items (by simp) advanced) ((fixed _ (older _ (by simp))).trans list) now).weaken ?_
    fun _ _ => False.elim
  rintro done stored ⟨ended, results, same, appends⟩
  exact ⟨fixed.trans (ended.mono passed), results, same,
    appends.keeps_left (keeps.trans kept) there⟩

/-- The matcher of a sequence gives what is found at its term. -/
theorem sequenceBody_runs (closed : language.Closed) {items : List Pattern}
    (placed : ∀ item ∈ items, item.isCheck = true ∨ item.isItem = true) {subject : Term}
    (meets : ∀ sequence, subject = .sequence sequence →
      ∀ item ∈ items, ItemMeets judgement machine language draft ground sequence item)
    {body : List Statement} {fuel : Nat} {before after : Draft}
    (yields : Yields (bodyWith language (predicate language fuel) (.sequence items)) before body
      after)
    (grows : after.Grows draft) (proper : subject.Proper) {sequence : List Term}
    {position last place : Nat} {bindings : Bindings} {store : Store} (small : last ≤ mostCount)
    (below : position < last) (there : sequence[position]? = some subject)
    (held : store.cell? place = some (.bindings bindings))
    (expected : judgement.Expects (visit ground (.sequence items) subject bindings)) :
    Runs judgement machine body (callLocals sequence position last place) store
      (fun _ _ => False)
      (GivesList store ((visit ground (.sequence items) subject bindings).map fun found =>
        found.map (·, position + 1))) := by
  rw [← Draft.skip_zero before] at yields
  unfold bodyWith sequenceBody at yields
  obtain ⟨results, first, yields⟩ := yields_local (by decide) (by decide) yields
  obtain ⟨inRange, second, yields⟩ := yields_local (by decide) (by decide) yields
  obtain ⟨term, third, yields⟩ := yields_local (by decide) (by decide) yields
  obtain ⟨isSequence, fourth, yields⟩ := yields_local (by decide) (by decide) yields
  obtain ⟨length, fifth, yields⟩ := yields_local (by decide) (by decide) yields
  obtain ⟨enough, sixth, yields⟩ := yields_local (by decide) (by decide) yields
  obtain ⟨frontier, seventh, yields⟩ := yields_local (by decide) (by decide) yields
  obtain ⟨start, eighth, yields⟩ := yields_local (by decide) (by decide) yields
  obtain ⟨⟨fold, final⟩, middle, folded, yields⟩ := yields_bind.mp yields
  rw [← Draft.skip_zero middle] at yields
  obtain ⟨entry, ninth, yields⟩ := yields_local (by decide) (by decide) yields
  obtain ⟨reached, tenth, yields⟩ := yields_local (by decide) (by decide) yields
  obtain ⟨done, eleventh, yields⟩ := yields_local (by decide) (by decide) yields
  obtain ⟨next, twelfth, yields⟩ := yields_local (by decide) (by decide) yields
  obtain ⟨pair, thirteenth, yields⟩ := yields_local (by decide) (by decide) yields
  obtain ⟨rfl, rfl⟩ := yields_pure.mp yields
  have slots : Slots before.localCount [results, inRange] := ⟨first, second, trivial⟩
  have room : position < mostCount := by omega
  refine guardedBody_runs slots ?_ ?_
  · intro _ locals fixes list
    have known := (fixes terms (older_terms _)).trans (find?_terms sequence position last place)
    have start := (fixes head (older_head _)).trans (find?_head sequence position last place)
    have source := (fixes env (older_env _)).trans (find?_env sequence position last place)
    have fetched := ((Fixes.refl (before.localCount + 2) locals).insert third (Nat.le_refl _)
      (.term subject)).insert fourth (Nat.le_succ _)
      (.bool (decide (subject.kind = .sequence)))
    refine Runs.sequenceGet (Nat.le_of_lt room) (Machine.read_name known)
      (Machine.read_name start) there ?_
    refine Runs.keep (Machine.readAll_one (Machine.read_name (Table.find?_insert_self _ _ _))) rfl ?_
    refine Runs.whenTrue _ (Table.find?_insert_self _ _ _) ?_ ?_ fun _ _ reached => .nil reached
    · intro shaped
      obtain ⟨inner, rfl⟩ := Term.exists_of_kind_sequence (of_decide_eq_true shaped)
      have counted : inner.length ≤ mostCount := by
        cases proper with
        | sequence counted _ => exact counted
      have subjected : ((locals.insert term (.term (.sequence inner))).insert isSequence
          (.bool (decide ((Term.sequence inner).kind = .sequence)))).find? term =
          some (.term (.sequence inner)) := by
        rw [Table.find?_insert_ne _ _ (fourth.ne third (by omega)), Table.find?_insert_self]
      rw [visit_sequence] at expected ⊢
      refine Runs.keep (Machine.readAll_one (Machine.read_name subjected)) rfl ?_
      have measured := fetched.insert fifth (by omega) (.int (wordOfCount inner.length))
      have compared : (if isOpen items then BinaryOp.greaterEqual else .equal).apply
          (.int (wordOfCount inner.length)) (.int (wordOfCount (fixedCount items))) =
          .ok (.bool (longEnough items inner.length)) := by
        unfold longEnough
        cases isOpen items with
        | true => exact BinaryOp.apply_greaterEqual _ _
        | false => exact BinaryOp.apply_equal _ _
      refine Runs.assignBinary (Machine.read_name (Table.find?_insert_self _ _ _)) rfl compared ?_
      have tested := measured.insert sixth (by omega) (.bool (longEnough items inner.length))
      refine Runs.whenTrue _ (Table.find?_insert_self _ _ _) ?_ ?_ fun _ _ reached => .nil reached
      · intro long
        rw [if_pos long] at expected ⊢
        have older : ∀ name ∈ [term, length, results], Older (before.localCount + 6) name := by
          simp only [List.forall_mem_cons, List.not_mem_nil, false_implies, implies_true, and_true]
          exact ⟨third.older (by omega), fifth.older (by omega), first.older (by omega)⟩
        have named : (((locals.insert term (.term (.sequence inner))).insert isSequence
            (.bool (decide ((Term.sequence inner).kind = .sequence)))).insert length
              (.int (wordOfCount inner.length))).find? term = some (.term (.sequence inner)) := by
          rw [Table.find?_insert_ne _ _ (fifth.ne third (by omega))]
          exact subjected
        refine (wholeItems_runs (before.skip 6) closed placed counted (meets inner rfl) folded
          ((middle.grows_skip 5).trans grows) ⟨seventh, eighth, trivial⟩
          ⟨ninth, tenth, eleventh, twelfth, thirteenth, trivial⟩ older
          ?_ ?_ ((tested head (older_head _)).trans start) room
          ((tested env (older_env _)).trans source) (Store.keeps_addCell store _ _ _ held)
          ((tested results (first.older (by omega))).trans list) (store.cell?_addCell_self _)
          expected.of_map).weaken ?_ fun _ _ => False.elim
        · rw [Table.find?_insert_ne _ _ (sixth.ne third (by omega))]
          exact named
        · rw [Table.find?_insert_ne _ _ (sixth.ne fifth (by omega)), Table.find?_insert_self]
        · rintro done changed ⟨ended, found, same, appends⟩
          refine ⟨tested.trans (ended.mono (by rw [Draft.localCount_skip]; omega)), found, ?_, appends⟩
          rw [Option.map_map]
          exact same
      · intro short
        refine ⟨tested, [], ?_, .nil (store.cell?_addCell_self _) (.refl _)⟩
        rw [if_neg (by rw [short]; decide)]
        rfl
    · intro other
      refine ⟨fetched, [], ?_, .nil (store.cell?_addCell_self _) (.refl _)⟩
      rw [visit_sequence_other]
      · rfl
      · rintro inner rfl
        cases other
  · intro above
    rw [capped_eq small, capped_eq (Nat.le_of_lt room)] at above
    exact absurd below above

end Whole

end Matcher

end Reduct
