import Reduct.Proofs.SequenceCode

/-!
# The code of repetitions

A repetition opens a level for its symbols, explores rounds, and closes the levels of every state
that it reached. The exhaustive search keeps all states in one queue. What was taken from the queue
comes first, then the rest of one level, then what was found of the next level; the search by
levels tells what the queue comes to. The greedy search keeps one level at a time.
-/

namespace Reduct

section Levels

variable (round : Term → Bindings → Option (List Bindings)) (terms : List Term)

/-- A round at a position: nothing is found behind the last term. -/
def roundAt (position : Nat) (bindings : Bindings) : Option (List Bindings) :=
  match terms[position]? with
  | some term => round term bindings
  | none => some []

theorem roundAt_of_length_le {position : Nat} (behind : terms.length ≤ position) :
    roundAt round terms position = fun _ => some [] := by
  funext bindings
  rw [roundAt, List.getElem?_eq_none behind]

theorem gather_roundAt_behind {position : Nat} (behind : terms.length ≤ position)
    (level : List Bindings) : gather (roundAt round terms position) level = some [] := by
  rw [roundAt_of_length_le round terms behind]
  induction level with
  | nil => rfl
  | cons _ rest ih => rw [gather, ih]; rfl

/-- A round from an entry of the frontier is one term taken, whatever comes after it. -/
theorem advanceOne_zero (entry : Reached) :
    advanceOne 0 round terms entry =
      (roundAt round terms entry.2 entry.1).map fun found => found.map (·, entry.2 + 1) := by
  unfold advanceOne roundAt
  have zero : capped 0 = 0 := capped_eq (Nat.zero_le _)
  rw [zero, Nat.add_zero]
  by_cases inside : entry.2 < terms.length
  · rw [if_pos (Nat.le_of_lt inside), List.getElem?_eq_getElem inside]
  · rw [List.getElem?_eq_none (Nat.le_of_not_lt inside)]
    split <;> rfl

theorem exploreLevels_nil_level (mode : RepeatMode) (position : Nat) :
    exploreLevels mode round position terms [] = some [] := by
  cases terms <;> rfl

/-- Greedily a level is kept if no round succeeds from it. -/
theorem exploreLevels_greedy_drop (position : Nat) (level : List Bindings) :
    exploreLevels .greedy round position (terms.drop position) level =
      (gather (roundAt round terms position) level).bind fun next =>
        if next.isEmpty then some (level.map (·, position))
        else exploreLevels .greedy round (position + 1) (terms.drop (position + 1)) next := by
  by_cases inside : position < terms.length
  · have found : roundAt round terms position = round terms[position] := by
      funext bindings
      rw [roundAt, List.getElem?_eq_getElem inside]
    rw [List.drop_eq_getElem_cons inside, exploreLevels, found]
    refine congrArg _ (funext fun next => ?_)
    split
    · rfl
    · exact Option.map_id'
  · have behind : terms.length ≤ position := Nat.le_of_not_lt inside
    rw [List.drop_eq_nil_of_le behind, gather_roundAt_behind round terms behind]
    rfl

/-- What a queue comes to that holds the rest of one level and what was found of the next. -/
def queued (position : Nat) (left right : List Bindings) : Option (List Reached) :=
  (gather (roundAt round terms position) left).bind fun more =>
    (exploreLevels .exhaustive round (position + 1) (terms.drop (position + 1))
      (right ++ more)).map fun others => left.map (·, position) ++ others

/-- An exhaustive search starts with its level in the queue. -/
theorem exploreLevels_eq_queued (position : Nat) (level : List Bindings) :
    exploreLevels .exhaustive round position (terms.drop position) level =
      queued round terms position level [] := by
  unfold queued
  by_cases inside : position < terms.length
  · have found : roundAt round terms position = round terms[position] := by
      funext bindings
      rw [roundAt, List.getElem?_eq_getElem inside]
    rw [List.drop_eq_getElem_cons inside, exploreLevels, found]
    refine congrArg _ (funext fun next => ?_)
    cases next with
    | nil => rw [List.append_nil, exploreLevels_nil_level]; simp
    | cons first rest => rfl
  · have behind : terms.length ≤ position := Nat.le_of_not_lt inside
    rw [List.drop_eq_nil_of_le behind, gather_roundAt_behind round terms behind,
      Option.bind_some, List.append_nil, exploreLevels_nil_level, exploreLevels]
    simp

/-- After a level comes the next one. -/
theorem queued_nil (position : Nat) (right : List Bindings) :
    queued round terms position [] right = queued round terms (position + 1) right [] := by
  rw [← exploreLevels_eq_queued, queued, gather_nil, Option.bind_some, List.append_nil]
  exact Option.map_id'

/-- What is taken from the queue leaves what it finds at the end. -/
theorem queued_cons (position : Nat) (first : Bindings) (left right : List Bindings) :
    queued round terms position (first :: left) right =
      (roundAt round terms position first).bind fun found =>
        (queued round terms position left (right ++ found)).map ((first, position) :: ·) := by
  unfold queued
  rw [gather, Option.bind_assoc]
  refine congrArg _ (funext fun found => ?_)
  cases gather (roundAt round terms position) left with
  | none => rfl
  | some more =>
    simp only [Option.map_some, Option.bind_some, List.append_assoc, Option.map_map]
    rfl

end Levels

namespace Matcher

open Draft Statement

section Rounds

variable {judgement : Judgement} {machine : Machine} {language : Language} {draft : Draft}
  {ground : Ground}

/-- A call of the matcher that is repeated takes one term, or finds nothing at the end of its
range. -/
def RoundMeets (judgement : Judgement) (machine : Machine) (matcher : Symbol)
    (round : Term → Bindings → Option (List Bindings)) (sequence : List Term) (last : Nat) : Prop :=
  ∀ reached place bindings store, reached ≤ last → store.cell? place = some (.bindings bindings) →
    judgement.Expects (advanceOne 0 round (sequence.take last) (bindings, reached)) →
    Calls judgement machine matcher (callArguments sequence reached last place) store
      (GivesList store (advanceOne 0 round (sequence.take last) (bindings, reached)))

theorem roundMeets {inner : Pattern} {matcher : Symbol} {sequence : List Term} {last : Nat}
    (reserved : lookupIn (language.name, inner) draft.matchers = some matcher)
    (bound : last ≤ sequence.length) (counted : sequence.length ≤ mostCount)
    (each : ∀ term ∈ sequence, MatcherMeets judgement machine language draft ground inner term)
    (stops : MatcherStops judgement machine language draft inner) :
    RoundMeets judgement machine matcher (visit ground inner) sequence last := by
  intro reached place bindings store within held expected
  have sized : (sequence.take last).length = last := by
    rw [List.length_take]
    omega
  rw [advanceOne_zero] at expected ⊢
  rcases Nat.lt_or_eq_of_le within with below | rfl
  · have inside : reached < sequence.length := by omega
    have there : sequence[reached]? = some sequence[reached] := List.getElem?_eq_getElem inside
    have same : roundAt (visit ground inner) (sequence.take last) reached bindings =
        visit ground inner sequence[reached] bindings := by
      rw [roundAt, List.getElem?_take, if_pos below, there]
    rw [same] at expected ⊢
    exact (each _ (List.getElem_mem inside) matcher reserved sequence reached last place bindings
      store (Nat.le_trans bound counted) below there held expected.of_map).calls
  · rw [roundAt_of_length_le _ _ (Nat.le_of_eq sized)]
    exact (stops matcher reserved sequence reached place store (Nat.le_trans bound counted)).calls

end Rounds

section Greedy

variable {judgement : Judgement} {machine : Machine} {matcher : Symbol}
  {round : Term → Bindings → Option (List Bindings)} {sequence : List Term} {last count : Nat}
  {frontier pair going next entry position found length advanced : Symbol}

/-- The variables between two rounds of a greedy search: the level and the range. -/
structure LevelAt (count : Nat) (frontier going : Symbol) (start : Table Value) (origin : Store)
    (level : List Reached) (locals : Table Value) (store : Store) : Prop where
  fixes : Fixes count start locals
  keeps : origin.Keeps store
  goes : locals.find? going = some (.bool true)
  lists : ∃ place, locals.find? frontier = some (.list place) ∧
    Display.entry.Lists store place level

/-- One round from every state of a level. -/
theorem greedyRound_runs
    (slots : Slots count [frontier, pair, going, next, entry, position, found, length, advanced])
    (meets : RoundMeets judgement machine matcher round sequence last)
    {start : Table Value} {origin : Store} {gives : Value → Store → Prop}
    (subject : start.find? terms = some (.term (.sequence sequence)))
    (range : start.find? tail = some (.int (wordOfCount last))) {level : List Reached}
    (within : ∀ state ∈ level, state.2 ≤ last)
    (expected : judgement.Expects (gather (advanceOne 0 round (sequence.take last)) level))
    {locals : Table Value} {store : Store}
    (at_ : LevelAt count frontier going start origin level locals store) :
    Runs judgement machine
      [assignPrimitive next .newList [],
        .forEach [entry, position] frontier
          [assignCall found matcher [.name terms, .name position, .name tail, .name entry],
            perform .listExtend [.name next, .name found]],
        assignPrimitive length .listLength [.name next],
        assignBinary advanced .greater (.name length) (.int 0),
        .branch (.name advanced)
          [.assign frontier (.operand (.name next))]
          [.assign going (.operand (.bool false))]] locals store
      (fun after changed => ∃ news,
        gather (advanceOne 0 round (sequence.take last)) level = some news ∧
        if news.isEmpty then
          after.find? going = some (.bool false) ∧
            FrontierAt count start origin frontier (some level) after changed
        else LevelAt count frontier going start origin news after changed) gives := by
  obtain ⟨one, two, three, four, five, six, seven, eight, nine, _⟩ := slots
  obtain ⟨fixes, keeps, goes, place, known, lists⟩ := at_
  have created := (Fixes.refl (count + 3) locals).insert four (Nat.le_refl _) (.list store.size)
  refine Runs.newList ?_
  refine Runs.forPairs Display.entry (Older (count + 4)) Display.paired_entry
    (six.ne five (by omega)) (five.not_older (Nat.le_refl _)) (six.not_older (by omega))
    ((created frontier (one.older (by omega))).trans known)
    (lists.keeps (Store.keeps_addCell store _)) (store.cell?_addCell_self _) within expected ?_ ?_
  · intro inner changed reached identity left right below agrees _ there fetched other shown wanted
    obtain ⟨items, held⟩ := there
    obtain ⟨_, origin, same, stored⟩ := shown
    cases same
    have reads : ∀ name, Older count name → inner.find? name = start.find? name := by
      intro name older
      rw [agrees name (older.mono (by omega)), created name (older.mono (by omega)),
        fixes name older]
    have arguments : machine.readAll inner
        [.name terms, .name position, .name tail, .name entry] =
        .ok (callArguments sequence reached.2 last origin) :=
      Machine.readAll_cons (Machine.read_name ((reads _ (older_terms _)).trans subject))
        (Machine.readAll_cons (Machine.read_name other)
          (Machine.readAll_two (Machine.read_name ((reads _ (older_tail _)).trans range))
            (Machine.read_name fetched)))
    refine (runs_extendCall seven (four.older (by omega)) arguments
      (meets reached.2 origin reached.1 changed below stored wanted)
      ((agrees next (four.older (by omega))).trans (Table.find?_insert_self _ _ _)) held).weaken ?_
      fun _ _ => False.elim
    rintro after final ⟨fixed, appended⟩
    exact ⟨fixed.mono (by omega), appended⟩
  · intro after changed news agrees searched appends
    have kept := (Store.keeps_addCell store (.list #[])).trans_but store.cell?_size appends.kept
    have reached := (Display.lists_nil (store.cell?_addCell_self _)).appends appends
    rw [List.nil_append] at reached
    obtain ⟨items, held, shown⟩ := reached
    have named : after.find? next = some (.list store.size) :=
      (agrees next (four.older (by omega))).trans (Table.find?_insert_self _ _ _)
    have sized : items.size = news.length := by
      rw [← Array.length_toList]
      exact shown.length_eq
    refine Runs.listLength (Machine.read_name named) held ?_
    refine Runs.assignBinary (Machine.read_name (Table.find?_insert_self _ _ _)) rfl
      (BinaryOp.apply_greater_zero _) ?_
    have late := ((Fixes.refl (count + 7) after).insert eight (Nat.le_refl _)
      (.int (wordOfCount items.size))).insert nine (Nat.le_succ _) (.bool (decide (0 < items.size)))
    have early : ∀ name, Older (count + 3) name →
        ((after.insert length (.int (wordOfCount items.size))).insert advanced
          (.bool (decide (0 < items.size)))).find? name = locals.find? name := by
      intro name older
      rw [late name (older.mono (by omega)), agrees name (older.mono (by omega)), created name older]
    have fixed : Fixes count start ((after.insert length (.int (wordOfCount items.size))).insert
        advanced (.bool (decide (0 < items.size)))) :=
      fixes.trans fun name older => early name (older.mono (by omega))
    refine Runs.branch _ (Machine.read_name (Table.find?_insert_self _ _ _)) ?_ ?_
      fun _ _ reached => .nil reached
    · intro some_
      have filled : news.isEmpty = false := by
        cases news with
        | nil => rw [decide_eq_true_eq, sized] at some_; exact absurd some_ (Nat.lt_irrefl 0)
        | cons _ _ => rfl
      refine Runs.assignOperand (Machine.read_name ((late next (four.older (by omega))).trans named))
        (.nil ⟨news, searched, ?_⟩)
      rw [filled]
      refine ⟨fixed.insert one (Nat.le_refl _) _, keeps.trans kept, ?_, store.size,
        Table.find?_insert_self _ _ _, items, held, shown⟩
      rw [Table.find?_insert_ne _ _ (one.ne three (by omega)), early going (three.older (by omega))]
      exact goes
    · intro none_
      have empty : news.isEmpty = true := by
        cases news with
        | nil => rfl
        | cons _ _ => rw [decide_eq_false_iff_not, sized] at none_; exact absurd (Nat.succ_pos _) none_
      refine Runs.assignOperand rfl (.nil ⟨news, searched, ?_⟩)
      rw [empty]
      refine ⟨Table.find?_insert_self _ _ _, fixed.insert three (by omega) _, keeps.trans kept,
        place, level, ?_, rfl, lists.keeps kept⟩
      rw [Table.find?_insert_ne _ _ (three.ne one (by omega)), early frontier (one.older (by omega))]
      exact known

/-- States at one position, from the bindings of a level. -/
theorem gather_level {terms : List Term} (position : Nat) (level : List Bindings) :
    gather (advanceOne 0 round terms) (level.map (·, position)) =
      (gather (roundAt round terms position) level).map fun found =>
        found.map (·, position + 1) := by
  induction level with
  | nil => rfl
  | cons first rest ih =>
    rw [List.map_cons, gather, gather, advanceOne_zero, ih]
    cases roundAt round terms position first with
    | none => rfl
    | some found =>
      cases gather (roundAt round terms position) rest with
      | none => rfl
      | some others => simp

/-- The rounds of a greedy search come to the last level that is not empty. -/
theorem greedy_loops
    (slots : Slots count [frontier, pair, going, next, entry, position, found, length, advanced])
    (meets : RoundMeets judgement machine matcher round sequence last)
    {start : Table Value} {origin : Store} {gives : Value → Store → Prop}
    (subject : start.find? terms = some (.term (.sequence sequence)))
    (range : start.find? tail = some (.int (wordOfCount last))) (gap : Nat) :
    ∀ {reached : Nat} {level : List Bindings} {locals : Table Value} {store : Store},
      reached ≤ last → last < reached + gap →
      judgement.Expects (exploreLevels .greedy round reached ((sequence.take last).drop reached)
        level) →
      LevelAt count frontier going start origin (level.map (·, reached)) locals store →
      Loops judgement machine (.loop going
        [assignPrimitive next .newList [],
          .forEach [entry, position] frontier
            [assignCall found matcher [.name terms, .name position, .name tail, .name entry],
              perform .listExtend [.name next, .name found]],
          assignPrimitive length .listLength [.name next],
          assignBinary advanced .greater (.name length) (.int 0),
          .branch (.name advanced)
            [.assign frontier (.operand (.name next))]
            [.assign going (.operand (.bool false))]]) locals store
        (FrontierAt count start origin frontier
          (exploreLevels .greedy round reached ((sequence.take last).drop reached) level))
        gives := by
  induction gap with
  | zero =>
    intro reached level locals store within near
    omega
  | succ gap ih =>
    intro reached level locals store within near expected at_
    rw [exploreLevels_greedy_drop] at expected ⊢
    have wanted : judgement.Expects (gather (advanceOne 0 round (sequence.take last))
        (level.map (·, reached))) := by
      rw [gather_level]
      exact expected.of_bind.map _
    refine Loops.loopTrue at_.goes (greedyRound_runs slots meets subject range
      (by simp [within]) wanted at_) ?_
    rintro after changed ⟨news, searched, next⟩
    rw [gather_level] at searched
    obtain ⟨found, rounds, rfl⟩ := Option.map_eq_some_iff.mp searched
    rw [rounds, Option.bind_some] at expected ⊢
    rw [List.isEmpty_map] at next
    by_cases empty : found.isEmpty = true
    · rw [if_pos empty] at next ⊢
      exact Loops.loopFalse next.1 next.2
    · rw [if_neg empty] at next expected ⊢
      have below : reached < last := by
        by_contra behind
        have short : (sequence.take last).length ≤ reached :=
          Nat.le_trans (List.length_take_le _ _) (Nat.le_of_not_lt behind)
        rw [gather_roundAt_behind round _ short] at rounds
        cases rounds
        exact empty rfl
      exact ih below (by omega) expected next

end Greedy

section Exhaustive

variable {judgement : Judgement} {machine : Machine} {matcher : Symbol}
  {round : Term → Bindings → Option (List Bindings)} {sequence : List Term} {last count : Nat}
  {queue pair index going length more item entry position found : Symbol}

/-- The variables between two rounds of an exhaustive search: what was taken from the queue, and
what is left in it. -/
structure QueueAt (count : Nat) (queue index going : Symbol) (start : Table Value) (origin : Store)
    (taken left : List Reached) (locals : Table Value) (store : Store) : Prop where
  fixes : Fixes count start locals
  keeps : origin.Keeps store
  goes : locals.find? going = some (.bool true)
  list : locals.find? queue = some (.list origin.size)
  index : locals.find? index = some (.int (wordOfCount taken.length))
  lists : Display.entry.Lists store origin.size (taken ++ left)
  room : (taken ++ left).length ≤ mostCount

/-- What comes after a round: the search ends with an empty queue, or what is found from the next
state comes to its end. -/
def AfterTaking (step : Reached → Option (List Reached)) (count : Nat) (queue index going : Symbol)
    (start : Table Value) (origin : Store) (taken : List Reached) :
    List Reached → Table Value → Store → Prop
  | [], after, changed => after.find? going = some (.bool false) ∧
      FrontierAt count start origin queue (some taken) after changed
  | state :: others, after, changed => ∃ news, step state = some news ∧
      QueueAt count queue index going start origin (taken ++ [state]) (others ++ news) after changed

theorem QueueAt.later {start : Table Value} {origin : Store} {taken left : List Reached}
    {locals after : Table Value} {store : Store}
    (at_ : QueueAt count queue index going start origin taken left locals store)
    (slots : Slots count [queue, pair, index, going]) (fixes : Fixes (count + 4) locals after) :
    QueueAt count queue index going start origin taken left after store := by
  obtain ⟨one, _, three, four, _⟩ := slots
  exact ⟨at_.fixes.trans (fixes.mono (by omega)), at_.keeps,
    (fixes going (four.older (by omega))).trans at_.goes,
    (fixes queue (one.older (by omega))).trans at_.list,
    (fixes index (three.older (by omega))).trans at_.index, at_.lists, at_.room⟩

/-- What is found from the next state of the queue comes to its end. -/
theorem queueTake_runs
    (slots : Slots count [queue, pair, index, going, length, more, item, entry, position, found])
    (meets : RoundMeets judgement machine matcher round sequence last)
    {start : Table Value} {origin : Store} {gives : Value → Store → Prop}
    (subject : start.find? terms = some (.term (.sequence sequence)))
    (range : start.find? tail = some (.int (wordOfCount last))) {taken others : List Reached}
    {state : Reached} (within : state.2 ≤ last)
    (expected : judgement.Expects (advanceOne 0 round (sequence.take last) state))
    {locals : Table Value} {store : Store}
    (at_ : QueueAt count queue index going start origin taken (state :: others) locals store) :
    Runs judgement machine
      [assignPrimitive item .listGet [.name queue, .name index],
        .assign entry (.field item 0),
        .assign position (.field item 1),
        assignBinary index .add (.name index) (.int 1),
        assignCall found matcher [.name terms, .name position, .name tail, .name entry],
        perform .listExtend [.name queue, .name found]] locals store
      (fun after changed => ∃ news, advanceOne 0 round (sequence.take last) state = some news ∧
        QueueAt count queue index going start origin (taken ++ [state]) (others ++ news) after
          changed) gives := by
  obtain ⟨one, two, three, four, five, six, seven, eight, nine, ten, _⟩ := slots
  obtain ⟨fixes, keeps, goes, list, known, lists, room⟩ := at_
  obtain ⟨items, _, held, there, sized, identity, place, rfl, stored⟩ := lists.exists_get
  have below : taken.length < mostCount := by
    rw [List.length_append, List.length_cons] at room
    omega
  refine Runs.listGet (Nat.le_of_lt below) (Machine.read_name list) held (Machine.read_name known)
    there ?_
  refine Runs.assignField (Machine.component_first (Table.find?_insert_self _ _ _)) ?_
  have paired : ((locals.insert item (.pair identity (.bindings place)
      (.int (wordOfCount state.2)))).insert entry (.bindings place)).find? item =
      some (.pair identity (.bindings place) (.int (wordOfCount state.2))) := by
    rw [Table.find?_insert_ne _ _ (eight.ne seven (by omega)), Table.find?_insert_self]
  refine Runs.assignField (Machine.component_second paired) ?_
  have opened := (((Fixes.refl (count + 6) locals).insert seven (Nat.le_refl _)
    (.pair identity (.bindings place) (.int (wordOfCount state.2)))).insert eight (by omega)
      (.bindings place)).insert nine (by omega) (.int (wordOfCount state.2))
  refine Runs.assignBinary (Machine.read_name ((opened index (three.older (by omega))).trans known))
    rfl (BinaryOp.apply_add_one below) ?_
  refine Runs.assignCall ?_ (meets state.2 place state.1 store within stored expected) ?_
  · refine Machine.readAll_cons (Machine.read_name ?_) (Machine.readAll_cons (Machine.read_name ?_)
      (Machine.readAll_two (Machine.read_name ?_) (Machine.read_name ?_)))
    · rw [Table.find?_insert_ne _ _ ((older_terms count).ne three (by omega)),
        opened _ (older_terms _), fixes _ (older_terms _), subject]
    · rw [Table.find?_insert_ne _ _ (three.ne nine (by omega)), Table.find?_insert_self]
    · rw [Table.find?_insert_ne _ _ ((older_tail count).ne three (by omega)),
        opened _ (older_tail _), fixes _ (older_tail _), range]
    · rw [Table.find?_insert_ne _ _ (three.ne eight (by omega)),
        Table.find?_insert_ne _ _ (nine.ne eight (by omega)), Table.find?_insert_self]
  · rintro value changed ⟨source, news, rfl, _, searched, kept, added, given, shown⟩
    have own := kept _ _ held
    refine Runs.listExtend (Machine.read_name ?_) own
      (Machine.read_name (Table.find?_insert_self _ _ _)) given fun fits => .nil ⟨news, searched, ?_⟩
    · rw [Table.find?_insert_ne _ _ (ten.ne one (by omega)),
        Table.find?_insert_ne _ _ (three.ne one (by omega)), opened _ (one.older (by omega)), list]
    · have appends := (Display.appends_extendList own shown).keeps_left kept held
      have longer : taken ++ [state] ++ (others ++ news) = taken ++ state :: others ++ news := by simp
      refine ⟨?_, keeps.trans_but origin.cell?_size appends.kept, ?_, ?_, ?_, ?_, ?_⟩
      · exact ((fixes.trans (opened.mono (by omega))).insert three (by omega) _).insert ten
          (by omega) _
      · rw [Table.find?_insert_ne _ _ (ten.ne four (by omega)),
          Table.find?_insert_ne _ _ (three.ne four (by omega)), opened _ (four.older (by omega)),
          goes]
      · rw [Table.find?_insert_ne _ _ (ten.ne one (by omega)),
          Table.find?_insert_ne _ _ (three.ne one (by omega)), opened _ (one.older (by omega)),
          list]
      · rw [Table.find?_insert_ne _ _ (ten.ne three (by omega)), Table.find?_insert_self,
          List.length_append]
        rfl
      · rw [longer]
        exact lists.appends appends
      · have counted : added.toList.length = news.length := shown.length_eq
        rw [longer, List.length_append, ← sized, ← counted]
        exact fits

/-- One round takes the next state from the queue. -/
theorem queueRound_runs
    (slots : Slots count [queue, pair, index, going, length, more, item, entry, position, found])
    (meets : RoundMeets judgement machine matcher round sequence last)
    {start : Table Value} {origin : Store} {gives : Value → Store → Prop}
    (subject : start.find? terms = some (.term (.sequence sequence)))
    (range : start.find? tail = some (.int (wordOfCount last))) {taken left : List Reached}
    (within : ∀ state ∈ left, state.2 ≤ last)
    (expected : ∀ state ∈ left.head?,
      judgement.Expects (advanceOne 0 round (sequence.take last) state))
    {locals : Table Value} {store : Store}
    (at_ : QueueAt count queue index going start origin taken left locals store) :
    Runs judgement machine
      [assignPrimitive length .listLength [.name queue],
        assignBinary more .less (.name index) (.name length),
        .branch (.name more)
          [assignPrimitive item .listGet [.name queue, .name index],
            .assign entry (.field item 0),
            .assign position (.field item 1),
            assignBinary index .add (.name index) (.int 1),
            assignCall found matcher [.name terms, .name position, .name tail, .name entry],
            perform .listExtend [.name queue, .name found]]
          [.assign going (.operand (.bool false))]] locals store
      (AfterTaking (advanceOne 0 round (sequence.take last)) count queue index going start origin
        taken left) gives := by
  obtain ⟨one, two, three, four, five, six, seven, eight, nine, ten, _⟩ := slots
  obtain ⟨fixes, keeps, goes, list, known, lists, room⟩ := at_
  obtain ⟨items, held, shown⟩ := lists
  have sized : items.size = (taken ++ left).length := by
    rw [← Array.length_toList]
    exact shown.length_eq
  rw [List.length_append] at sized room
  refine Runs.listLength (Machine.read_name list) held ?_
  have measured := (Fixes.refl (count + 4) locals).insert five (Nat.le_refl _)
    (.int (wordOfCount items.size))
  refine Runs.assignBinary (Machine.read_name ((measured index (three.older (by omega))).trans known))
    (Machine.read_name (Table.find?_insert_self _ _ _)) (BinaryOp.apply_less _ _) ?_
  rw [capped_eq (by omega), capped_eq (by omega)]
  have tested := measured.insert six (by omega) (.bool (decide (taken.length < items.size)))
  refine Runs.branch _ (Machine.read_name (Table.find?_insert_self _ _ _)) ?_ ?_
    fun _ _ reached => .nil reached
  · intro below
    cases left with
    | nil =>
      rw [decide_eq_true_eq, sized] at below
      exact absurd below (by simp)
    | cons state others =>
      have at_ : QueueAt count queue index going start origin taken (state :: others) locals store :=
        ⟨fixes, keeps, goes, list, known, ⟨items, held, shown⟩, by rw [List.length_append]; exact room⟩
      exact queueTake_runs ⟨one, two, three, four, five, six, seven, eight, nine, ten, trivial⟩ meets
        subject range (within state List.mem_cons_self) (expected state rfl)
        (at_.later ⟨one, two, three, four, trivial⟩ tested)
  · intro done
    cases left with
    | nil =>
      refine Runs.assignOperand rfl (.nil ⟨Table.find?_insert_self _ _ _, ?_, keeps, origin.size,
        taken, ?_, rfl, items, held, by rw [← List.append_nil taken]; exact shown⟩)
      · exact (fixes.trans (tested.mono (by omega))).insert four (by omega) _
      · rw [Table.find?_insert_ne _ _ (four.ne one (by omega)), tested queue (one.older (by omega))]
        exact list
    | cons state others =>
      rw [decide_eq_false_iff_not, sized, List.length_cons] at done
      omega

/-- The rounds of an exhaustive search come to all states, level by level. -/
theorem queue_loops
    (slots : Slots count [queue, pair, index, going, length, more, item, entry, position, found])
    (meets : RoundMeets judgement machine matcher round sequence last)
    {start : Table Value} {origin : Store} {gives : Value → Store → Prop}
    (subject : start.find? terms = some (.term (.sequence sequence)))
    (range : start.find? tail = some (.int (wordOfCount last))) (gap : Nat) :
    ∀ {reached : Nat}, last < reached + gap →
      ∀ (left : List Bindings) {right : List Bindings} {taken : List Reached}
        {locals : Table Value} {store : Store},
        (left ≠ [] → reached ≤ last) → (right ≠ [] → reached + 1 ≤ last) →
        judgement.Expects (queued round (sequence.take last) reached left right) →
        QueueAt count queue index going start origin taken
          (left.map (·, reached) ++ right.map (·, reached + 1)) locals store →
        Loops judgement machine (.loop going
          [assignPrimitive length .listLength [.name queue],
            assignBinary more .less (.name index) (.name length),
            .branch (.name more)
              [assignPrimitive item .listGet [.name queue, .name index],
                .assign entry (.field item 0),
                .assign position (.field item 1),
                assignBinary index .add (.name index) (.int 1),
                assignCall found matcher [.name terms, .name position, .name tail, .name entry],
                perform .listExtend [.name queue, .name found]]
              [.assign going (.operand (.bool false))]]) locals store
          (FrontierAt count start origin queue
            ((queued round (sequence.take last) reached left right).map (taken ++ ·))) gives := by
  induction gap with
  | zero =>
    intro reached near left right taken locals store low high expected at_
    have none_ : left = [] := by_contra fun some_ => by have := low some_; omega
    have nothing : right = [] := by_contra fun some_ => by have := high some_; omega
    subst none_ nothing
    refine Loops.loopTrue at_.goes (queueRound_runs slots meets subject range (by simp) (by simp)
      at_) ?_
    rintro after changed ⟨stopped, ended⟩
    refine Loops.loopFalse stopped ?_
    rw [queued_nil, ← exploreLevels_eq_queued, exploreLevels_nil_level]
    simpa using ended
  | succ gap further =>
    intro reached near left
    induction left with
    | nil =>
      intro right taken locals store low high expected at_
      rw [queued_nil] at expected ⊢
      refine further (by omega) right high (by simp) expected ?_
      simpa using at_
    | cons first left ih =>
      intro right taken locals store low high expected at_
      rw [queued_cons] at expected ⊢
      have within := low nofun
      have states : ∀ state ∈ (first :: left).map (·, reached) ++ right.map (·, reached + 1),
          state.2 ≤ last := by
        intro state listed
        rcases List.mem_append.mp listed with near | far
        · obtain ⟨_, _, rfl⟩ := List.mem_map.mp near
          exact within
        · obtain ⟨bindings, there, rfl⟩ := List.mem_map.mp far
          exact high (List.ne_nil_of_mem there)
      have wanted : judgement.Expects (advanceOne 0 round (sequence.take last) (first, reached)) := by
        rw [advanceOne_zero]
        exact expected.of_bind.map _
      refine Loops.loopTrue at_.goes (queueRound_runs slots meets subject range states
        (by simpa using wanted) at_) ?_
      rintro after changed ⟨news, stepped, moved⟩
      rw [advanceOne_zero] at stepped
      obtain ⟨fresh, rounds, rfl⟩ := Option.map_eq_some_iff.mp stepped
      simp only at rounds moved
      rw [rounds, Option.bind_some] at expected ⊢
      have below : fresh ≠ [] → reached + 1 ≤ last := by
        intro some_
        by_contra behind
        have short : (sequence.take last).length ≤ reached :=
          Nat.le_trans (List.length_take_le _ _) (by omega)
        rw [roundAt_of_length_le round _ short] at rounds
        cases rounds
        exact some_ rfl
      have later : right ++ fresh ≠ [] → reached + 1 ≤ last := by
        intro some_
        by_cases empty : right = []
        · exact below (by simpa [empty] using some_)
        · exact high empty
      have regrouped : ((queued round (sequence.take last) reached left (right ++ fresh)).map
          ((first, reached) :: ·)).map (taken ++ ·) =
          (queued round (sequence.take last) reached left (right ++ fresh)).map
            (taken ++ [(first, reached)] ++ ·) := by
        rw [Option.map_map]
        refine congrArg (fun change => Option.map change _) (funext fun others => ?_)
        simp
      rw [regrouped]
      refine ih (fun _ => within) later expected.of_map ?_
      simpa using moved

end Exhaustive

section Whole

variable {judgement : Judgement} {machine : Machine} {language : Language} {draft : Draft}
  {ground : Ground}

/-- The code that explores rounds comes to the states that the search by levels finds, in a list
under a local name of its own. -/
theorem explore_runs {matcher start : Symbol} {mode : RepeatMode} {code : List Statement}
    {list : Symbol} {before after : Draft}
    (yields : Yields (explore matcher start mode) before (code, list) after)
    {round : Term → Bindings → Option (List Bindings)} {sequence : List Term} {first last : Nat}
    (meets : RoundMeets judgement machine matcher round sequence last)
    (within : first ≤ last) {locals : Table Value} {store : Store} {place : Nat}
    {content : Bindings} {gives : Value → Store → Prop}
    (older : Older before.localCount start)
    (subject : locals.find? terms = some (.term (.sequence sequence)))
    (begins : locals.find? head = some (.int (wordOfCount first)))
    (range : locals.find? tail = some (.int (wordOfCount last)))
    (known : locals.find? start = some (.bindings place))
    (held : store.cell? place = some (.bindings content))
    (expected : judgement.Expects
      (exploreLevels mode round first ((sequence.take last).drop first) [content])) :
    Older after.localCount list ∧ Runs judgement machine code locals store
      (FrontierAt before.localCount locals store list
        (exploreLevels mode round first ((sequence.take last).drop first) [content])) gives := by
  rw [← Draft.skip_zero before] at yields
  cases mode with
  | greedy =>
    unfold explore exploreGreedy at yields
    obtain ⟨frontier, one, yields⟩ := yields_local (by decide) (by decide) yields
    obtain ⟨pair, two, yields⟩ := yields_local (by decide) (by decide) yields
    obtain ⟨going, three, yields⟩ := yields_local (by decide) (by decide) yields
    obtain ⟨next, four, yields⟩ := yields_local (by decide) (by decide) yields
    obtain ⟨entry, five, yields⟩ := yields_local (by decide) (by decide) yields
    obtain ⟨position, six, yields⟩ := yields_local (by decide) (by decide) yields
    obtain ⟨found, seven, yields⟩ := yields_local (by decide) (by decide) yields
    obtain ⟨length, eight, yields⟩ := yields_local (by decide) (by decide) yields
    obtain ⟨advanced, nine, yields⟩ := yields_local (by decide) (by decide) yields
    obtain ⟨same, rfl⟩ := yields_pure.mp yields
    cases same
    have slots : Slots before.localCount
        [list, pair, going, next, entry, position, found, length, advanced] :=
      ⟨one, two, three, four, five, six, seven, eight, nine, trivial⟩
    have starts : ∀ value, machine.read (locals.insert list value) (.name head) =
        .ok (.int (wordOfCount first)) := by
      intro value
      refine Machine.read_name ?_
      rw [Table.find?_insert_ne _ _ ((older_head _).ne one (Nat.le_refl _))]
      exact begins
    refine ⟨one.older (by rw [Draft.localCount_skip]; omega),
      Runs.append (runs_singleton ⟨one, two, trivial⟩ older known held starts) ?_⟩
    rintro begun changed ⟨fixes, keeps, listed, lists⟩
    refine Runs.assignOperand rfl (Runs.loop (greedy_loops slots meets subject range (last + 1)
      within (by omega) expected ⟨?_, keeps, Table.find?_insert_self _ _ _, store.size, ?_, lists⟩)
      fun _ _ reached => .nil reached)
    · exact fixes.insert three (by omega) _
    · rw [Table.find?_insert_ne _ _ (three.ne one (by omega))]
      exact listed
  | exhaustive =>
    unfold explore exploreAll at yields
    obtain ⟨queue, one, yields⟩ := yields_local (by decide) (by decide) yields
    obtain ⟨pair, two, yields⟩ := yields_local (by decide) (by decide) yields
    obtain ⟨index, three, yields⟩ := yields_local (by decide) (by decide) yields
    obtain ⟨going, four, yields⟩ := yields_local (by decide) (by decide) yields
    obtain ⟨length, five, yields⟩ := yields_local (by decide) (by decide) yields
    obtain ⟨more, six, yields⟩ := yields_local (by decide) (by decide) yields
    obtain ⟨item, seven, yields⟩ := yields_local (by decide) (by decide) yields
    obtain ⟨entry, eight, yields⟩ := yields_local (by decide) (by decide) yields
    obtain ⟨position, nine, yields⟩ := yields_local (by decide) (by decide) yields
    obtain ⟨found, ten, yields⟩ := yields_local (by decide) (by decide) yields
    obtain ⟨same, rfl⟩ := yields_pure.mp yields
    cases same
    have slots : Slots before.localCount
        [list, pair, index, going, length, more, item, entry, position, found] :=
      ⟨one, two, three, four, five, six, seven, eight, nine, ten, trivial⟩
    rw [exploreLevels_eq_queued] at expected ⊢
    have starts : ∀ value, machine.read (locals.insert list value) (.name head) =
        .ok (.int (wordOfCount first)) := by
      intro value
      refine Machine.read_name ?_
      rw [Table.find?_insert_ne _ _ ((older_head _).ne one (Nat.le_refl _))]
      exact begins
    refine ⟨one.older (by rw [Draft.localCount_skip]; omega),
      Runs.append (runs_singleton ⟨one, two, trivial⟩ older known held starts) ?_⟩
    rintro begun changed ⟨fixes, keeps, listed, lists⟩
    have fixed := (fixes.insert three (by omega) (.int 0)).insert four (by omega) (.bool true)
    have at_ : QueueAt before.localCount list index going locals store []
        ([content].map (·, first) ++ ([] : List Bindings).map (·, first + 1))
        ((begun.insert index (.int 0)).insert going (.bool true)) changed := by
      refine ⟨fixed, keeps, Table.find?_insert_self _ _ _, ?_, ?_, lists, ?_⟩
      · rw [Table.find?_insert_ne _ _ (four.ne one (by omega)),
          Table.find?_insert_ne _ _ (three.ne one (by omega))]
        exact listed
      · rw [Table.find?_insert_ne _ _ (four.ne three (by omega)), Table.find?_insert_self]
        rfl
      · change 1 ≤ mostCount
        decide
    refine Runs.assignOperand rfl (Runs.assignOperand rfl (Runs.loop (queue_loops slots meets subject
      range (last + 1) (by omega) [content] (fun _ => within) (fun some_ => absurd rfl some_)
      expected at_) ?_))
    intro after changed ended
    simp only [List.nil_append] at ended
    rw [Option.map_id'] at ended
    exact .nil ended

/-- An operation for every symbol of a list changes bindings in place. -/
theorem changeAll_runs {function : Primitive} {operation : Bindings → Symbol → Except Misuse Bindings}
    (applied : ∀ {store : Store} {place : Nat} {content : Bindings} (symbol : Symbol),
      store.cell? place = some (.bindings content) →
      function.apply store [.bindings place, .string symbol] =
        (Primitive.ofBindings (operation content symbol)).bind fun changed =>
          .ok (.setBindings place changed))
    {source : Symbol} {locals : Table Value} {place : Nat} {gives : Value → Store → Prop}
    (known : locals.find? source = some (.bindings place)) (symbols : List Symbol) :
    ∀ {store : Store} {content : Bindings}, store.cell? place = some (.bindings content) →
      judgement.Expects
        (symbols.foldlM (fun changed symbol => (operation changed symbol).toOption) content) →
      Runs judgement machine
        (symbols.map fun symbol => perform function [.name source, .string symbol]) locals store
        (fun after changed => after = locals ∧ Store.KeepsBut place store changed ∧
          ∃ result, symbols.foldlM (fun changed symbol => (operation changed symbol).toOption)
            content = some result ∧ changed.cell? place = some (.bindings result)) gives := by
  induction symbols with
  | nil =>
    intro store content held _
    exact .nil ⟨rfl, fun _ _ _ found => found, content, rfl, held⟩
  | cons symbol rest ih =>
    intro store content held expected
    rw [List.foldlM_cons] at expected ⊢
    refine Runs.changeBindings (Machine.readAll_two (Machine.read_name known) rfl)
      (applied symbol held) expected.of_bind ?_
    intro changed result
    have now : (store.setBindings place changed).cell? place = some (.bindings changed) := by
      rw [Store.cell?_setBindings _ held, if_pos rfl]
    refine (ih now (expected.bind_some result)).weaken ?_ fun _ _ given => given
    rintro after final ⟨same, kept, last, folded, there⟩
    refine ⟨same, (Store.keepsBut_setBindings held changed).trans kept, last, ?_, there⟩
    rw [result]
    exact folded

/-- The matcher of a repetition gives the states after its rounds. -/
theorem repeatBody_runs (closed : language.Closed) {inner : Pattern} {mode : RepeatMode}
    (placed : inner.isPlaced = true) {sequence : List Term}
    (counted : sequence.length ≤ mostCount)
    (each : ∀ term ∈ sequence, MatcherMeets judgement machine language draft ground inner term)
    (stops : MatcherStops judgement machine language draft inner) {body : List Statement}
    {fuel : Nat} {before after : Draft}
    (yields : Yields (bodyWith language (predicate language fuel) (.repeated inner mode)) before
      body after)
    (grows : after.Grows draft) {first last place : Nat} {bindings : Bindings} {store : Store}
    (within : first ≤ last) (bound : last ≤ sequence.length)
    (held : store.cell? place = some (.bindings bindings))
    (expected : judgement.Expects (repetition inner.boundSymbols mode (visit ground inner)
      (sequence.take last) (bindings, first))) :
    Runs judgement machine body (callLocals sequence first last place) store (fun _ _ => False)
      (GivesList store (repetition inner.boundSymbols mode (visit ground inner)
        (sequence.take last) (bindings, first))) := by
  unfold bodyWith repeatBody at yields
  obtain ⟨matcher, compiled, named, yields⟩ := yields_bind.mp yields
  obtain ⟨earlier, reserved⟩ := yields_compileWith closed (Pattern.isItem_of_isPlaced placed) named
  rw [← Draft.skip_zero compiled] at yields
  obtain ⟨start, one, yields⟩ := yields_local (by decide) (by decide) yields
  obtain ⟨⟨search, finished⟩, middle, explored, yields⟩ := yields_bind.mp yields
  rw [← Draft.skip_zero middle] at yields
  obtain ⟨out, two, yields⟩ := yields_local (by decide) (by decide) yields
  obtain ⟨entry, three, yields⟩ := yields_local (by decide) (by decide) yields
  obtain ⟨position, four, yields⟩ := yields_local (by decide) (by decide) yields
  obtain ⟨closedEntry, five, yields⟩ := yields_local (by decide) (by decide) yields
  obtain ⟨pair, six, yields⟩ := yields_local (by decide) (by decide) yields
  obtain ⟨rfl, rfl⟩ := yields_pure.mp yields
  have later := (steady_explore stable_never matcher start mode).grows _ _ _ explored
  have reserved := (later.trans ((middle.grows_skip 5).trans grows)).matchers _ _ reserved
  have meets := roundMeets reserved bound counted each stops
  unfold repetition at expected ⊢
  dsimp only at expected ⊢
  have copied := (Fixes.refl compiled.localCount (callLocals sequence first last place)).insert one
    (Nat.le_refl _) (.bindings store.size)
  have keeps := Store.keeps_addCell store (.bindings bindings)
  rw [List.append_assoc, List.cons_append]
  refine Runs.matchCopy (Machine.read_name (find?_env sequence first last place)) held ?_
  refine Runs.append (changeAll_runs Primitive.apply_matchIncreaseDepth (Table.find?_insert_self _ _ _) _
    (store.cell?_addCell_self _) expected.of_bind) ?_
  rintro _ changed ⟨rfl, kept, opened, opens, now⟩
  have wanted := expected.bind_some opens
  obtain ⟨listed, explores⟩ := explore_runs explored meets within
    (one.older (by rw [Draft.localCount_skip]; omega))
    ((copied _ (older_terms _)).trans (find?_terms ..)) ((copied _ (older_head _)).trans (find?_head ..))
    ((copied _ (older_tail _)).trans (find?_tail ..)) (Table.find?_insert_self _ _ _) now
    wanted.of_bind
  refine Runs.append explores ?_
  rintro reached final ⟨_, later, origin, states, known, found, lists⟩
  have wanted := wanted.bind_some found
  have stays := (keeps.trans_but store.cell?_size kept).trans later
  have opens : bindings.openAll inner.boundSymbols = some opened := opens
  rw [opens, Option.bind_some, found, Option.bind_some]
  refine Runs.newList ?_
  refine Runs.forPairs Display.entry (Older (middle.localCount + 1)) Display.paired_entry
    (four.ne three (by omega)) (three.not_older (Nat.le_refl _)) (four.not_older (by omega))
    ?_ (lists.keeps (Store.keeps_addCell final _)) (final.cell?_addCell_self _) 
    (fun _ _ => trivial) wanted ?_ ?_
  · rw [Table.find?_insert_ne _ _ (listed.ne two (Nat.le_refl _))]
    exact known
  · intro inner changed state identity left right _ agrees _ there fetched other shown expected
    obtain ⟨items, filled⟩ := there
    obtain ⟨_, origin, same, stored⟩ := shown
    cases same
    have named := (Fixes.refl (middle.localCount + 3) inner).insert five (Nat.le_refl _)
      (.bindings changed.size)
    have kept := Store.keeps_addCell changed (.bindings state.1)
    rw [List.cons_append]
    refine Runs.matchCopy (Machine.read_name fetched) stored ?_
    refine Runs.append (changeAll_runs Primitive.apply_matchDecreaseDepth
      (Table.find?_insert_self _ _ _) _ (changed.cell?_addCell_self _) expected.of_map) ?_
    rintro _ stopped ⟨rfl, but, closed, closes, now⟩
    have closes : state.1.closeAll _ = some closed := closes
    have stays := kept.trans_but changed.cell?_size but
    refine runs_appendPair six (two.older (by omega)) (Table.find?_insert_self _ _ _) now
      (Machine.read_name ((named position (four.older (by omega))).trans other))
      ((named out (two.older (by omega))).trans ((agrees out (two.older (by omega))).trans
        (Table.find?_insert_self _ _ _))) (stays _ _ filled) ?_
    intro after ended fixes appends
    refine ⟨(named.trans (fixes.mono (by omega))).mono (by omega), _, ?_,
      appends.keeps_left stays filled⟩
    rw [closes]
    rfl
  · intro after changed closes agrees gathered appends
    refine Runs.returns (Machine.read_name ((agrees out (two.older (by omega))).trans
      (Table.find?_insert_self _ _ _))) ?_
    exact (givesList_of_appends ⟨closes, gathered, appends⟩).keeps_left stays

end Whole

end Matcher

end Reduct
