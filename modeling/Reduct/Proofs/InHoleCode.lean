import Reduct.Proofs.Plugging
import Reduct.Proofs.RepetitionCode

/-!
# The code of contexts

For every subterm of a term that matches the contents, the term with a hole in its place is matched
against the context, and each match of the one is merged with each match of the other. The code
goes through the subterms and the matches in the order of the search.
-/

namespace Reduct

section Gather

variable {α β γ : Type}

/-- A search from renamed entries. -/
theorem gather_map_entries (search : β → Option (List γ)) (rename : α → β) (entries : List α) :
    gather search (entries.map rename) = gather (fun entry => search (rename entry)) entries := by
  induction entries with
  | nil => rfl
  | cons entry rest ih => rw [List.map_cons, gather, gather, ih]

/-- A search with renamed results. -/
theorem gather_map_found (search : α → Option (List β)) (rename : β → γ) (entries : List α) :
    gather (fun entry => (search entry).map (List.map rename)) entries =
      (gather search entries).map (List.map rename) := by
  induction entries with
  | nil => rfl
  | cons entry rest ih =>
    rw [gather, gather, ih]
    cases search entry with
    | none => rfl
    | some found =>
      cases gather search rest with
      | none => rfl
      | some others => simp

end Gather

namespace Term

/-- A step of a path can be counted. -/
theorem toIndex_integer {index : Nat} (small : index ≤ mostCount) :
    toIndex (.integer (wordOfCount index)) = .ok index := by
  change (if 0 ≤ wordOfCount index then Except.ok (wordOfCount index).toInt.toNat else _) = _
  rw [if_pos (wordOfCount_nonneg index), toInt_wordOfCount, Int.toNat_natCast, capped_eq small]

/-- A path is read back from its term if its steps can be counted. -/
theorem toPath_toTerm {path : Path} (small : ∀ index ∈ path, index ≤ mostCount) :
    (Path.toTerm path).toPath = .ok path := by
  change (path.map fun index => Term.integer (wordOfCount index)).mapM toIndex = .ok path
  induction path with
  | nil => rfl
  | cons index rest ih =>
    rw [List.map_cons, List.mapM_cons, toIndex_integer (small index List.mem_cons_self),
      ih fun other listed => small other (List.mem_cons_of_mem _ listed)]
    rfl

/-- The steps of a path in a proper term can be counted. -/
theorem Proper.steps_le {term : Term} (proper : term.Proper) {path : Path} {found : Term}
    (reached : term.subterm? path = some found) : ∀ index ∈ path, index ≤ mostCount := by
  induction path generalizing term with
  | nil => nofun
  | cons index rest ih =>
    obtain ⟨items, item, rfl, there, inside⟩ := subterm?_cons.mp reached
    cases proper with
    | sequence counted each =>
      intro step listed
      rcases List.mem_cons.mp listed with rfl | later
      · have below := (List.getElem?_eq_some_iff.mp there).1
        omega
      · exact ih (each item (List.mem_of_getElem? there)) inside step later

/-- The subterms of a proper term are proper. -/
theorem Proper.subterm {term : Term} (proper : term.Proper) {path : Path} {found : Term}
    (reached : term.subterm? path = some found) : found.Proper := by
  induction path generalizing term with
  | nil =>
    cases reached
    exact proper
  | cons index rest ih =>
    obtain ⟨items, item, rfl, there, inside⟩ := subterm?_cons.mp reached
    cases proper with
    | sequence counted each => exact ih (each item (List.mem_of_getElem? there)) inside

/-- A proper term stays proper if a proper term replaces a subterm. -/
theorem Proper.replace {term : Term} (proper : term.Proper) {path : Path}
    {replacement result : Term} (other : replacement.Proper)
    (replaced : term.replace? path replacement = some result) : result.Proper := by
  induction path generalizing term result with
  | nil =>
    cases replaced
    exact other
  | cons index rest ih =>
    obtain ⟨items, item, child, rfl, there, inside, rfl⟩ := replace?_cons.mp replaced
    cases proper with
    | sequence counted each =>
      refine .sequence (by rw [List.length_set]; exact counted) ?_
      intro member listed
      rcases List.mem_or_eq_of_mem_set listed with old | rfl
      · exact each member old
      · exact ih (each item (List.mem_of_getElem? there)) inside

end Term

section Primitives

variable {judgement : Judgement} {machine : Machine} {rest : List Statement}
  {locals : Table Value} {store : Store} {ends : Table Value → Store → Prop}
  {gives : Value → Store → Prop}

theorem Runs.wrapTerm {target : Symbol} {operand : Operand} {term : Term}
    (known : machine.read locals operand = .ok (.term term))
    (others : Runs judgement machine rest (locals.insert target (.term (.sequence [term]))) store
      ends gives) :
    Runs judgement machine (Statement.assignPrimitive target .wrapTerm [operand] :: rest) locals
      store ends gives :=
  Runs.keep (Machine.readAll_one known) rfl others

theorem forall₂_numberPairs (found : List (Path × Term)) :
    ∀ (first : Nat) (store : Store), List.Forall₂ (Display.subterm.shows store)
      (Store.numberPairs first
        (found.map fun pair => (Value.term pair.2, Value.term (Path.toTerm pair.1)))) found := by
  induction found with
  | nil => exact fun _ _ => .nil
  | cons pair rest ih => exact fun first store => .cons ⟨first, rfl⟩ (ih (first + 1) store)

/-- The subterms of a term with their paths, in a new list. -/
theorem Runs.subtermPaths {target : Symbol} {operand : Operand} {term : Term}
    (known : machine.read locals operand = .ok (.term term))
    (others : ∀ changed, store.Keeps changed →
      Display.subterm.Lists changed store.size term.subterms →
      Runs judgement machine rest (locals.insert target (.list store.size)) changed ends gives) :
    Runs judgement machine (Statement.assignPrimitive target .subtermPaths [operand] :: rest) locals
      store ends gives := by
  refine Runs.assignPrimitive (Machine.readAll_one known) ?_
  refine others _ (Store.keeps_addCell store _) ⟨_, store.cell?_addCell_self _, ?_⟩
  unfold Term.subtermPaths
  rw [List.map_map]
  exact forall₂_numberPairs term.subterms _ _

theorem Runs.replaceAtPath {target : Symbol} {whole position inserted : Operand}
    {term replacement result : Term} {path : Path}
    (known : machine.read locals whole = .ok (.term term))
    (at_ : machine.read locals position = .ok (.term (Path.toTerm path)))
    (given : machine.read locals inserted = .ok (.term replacement))
    (small : ∀ index ∈ path, index ≤ mostCount)
    (replaced : term.replace? path replacement = some result)
    (others : Runs judgement machine rest (locals.insert target (.term result)) store ends gives) :
    Runs judgement machine
      (Statement.assignPrimitive target .replaceAtPath [whole, position, inserted] :: rest) locals
      store ends gives := by
  refine Runs.keep (Machine.readAll_cons known (Machine.readAll_two at_ given)) ?_ others
  have applied : term.replaceAt (Path.toTerm path) replacement = .ok result := by
    simp only [Term.replaceAt, Term.toPath_toTerm small, bind, Except.bind, replaced]
  change (Primitive.ofTerm (term.replaceAt (Path.toTerm path) replacement)).bind _ = _
  rw [applied]
  rfl

end Primitives

namespace Matcher

open Draft Statement

/-- Matches of a context and of its contents are merged, and kept if all checks hold. -/
def mergeStep (checks : List Check) (bindings : Bindings) (position : Nat)
    (around within : Bindings) : Option (List Reached) :=
  (bindings.mergeBoth around within).map fun merged =>
    if merged.passes checks then [(merged, position)] else []

/-- The merged matches, with a new position. -/
theorem gather_mergeStep (checks : List Check) (bindings : Bindings) (position : Nat)
    (outer inner : List Bindings) :
    gather (fun around => gather (mergeStep checks bindings position around) inner) outer =
      (combine checks bindings outer inner).map (List.map (·, position)) := by
  unfold combine
  rw [← gather_map_found]
  refine congrArg (fun search => gather search outer) (funext fun around => ?_)
  rw [← gather_map_found]
  refine congrArg (fun search => gather search inner) (funext fun within => ?_)
  unfold mergeStep
  rw [Option.map_map]
  refine congrArg (fun change => Option.map change _) (funext fun merged => ?_)
  simp only [Function.comp_apply]
  split <;> rfl

section Merging

variable {judgement : Judgement} {machine : Machine} {checks : List Check}

/-- The checks decide whether merged bindings are appended. -/
theorem guardChecks_runs {merged next results pair : Symbol} {count : Nat} (slot : Slot pair count)
    (older : ∀ name ∈ [merged, next, results], Older count name) {content : Bindings}
    {reached source target : Nat} (checks : List Check) :
    ∀ {code : List Statement} {before after : Draft},
      Yields (guardChecks merged
        [assignPrimitive pair .makePair [.name merged, .name next],
          perform .listAppend [.name results, .name pair]] checks) before code after →
      count < before.localCount →
      ∀ {locals : Table Value} {store : Store} {items : Array Value},
        locals.find? merged = some (.bindings source) →
        store.cell? source = some (.bindings content) →
        locals.find? next = some (.int (wordOfCount reached)) →
        locals.find? results = some (.list target) →
        store.cell? target = some (.list items) →
        Appending judgement machine code count locals store target
          (some (if content.passes checks then [(content, reached)] else [])) := by
  induction checks with
  | nil =>
    intro code before after yields _ locals store items known held moved list there
    obtain ⟨rfl, rfl⟩ := yields_pure.mp yields
    refine runs_appendPair slot (older _ (by simp)) known held (Machine.read_name moved) list there ?_
    exact fun after changed fixes appends => ⟨fixes, _, rfl, appends⟩
  | cons test rest ih =>
    intro code before after yields above locals store items known held moved list there
    obtain ⟨inner, middle, compiled, yields⟩ := yields_bind.mp yields
    have grown := (steady_guardChecks stable_never _ _ _).grows _ _ _ compiled
    rw [← Draft.skip_zero middle] at yields
    obtain ⟨equal, fresh, yields⟩ := yields_local (by decide) (by decide) yields
    obtain ⟨rfl, rfl⟩ := yields_pure.mp yields
    have late : count ≤ middle.localCount + 0 := Nat.le_trans (Nat.le_of_lt above) grown.localCount
    have tested := (Fixes.refl count locals).insert fresh late
      (.bool (content.agree test.left test.right))
    have passes : content.passes (test :: rest) =
        (content.agree test.left test.right && content.passes rest) := rfl
    refine Runs.matchCompare (Machine.read_name known) held ?_
    refine Runs.whenTrue _ (Table.find?_insert_self _ _ _) ?_ ?_ fun _ _ reached => .nil reached
    · intro holds
      have both : content.passes (test :: rest) = content.passes rest := by
        rw [passes, holds, Bool.true_and]
      rw [both]
      refine (ih compiled above ((tested _ (older _ (by simp))).trans known) held
        ((tested _ (older _ (by simp))).trans moved) ((tested _ (older _ (by simp))).trans list)
        there).weaken ?_ fun _ _ => False.elim
      rintro after changed ⟨fixes, appended⟩
      exact ⟨tested.trans fixes, appended⟩
    · intro fails
      have neither : content.passes (test :: rest) = false := by
        rw [passes, fails, Bool.false_and]
      exact ⟨tested, [], by rw [neither]; rfl, .nil there (.refl store)⟩

/-- A match of the context and one of the contents are merged. -/
theorem merge_runs {merged next pair results around within : Symbol} {count : Nat}
    {accept : List Statement} {before after : Draft}
    (yields : Yields (guardChecks merged
      [assignPrimitive pair .makePair [.name merged, .name next],
        perform .listAppend [.name results, .name pair]] checks) before accept after)
    (slots : Slots count [merged, next, pair]) (above : count + 2 < before.localCount)
    (older : ∀ name ∈ [around, within, results], Older count name)
    {locals : Table Value} {store : Store} {place outer inner reached target : Nat}
    {bindings left right : Bindings} {items : Array Value}
    (source : locals.find? env = some (.bindings place))
    (held : store.cell? place = some (.bindings bindings))
    (first : locals.find? around = some (.bindings outer))
    (one : store.cell? outer = some (.bindings left))
    (second : locals.find? within = some (.bindings inner))
    (two : store.cell? inner = some (.bindings right))
    (moved : locals.find? next = some (.int (wordOfCount reached)))
    (list : locals.find? results = some (.list target))
    (there : store.cell? target = some (.list items))
    (expected : judgement.Expects (mergeStep checks bindings reached left right)) :
    Extending judgement machine
      ([assignPrimitive merged .matchCopy [.name env],
        perform .matchMerge [.name merged, .name around],
        perform .matchMerge [.name merged, .name within]] ++ accept)
      (OlderOr count next) locals store target (mergeStep checks bindings reached left right) := by
  obtain ⟨slot, later, last, _⟩ := slots
  have copied := (Agrees.refl (OlderOr count next) locals).insert
    (slot.not_olderOr (Nat.le_refl _) (slot.ne later (by omega))) (.bindings store.size)
  have fresh := store.cell?_addCell_self (.bindings bindings)
  have keeps := Store.keeps_addCell store (.bindings bindings)
  have wanted : judgement.Expects (bindings.mergeBoth left right) := expected.of_map
  refine Runs.matchCopy (Machine.read_name source) held ?_
  refine Runs.matchMerge (Machine.read_name (Table.find?_insert_self _ _ _)) fresh
    (Machine.read_name ((copied _ (.inl (older _ (by simp)))).trans first)) (keeps _ _ one)
    wanted.of_bind ?_
  intro half merges
  have but := keeps.trans_but store.cell?_size (Store.keepsBut_setBindings fresh half)
  have now : ((store.addCell (.bindings bindings)).setBindings store.size half).cell? store.size =
      some (.bindings half) := by
    rw [Store.cell?_setBindings _ fresh, if_pos rfl]
  refine Runs.matchMerge (Machine.read_name (Table.find?_insert_self _ _ _)) now
    (Machine.read_name ((copied _ (.inl (older _ (by simp)))).trans second)) (but _ _ two)
    (wanted.bind_some merges) ?_
  intro full completes
  have stays := but.trans_but store.cell?_size (Store.keepsBut_setBindings now full)
  have both : bindings.mergeBoth left right = some full := by
    rw [Bindings.mergeBoth, merges]
    exact completes
  have names : ∀ name ∈ [merged, next, results], Older (count + 2) name := by
    simp only [List.forall_mem_cons, List.not_mem_nil, false_implies, implies_true, and_true]
    exact ⟨slot.older (by omega), later.older (by omega), (older _ (by simp)).mono (by omega)⟩
  have final : (((store.addCell (.bindings bindings)).setBindings store.size half).setBindings
      store.size full).cell? store.size = some (.bindings full) := by
    rw [Store.cell?_setBindings _ now, if_pos rfl]
  refine (guardChecks_runs last names checks yields above (Table.find?_insert_self _ _ _) final
    ((copied _ (.inr rfl)).trans moved) ((copied _ (.inl (older _ (by simp)))).trans list)
    (stays _ _ there)).weaken ?_ fun _ _ => False.elim
  rintro after changed ⟨fixes, found, same, appends⟩
  refine ⟨copied.trans (fixes.olderOr (by omega) later (by omega)), found, ?_,
    appends.keeps_left stays there⟩
  rw [mergeStep, both]
  exact same

/-- Every match of the context is merged with every match of the contents, in order. -/
theorem mergeAll_runs {outer inner around aroundPosition within withinPosition merged next pair
      results : Symbol} {count : Nat} {accept : List Statement} {before after : Draft}
    (yields : Yields (guardChecks merged
      [assignPrimitive pair .makePair [.name merged, .name next],
        perform .listAppend [.name results, .name pair]] checks) before accept after)
    (slots : Slots count
      [around, aroundPosition, within, withinPosition, merged, next, pair])
    (above : count + 6 < before.localCount)
    (older : ∀ name ∈ [outer, inner, results], Older count name)
    {locals : Table Value} {store : Store} {place first second reached target : Nat}
    {bindings : Bindings} {lefts rights : List Bindings} {items : Array Value}
    (source : locals.find? env = some (.bindings place))
    (held : store.cell? place = some (.bindings bindings))
    (one : locals.find? outer = some (.list first))
    (contexts : Display.entry.Lists store first (lefts.map (·, 1)))
    (two : locals.find? inner = some (.list second))
    (contents : Display.entry.Lists store second (rights.map (·, 1)))
    (away : second ≠ target)
    (moved : locals.find? next = some (.int (wordOfCount reached)))
    (list : locals.find? results = some (.list target))
    (there : store.cell? target = some (.list items))
    (expected : judgement.Expects (combine checks bindings lefts rights)) :
    Extending judgement machine
      [.forEach [around, aroundPosition] outer
        [.forEach [within, withinPosition] inner
          ([assignPrimitive merged .matchCopy [.name env],
            perform .matchMerge [.name merged, .name around],
            perform .matchMerge [.name merged, .name within]] ++ accept)]]
      (OlderOr count next) locals store target
      ((combine checks bindings lefts rights).map (List.map (·, reached))) := by
  obtain ⟨slot1, slot2, slot3, slot4, slot5, slot6, slot7, _⟩ := slots
  have regrouped : gather (fun left : Reached => gather (fun right : Reached =>
      mergeStep checks bindings reached left.1 right.1) (rights.map (·, 1))) (lefts.map (·, 1)) =
      (combine checks bindings lefts rights).map (List.map (·, reached)) := by
    rw [← gather_mergeStep, gather_map_entries]
    refine congrArg (fun search => gather search lefts) (funext fun left => ?_)
    rw [gather_map_entries]
  rw [← regrouped]
  have wanted := expected.map (List.map fun found => (found, reached))
  rw [← regrouped] at wanted
  refine Runs.forPairs Display.entry (OlderOr count next) Display.paired_entry
    (slot2.ne slot1 (by omega)) (slot1.not_olderOr (Nat.le_refl _) (slot1.ne slot6 (by omega)))
    (slot2.not_olderOr (by omega) (slot2.ne slot6 (by omega))) one contexts there
    (fun _ _ => trivial) wanted ?_ fun after changed found agrees searched appends =>
      .nil ⟨agrees, found, searched, appends⟩
  intro outside changed left identity value _ _ agrees kept filled fetched _ shown expected
  obtain ⟨_, leftPlace, same, stored⟩ := shown
  cases same
  obtain ⟨items, now⟩ := filled
  have nested := contents.keepsBut kept there away
  refine Runs.forPairs Display.entry (OlderOr (count + 2) next) Display.paired_entry
    (slot4.ne slot3 (by omega)) (slot3.not_olderOr (Nat.le_refl _) (slot3.ne slot6 (by omega)))
    (slot4.not_olderOr (by omega) (slot4.ne slot6 (by omega)))
    ((agrees _ (.inl (older _ (by simp)))).trans two) nested now (fun _ _ => trivial) expected ?_
    fun after changed found agrees searched appends => .nil ⟨?_, found, searched, appends⟩
  · intro inside stopped right identity value _ _ holds stays full taken _ shown expected
    obtain ⟨_, rightPlace, same, present⟩ := shown
    cases same
    obtain ⟨items, last⟩ := full
    have bound := kept.bindings there
    have still := stays.bindings now
    have reads : ∀ name, Older count name → inside.find? name = locals.find? name := by
      intro name old
      rw [holds name (.inl (old.mono (by omega))), agrees name (.inl old)]
    have names : ∀ name ∈ [around, within, results], Older (count + 4) name := by
      simp only [List.forall_mem_cons, List.not_mem_nil, false_implies, implies_true, and_true]
      exact ⟨slot1.older (by omega), slot3.older (by omega), (older _ (by simp)).mono (by omega)⟩
    refine (merge_runs yields ⟨slot5, slot6, slot7, trivial⟩ (by omega) names
      ((reads _ (older_env _)).trans source) (still _ _ (bound _ _ held))
      ((holds _ (.inl (slot1.older (by omega)))).trans fetched) (still _ _ stored) taken present
      ((holds _ (.inr rfl)).trans ((agrees _ (.inr rfl)).trans moved))
      ((reads _ (older _ (by simp))).trans list) last expected).weaken ?_ fun _ _ => False.elim
    rintro after final ⟨later, appended⟩
    exact ⟨later.mono fun _ listed => listed.mono (by omega), appended⟩
  · exact agrees.mono fun _ listed => listed.mono (by omega)

end Merging

/-- The matches of a term that is taken apart at a path. -/
def takeApart (checks : List Check) (around within : Term → Option (List Bindings)) (term : Term)
    (bindings : Bindings) (found : Path × Term) : Option (List Bindings) :=
  (within found.2).bind fun inner =>
    if inner.isEmpty then some []
    else
      (term.replace? found.1 .hole).bind fun holed =>
        (around holed).bind fun outer => combine checks bindings outer inner

section Candidates

variable {judgement : Judgement} {machine : Machine} {language : Language} {draft : Draft}
  {ground : Ground} {checks : List Check} {context contents : Pattern} {subject : Term}

/-- The names of the code for one way to take a term apart. -/
structure ApartLocals where
  wrappedSubterm : Symbol
  innerEnv : Symbol
  inner : Symbol
  count : Symbol
  any : Symbol
  holed : Symbol
  wrappedContext : Symbol
  outerEnv : Symbol
  outer : Symbol
  around : Symbol
  aroundPosition : Symbol
  within : Symbol
  withinPosition : Symbol
  merged : Symbol
  next : Symbol
  pair : Symbol

/-- The names in the order of their numbers. -/
def ApartLocals.names (names : ApartLocals) : List Symbol :=
  [names.wrappedSubterm, names.innerEnv, names.inner, names.count, names.any, names.holed,
    names.wrappedContext, names.outerEnv, names.outer, names.around, names.aroundPosition,
    names.within, names.withinPosition, names.merged, names.next, names.pair]

/-- The code for one way to take a term apart. -/
def ApartLocals.code (names : ApartLocals) (contextMatcher contentsMatcher term subterm path hole :
    Symbol) (accept : List Statement) : List Statement :=
  [assignPrimitive names.wrappedSubterm .wrapTerm [.name subterm],
    assignPrimitive names.innerEnv .newMatch [],
    callOnWhole names.inner contentsMatcher names.wrappedSubterm names.innerEnv,
    assignPrimitive names.count .listLength [.name names.inner],
    assignBinary names.any .greater (.name names.count) (.int 0),
    whenTrue names.any
      [assignPrimitive names.holed .replaceAtPath [.name term, .name path, .name hole],
        assignPrimitive names.wrappedContext .wrapTerm [.name names.holed],
        assignPrimitive names.outerEnv .newMatch [],
        callOnWhole names.outer contextMatcher names.wrappedContext names.outerEnv,
        .forEach [names.around, names.aroundPosition] names.outer
          [.forEach [names.within, names.withinPosition] names.inner
            ([assignPrimitive names.merged .matchCopy [.name env],
              perform .matchMerge [.name names.merged, .name names.around],
              perform .matchMerge [.name names.merged, .name names.within]] ++ accept)]]]

/-- One way to take a term apart. -/
theorem takeApart_runs {names : ApartLocals} {contextMatcher contentsMatcher term subterm path hole
      results : Symbol} {count : Nat} {accept : List Statement} {before after : Draft}
    (yields : Yields (guardChecks names.merged
      [assignPrimitive names.pair .makePair [.name names.merged, .name names.next],
        perform .listAppend [.name results, .name names.pair]] checks) before accept after)
    (slots : Slots count names.names) (above : count + 15 < before.localCount)
    (older : ∀ name ∈ [term, subterm, path, results], Older count name)
    (reservedContext : lookupIn (language.name, context) draft.matchers = some contextMatcher)
    (reservedContents : lookupIn (language.name, contents) draft.matchers = some contentsMatcher)
    (around : ∀ steps holed, subject.replace? steps .hole = some holed →
      MatcherMeets judgement machine language draft ground context holed)
    (within : ∀ steps part, subject.subterm? steps = some part →
      MatcherMeets judgement machine language draft ground contents part)
    (proper : subject.Proper) {found : Path × Term}
    (reached : subject.subterm? found.1 = some found.2) {locals : Table Value} {store : Store}
    {place position target : Nat} {bindings : Bindings} {items : Array Value}
    (whole : locals.find? term = some (.term subject))
    (part : locals.find? subterm = some (.term found.2))
    (steps : locals.find? path = some (.term (Path.toTerm found.1)))
    (cut : ∀ after, Fixes count locals after → machine.read after (.name hole) = .ok (.term .hole))
    (source : locals.find? env = some (.bindings place))
    (held : store.cell? place = some (.bindings bindings))
    (moved : locals.find? names.next = some (.int (wordOfCount position)))
    (list : locals.find? results = some (.list target))
    (there : store.cell? target = some (.list items))
    (expected : judgement.Expects (takeApart checks (fun holed => visit ground context holed .empty)
      (fun part => visit ground contents part .empty) subject bindings found)) :
    Extending judgement machine
      (names.code contextMatcher contentsMatcher term subterm path hole accept)
      (OlderOr count names.next) locals store target
      ((takeApart checks (fun holed => visit ground context holed .empty)
        (fun part => visit ground contents part .empty) subject bindings found).map
          (List.map (·, position))) := by
  obtain ⟨slot1, slot2, slot3, slot4, slot5, slot6, slot7, slot8, slot9, slot10, slot11, slot12,
    slot13, slot14, slot15, slot16, _⟩ := slots
  have free : ∀ {name : Symbol} {number : Nat}, Slot name number → count ≤ number →
      number < count + 14 → ¬ OlderOr count names.next name := fun slot low high =>
    slot.not_olderOr low (slot.ne slot15 (by omega))
  have old : ∀ name ∈ [term, subterm, path, results], OlderOr count names.next name :=
    fun name listed => .inl (older name listed)
  refine Runs.wrapTerm (Machine.read_name part) (Runs.newMatch ?_)
  have begun := ((Agrees.refl (OlderOr count names.next) locals).insert
    (free slot1 (by omega) (by omega)) (.term (.sequence [found.2]))).insert
      (free slot2 (by omega) (by omega)) (.bindings store.size)
  have keeps := Store.keeps_addCell store (.bindings .empty)
  refine runs_callOnWhole (within found.1 found.2 reached) reservedContents ?_
    (Table.find?_insert_self _ _ _) (store.cell?_addCell_self _) expected.of_bind ?_
  · rw [Table.find?_insert_ne _ _ (slot2.ne slot1 (by omega)), Table.find?_insert_self]
  intro inside inner changed fresh visited kept lists
  have wanted := expected.bind_some visited
  have away : inside ≠ target := by
    rintro rfl
    rw [keeps _ _ there] at fresh
    cases fresh
  have apart : takeApart checks (fun holed => visit ground context holed .empty)
      (fun part => visit ground contents part .empty) subject bindings found =
      if inner.isEmpty then some []
      else (subject.replace? found.1 .hole).bind fun holed =>
        (visit ground context holed .empty).bind fun outer =>
          combine checks bindings outer inner := by
    rw [takeApart, visited, Option.bind_some]
  rw [apart]
  have stays := keeps.trans kept
  obtain ⟨values, filled, shown⟩ := lists
  have sized : values.size = inner.length := by
    rw [← Array.length_toList, shown.length_eq, List.length_map]
  refine Runs.listLength (Machine.read_name (Table.find?_insert_self _ _ _)) filled ?_
  refine Runs.assignBinary (Machine.read_name (Table.find?_insert_self _ _ _)) rfl
    (BinaryOp.apply_greater_zero _) ?_
  have counted := ((begun.insert (free slot3 (by omega) (by omega)) (.list inside)).insert
    (free slot4 (by omega) (by omega)) (.int (wordOfCount values.size))).insert
      (free slot5 (by omega) (by omega)) (.bool (decide (0 < values.size)))
  refine Runs.whenTrue _ (Table.find?_insert_self _ _ _) ?_ ?_ fun _ _ reached => .nil reached
  · intro some_
    have filledInner : ¬ inner.isEmpty = true := by
      intro empty
      rw [decide_eq_true_eq, sized, List.isEmpty_iff.mp empty] at some_
      exact Nat.lt_irrefl 0 some_
    rw [if_neg filledInner] at wanted ⊢
    obtain ⟨holed, replaced⟩ := (Term.exists_replace?_iff .hole).mpr ⟨found.2, reached⟩
    rw [replaced, Option.bind_some] at wanted ⊢
    refine Runs.replaceAtPath (Machine.read_name ((counted _ (old _ (by simp))).trans whole))
      (Machine.read_name ((counted _ (old _ (by simp))).trans steps))
      (cut _ fun name older => counted name (.inl older)) (proper.steps_le reached) replaced ?_
    refine Runs.wrapTerm (Machine.read_name (Table.find?_insert_self _ _ _)) (Runs.newMatch ?_)
    have cutOut := ((counted.insert (free slot6 (by omega) (by omega)) (.term holed)).insert
      (free slot7 (by omega) (by omega)) (.term (.sequence [holed]))).insert
        (free slot8 (by omega) (by omega)) (.bindings changed.size)
    have more := Store.keeps_addCell changed (.bindings .empty)
    refine runs_callOnWhole (around found.1 holed replaced) reservedContext ?_
      (Table.find?_insert_self _ _ _) (changed.cell?_addCell_self _) wanted.of_bind ?_
    · rw [Table.find?_insert_ne _ _ (slot8.ne slot7 (by omega)), Table.find?_insert_self]
    intro outside outer final _ matched last contexts
    have wanted := wanted.bind_some matched
    rw [matched, Option.bind_some]
    have ready := cutOut.insert (free slot9 (by omega) (by omega)) (.list outside)
    have all := stays.trans (more.trans last)
    have names : ∀ name ∈ [names.outer, names.inner, results], Older (count + 9) name := by
      simp only [List.forall_mem_cons, List.not_mem_nil, false_implies, implies_true, and_true]
      exact ⟨slot9.older (by omega), slot3.older (by omega), (older _ (by simp)).mono (by omega)⟩
    refine (mergeAll_runs yields
      ⟨slot10, slot11, slot12, slot13, slot14, slot15, slot16, trivial⟩ (by omega) names
      ((ready _ (.inl (older_env _))).trans source) (all _ _ held) (Table.find?_insert_self _ _ _)
      contexts ?_ (Display.Lists.keeps ⟨values, filled, shown⟩ (more.trans last)) away
      ((ready _ (.inr rfl)).trans moved) ((ready _ (old _ (by simp))).trans list) (all _ _ there)
      wanted).weaken ?_ fun _ _ => False.elim
    · rw [Table.find?_insert_ne _ _ (slot9.ne slot3 (by omega)),
        Table.find?_insert_ne _ _ (slot8.ne slot3 (by omega)),
        Table.find?_insert_ne _ _ (slot7.ne slot3 (by omega)),
        Table.find?_insert_ne _ _ (slot6.ne slot3 (by omega)),
        Table.find?_insert_ne _ _ (slot5.ne slot3 (by omega)),
        Table.find?_insert_ne _ _ (slot4.ne slot3 (by omega)), Table.find?_insert_self]
    · rintro after ended ⟨later, result, same, appends⟩
      exact ⟨ready.trans (later.mono fun _ listed => listed.mono (by omega)), result, same,
        appends.keeps_left all there⟩
  · intro none_
    have empty : inner.isEmpty = true := by
      cases inner with
      | nil => rfl
      | cons _ _ =>
        rw [decide_eq_false_iff_not, sized] at none_
        exact absurd (Nat.succ_pos _) none_
    rw [if_pos empty]
    exact ⟨counted, [], rfl, .nil there stays⟩

/-- The ways to take a term apart, with a new position. -/
theorem gather_takeApart (checks : List Check) (around within : Term → Option (List Bindings))
    (term : Term) (bindings : Bindings) (position : Nat) :
    gather (fun found => (takeApart checks around within term bindings found).map
      (List.map (·, position))) term.subterms =
      (decompose checks around within term bindings).map (List.map (·, position)) :=
  gather_map_found _ _ _

/-- The matcher of a context and its contents gives what is found at its term. -/
theorem inHoleBody_runs (closed : language.Closed) (carries : machine.Carries draft)
    (placedContext : context.isPlaced = true) (placedContents : contents.isPlaced = true)
    (around : ∀ steps holed, subject.replace? steps .hole = some holed →
      MatcherMeets judgement machine language draft ground context holed)
    (within : ∀ steps part, subject.subterm? steps = some part →
      MatcherMeets judgement machine language draft ground contents part)
    {body : List Statement} {fuel : Nat} {before after : Draft}
    (yields : Yields (bodyWith language (predicate language fuel) (.inHole context contents checks))
      before body after)
    (grows : after.Grows draft) (proper : subject.Proper) {sequence : List Term}
    {position last place : Nat} {bindings : Bindings} {store : Store} (small : last ≤ mostCount)
    (below : position < last) (there : sequence[position]? = some subject)
    (held : store.cell? place = some (.bindings bindings))
    (expected : judgement.Expects
      (visit ground (.inHole context contents checks) subject bindings)) :
    Runs judgement machine body (callLocals sequence position last place) store
      (fun _ _ => False)
      (GivesList store ((visit ground (.inHole context contents checks) subject bindings).map
        fun found => found.map (·, position + 1))) := by
  unfold bodyWith inHoleBody at yields
  obtain ⟨contextMatcher, first, compiled, yields⟩ := yields_bind.mp yields
  obtain ⟨contentsMatcher, second, also, yields⟩ := yields_bind.mp yields
  obtain ⟨hole, third, constant, yields⟩ := yields_bind.mp yields
  rw [← Draft.skip_zero third] at yields
  obtain ⟨results, slot0, yields⟩ := yields_local (by decide) (by decide) yields
  obtain ⟨inRange, slot1, yields⟩ := yields_local (by decide) (by decide) yields
  obtain ⟨term, slot2, yields⟩ := yields_local (by decide) (by decide) yields
  obtain ⟨candidates, slot3, yields⟩ := yields_local (by decide) (by decide) yields
  obtain ⟨subterm, slot4, yields⟩ := yields_local (by decide) (by decide) yields
  obtain ⟨path, slot5, yields⟩ := yields_local (by decide) (by decide) yields
  obtain ⟨wrappedSubterm, slot6, yields⟩ := yields_local (by decide) (by decide) yields
  obtain ⟨innerEnv, slot7, yields⟩ := yields_local (by decide) (by decide) yields
  obtain ⟨inner, slot8, yields⟩ := yields_local (by decide) (by decide) yields
  obtain ⟨count, slot9, yields⟩ := yields_local (by decide) (by decide) yields
  obtain ⟨any, slot10, yields⟩ := yields_local (by decide) (by decide) yields
  obtain ⟨holed, slot11, yields⟩ := yields_local (by decide) (by decide) yields
  obtain ⟨wrappedContext, slot12, yields⟩ := yields_local (by decide) (by decide) yields
  obtain ⟨outerEnv, slot13, yields⟩ := yields_local (by decide) (by decide) yields
  obtain ⟨outer, slot14, yields⟩ := yields_local (by decide) (by decide) yields
  obtain ⟨contextEntry, slot15, yields⟩ := yields_local (by decide) (by decide) yields
  obtain ⟨contextPosition, slot16, yields⟩ := yields_local (by decide) (by decide) yields
  obtain ⟨contentsEntry, slot17, yields⟩ := yields_local (by decide) (by decide) yields
  obtain ⟨contentsPosition, slot18, yields⟩ := yields_local (by decide) (by decide) yields
  obtain ⟨merged, slot19, yields⟩ := yields_local (by decide) (by decide) yields
  obtain ⟨next, slot20, yields⟩ := yields_local (by decide) (by decide) yields
  obtain ⟨pair, slot21, yields⟩ := yields_local (by decide) (by decide) yields
  obtain ⟨accept, fourth, guarded, yields⟩ := yields_bind.mp yields
  obtain ⟨rfl, rfl⟩ := yields_pure.mp yields
  obtain ⟨grows1, reservedContext⟩ :=
    yields_compileWith closed (Pattern.isItem_of_isPlaced placedContext) compiled
  obtain ⟨grows2, reservedContents⟩ :=
    yields_compileWith closed (Pattern.isItem_of_isPlaced placedContents) also
  obtain ⟨grows3, named⟩ := yields_constant constant
  have grows4 := (third.grows_skip 22).trans
    (((steady_guardChecks stable_never _ _ _).grows _ _ _ guarded).trans grows)
  have reservedContext := (grows2.trans (grows3.trans grows4)).matchers _ _ reservedContext
  have reservedContents := (grows3.trans grows4).matchers _ _ reservedContents
  have slots : Slots third.localCount [results, inRange] := ⟨slot0, slot1, trivial⟩
  have room : position < mostCount := by omega
  rw [visit_inHole] at expected ⊢
  refine guardedBody_runs slots ?_ ?_
  · intro _ locals fixes list
    have known := (fixes terms (older_terms _)).trans (find?_terms sequence position last place)
    have start := (fixes head (older_head _)).trans (find?_head sequence position last place)
    have source := (fixes env (older_env _)).trans (find?_env sequence position last place)
    refine Runs.sequenceGet (Nat.le_of_lt room) (Machine.read_name known)
      (Machine.read_name start) there ?_
    have fetched := (Fixes.refl (third.localCount + 2) locals).insert slot2 (Nat.le_refl _)
      (.term subject)
    refine Runs.assignBinary (Machine.read_name ((fetched head (older_head _)).trans start)) rfl
      (BinaryOp.apply_add_one room) ?_
    have moved := fetched.insert slot20 (by omega) (.int (wordOfCount (position + 1)))
    have whole : ((locals.insert term (.term subject)).insert next
        (.int (wordOfCount (position + 1)))).find? term = some (.term subject) := by
      rw [Table.find?_insert_ne _ _ (slot20.ne slot2 (by omega)), Table.find?_insert_self]
    refine Runs.subtermPaths (Machine.read_name whole) ?_
    intro changed keeps lists
    have ready := moved.insert slot3 (by omega) (.list (store.addCell (.list #[])).size)
    have wanted := expected.map (List.map fun found => (found, position + 1))
    rw [← gather_takeApart] at wanted
    refine Runs.forPairs Display.entry (OlderOr (third.localCount + 4) next) Display.paired_subterm
      (slot5.ne slot4 (by omega)) (slot4.not_olderOr (Nat.le_refl _) (slot4.ne slot20 (by omega)))
      (slot5.not_olderOr (by omega) (slot5.ne slot20 (by omega))) (Table.find?_insert_self _ _ _)
      lists (keeps _ _ (store.cell?_addCell_self _)) (fun found listed => Term.mem_subterms.mp listed)
      wanted ?_ ?_
    · intro inside stopped found identity left right reached agrees but filled one two shown expected
      obtain ⟨items, now⟩ := filled
      obtain ⟨_, same⟩ := shown
      cases same
      have reads : Fixes (third.localCount + 2) locals inside := by
        intro name old
        rw [agrees name (.inl (old.mono (by omega))), ready name old]
      have cut : ∀ after, Fixes (third.localCount + 6) inside after →
          machine.read after (.name hole) = .ok (.term .hole) := by
        intro after still
        have unhidden := (((unhidden_callLocals sequence position last place).fixes fixes).fixes
          reads).fixes still
        exact carries.read unhidden (named.grows grows4)
      have fixed := (keeps _ _ (Store.keeps_addCell store _ _ _ held))
      have older : ∀ name ∈ [term, subterm, path, results], Older (third.localCount + 6) name := by
        simp only [List.forall_mem_cons, List.not_mem_nil, false_implies, implies_true, and_true]
        exact ⟨slot2.older (by omega), slot4.older (by omega), slot5.older (by omega),
          slot0.older (by omega)⟩
      have advanced : inside.find? next = some (.int (wordOfCount (position + 1))) := by
        rw [agrees next (.inr rfl), Table.find?_insert_ne _ _ (slot3.ne slot20 (by omega)),
          Table.find?_insert_self]
      have subjected : inside.find? term = some (.term subject) := by
        rw [agrees term (.inl (slot2.older (by omega))),
          Table.find?_insert_ne _ _ (slot3.ne slot2 (by omega))]
        exact whole
      have names : Slots (third.localCount + 6) (ApartLocals.names
          ⟨wrappedSubterm, innerEnv, inner, count, any, holed, wrappedContext, outerEnv, outer,
            contextEntry, contextPosition, contentsEntry, contentsPosition, merged, next, pair⟩) :=
        ⟨slot6, slot7, slot8, slot9, slot10, slot11, slot12, slot13, slot14, slot15, slot16,
          slot17, slot18, slot19, slot20, slot21, trivial⟩
      refine (takeApart_runs guarded names (by rw [Draft.localCount_skip]; omega) older
        reservedContext reservedContents around within proper reached subjected one two cut
        ((reads _ (older_env _)).trans source)
        (but.bindings (keeps _ _ (store.cell?_addCell_self _)) _ _ fixed) advanced
        ((reads _ (slot0.older (by omega))).trans list) now expected.of_map).weaken ?_
        fun _ _ => False.elim
      rintro after ended ⟨later, appended⟩
      exact ⟨later.mono fun _ listed => listed.mono (by omega), appended⟩
    · intro after final found agrees searched appends
      rw [gather_takeApart] at searched
      exact .nil ⟨ready.trans fun name old => agrees name (.inl (old.mono (by omega))), found,
        searched, appends.keeps_left keeps (store.cell?_addCell_self _)⟩
  · intro above
    rw [capped_eq small, capped_eq (Nat.le_of_lt room)] at above
    exact absurd below above

end Candidates

end Matcher

end Reduct
