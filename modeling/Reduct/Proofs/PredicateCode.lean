import Reduct.Proofs.InHoleCode
import Reduct.Proofs.RepetitionCode

/-!
# The code of predicates and of whole matches

A predicate tries the alternatives of its rule one by one and tells whether one of them finds
anything. A top-level matcher gives what its pattern finds at a whole term, without the fresh
names. A matcher of a pattern that takes one term finds nothing at the end of its range.
-/

namespace Reduct

/-- Whether the search with a pattern finds anything at a term. -/
def Ground.finds (ground : Ground) (pattern : Pattern) (term : Term) : Bool :=
  match visit ground pattern term .empty with
  | some (_ :: _) => true
  | _ => false

theorem Ground.finds_of_visit {ground : Ground} {pattern : Pattern} {term : Term}
    {found : List Bindings} (visited : visit ground pattern term .empty = some found) :
    ground.finds pattern term = !found.isEmpty := by
  unfold finds
  rw [visited]
  cases found <;> rfl

/-- Bindings without the symbols of a list. -/
def Bindings.eraseAll (symbols : List Symbol) (bindings : Bindings) : Bindings :=
  symbols.foldl Bindings.erase bindings

namespace Matcher

open Draft Statement

section Guarded

variable {language : Language} {predicate : Symbol → Drafting Symbol}

/-- The body of the matcher of a pattern that takes one term tests its range first. -/
theorem exists_guardedBody {pattern : Pattern} (placed : pattern.isPlaced = true)
    {body : List Statement} {before after : Draft}
    (yields : Yields (bodyWith language predicate pattern) before body after) :
    ∃ count results inRange inner, Slots count [results, inRange] ∧
      body = guardedBody results inRange inner := by
  have leaf : pattern.isLeaf = true → ∃ count results inRange inner,
      Slots count [results, inRange] ∧ body = guardedBody results inRange inner := by
    intro leafy
    rw [bodyWith_leaf language predicate leafy, leafBody, ← Draft.skip_zero before] at yields
    obtain ⟨results, first, yields⟩ := yields_local (by decide) (by decide) yields
    obtain ⟨inRange, second, yields⟩ := yields_local (by decide) (by decide) yields
    iterate 5 obtain ⟨_, _, _, yields⟩ := yields_bind.mp yields
    exact ⟨_, results, inRange, _, ⟨first, second, trivial⟩, (yields_pure.mp yields).1.symm⟩
  cases pattern with
  | literal value => exact leaf rfl
  | nonTerminal stem symbol => exact leaf rfl
  | builtIn kind symbol => exact leaf rfl
  | sequence items =>
    rw [bodyWith, sequenceBody, ← Draft.skip_zero before] at yields
    obtain ⟨results, first, yields⟩ := yields_local (by decide) (by decide) yields
    obtain ⟨inRange, second, yields⟩ := yields_local (by decide) (by decide) yields
    iterate 12 obtain ⟨_, _, _, yields⟩ := yields_bind.mp yields
    exact ⟨_, results, inRange, _, ⟨first, second, trivial⟩, (yields_pure.mp yields).1.symm⟩
  | inHole context contents checks =>
    rw [bodyWith, inHoleBody] at yields
    iterate 2 obtain ⟨_, _, _, yields⟩ := yields_bind.mp yields
    obtain ⟨_, third, _, yields⟩ := yields_bind.mp yields
    rw [← Draft.skip_zero third] at yields
    obtain ⟨results, first, yields⟩ := yields_local (by decide) (by decide) yields
    obtain ⟨inRange, second, yields⟩ := yields_local (by decide) (by decide) yields
    iterate 21 obtain ⟨_, _, _, yields⟩ := yields_bind.mp yields
    exact ⟨_, results, inRange, _, ⟨first, second, trivial⟩, (yields_pure.mp yields).1.symm⟩
  | repeated inner mode => cases placed
  | check test => cases placed
  | unresolved symbol => cases placed

end Guarded

section Calls

variable {judgement : Judgement} {machine : Machine} {language : Language} {draft : Draft}
  {ground : Ground} {subject : Term}

/-- A finished matcher of a pattern that takes one term finds nothing at the end of its range. -/
theorem matcherStops (carries : machine.Carries draft) {pattern : Pattern}
    (placed : pattern.isPlaced = true)
    (has : ∀ name, lookupIn (language.name, pattern) draft.matchers = some name →
      HasMatcher language draft pattern name) :
    MatcherStops judgement machine language draft pattern := by
  intro name reserved terms position place store _
  obtain ⟨_, _, _, _, yields, _, defined⟩ := has name reserved
  obtain ⟨_, _, _, _, slots, rfl⟩ := exists_guardedBody placed yields
  exact ⟨_, carries.functions _ _ _ defined, rfl,
    guardedBody_runs slots (fun below => absurd below (Nat.lt_irrefl _)) fun _ => rfl⟩

/-- The tests of alternatives return where the first alternative finds something, and come to
their end if none does. -/
theorem alternativeTests_runs (closed : language.Closed) {fuel : Nat}
    (alternatives : List Prepared)
    (placed : ∀ alternative ∈ alternatives, alternative.pattern.isPlaced = true)
    (meets : ∀ alternative ∈ alternatives,
      MatcherMeets judgement machine language draft ground alternative.pattern subject)
    (expected : ∀ alternative ∈ alternatives,
      judgement.Expects (visit ground alternative.pattern subject .empty)) :
    ∀ {tests : List Statement} {before after : Draft} {locals : Table Value} {store : Store}
      {place : Nat},
      Yields (alternativeTests (compileWith language (predicate language fuel)) env alternatives)
        before tests after →
      after.Grows draft → locals.find? terms = some (.term (.sequence [subject])) →
      locals.find? env = some (.bindings place) →
      store.cell? place = some (.bindings .empty) →
      Runs judgement machine tests locals store
        (fun _ changed => store.Keeps changed ∧
          (alternatives.any fun alternative => ground.finds alternative.pattern subject) = false)
        fun value changed => store.Keeps changed ∧
          value = .bool (alternatives.any fun alternative =>
            ground.finds alternative.pattern subject) := by
  induction alternatives with
  | nil =>
    intro tests before after locals store place yields grows known source held
    obtain ⟨rfl, rfl⟩ := yields_pure.mp yields
    exact .nil ⟨.refl store, rfl⟩
  | cons alternative rest ih =>
    intro tests before after locals store place yields grows known source held
    rw [List.forall_mem_cons] at placed meets expected
    rw [alternativeTests] at yields
    obtain ⟨matcher, middle, compiled, yields⟩ := yields_bind.mp yields
    rw [← Draft.skip_zero middle] at yields
    obtain ⟨results, slot0, yields⟩ := yields_local (by decide) (by decide) yields
    obtain ⟨count, slot1, yields⟩ := yields_local (by decide) (by decide) yields
    obtain ⟨found, slot2, yields⟩ := yields_local (by decide) (by decide) yields
    obtain ⟨others, final, tested, yields⟩ := yields_bind.mp yields
    obtain ⟨rfl, rfl⟩ := yields_pure.mp yields
    obtain ⟨_, reserved⟩ :=
      yields_compileWith closed (Pattern.isItem_of_isPlaced placed.1) compiled
    have later : (middle.skip 3).Grows final :=
      (steady_alternativeTests stable_never (fun other listed =>
        ⟨fun _ _ _ yields => (yields_compileWith closed
          (Pattern.isItem_of_isPlaced (placed.2 other listed)) yields).1, fun _ => False.elim⟩)
        env).grows _ _ _ tested
    have reserved := ((middle.grows_skip 3).trans (later.trans grows)).matchers _ _ reserved
    refine runs_callOnWhole meets.1 reserved known source held expected.1 ?_
    intro list reached changed _ visited keeps lists
    obtain ⟨items, filled, shown⟩ := lists
    have size : items.size = reached.length := by
      rw [← Array.length_toList, shown.length_eq, List.length_map]
    refine Runs.listLength (Machine.read_name (Table.find?_insert_self _ _ _)) filled ?_
    refine Runs.assignBinary (Machine.read_name (Table.find?_insert_self _ _ _)) rfl
      (BinaryOp.apply_greater_zero _) ?_
    have tells : decide (0 < items.size) = ground.finds alternative.pattern subject := by
      rw [Ground.finds_of_visit visited, size]
      cases reached <;> rfl
    rw [tells, List.any_cons]
    have moved := (((Fixes.refl middle.localCount locals).insert slot0 (Nat.le_refl _)
      (.list list)).insert slot1 (by omega) (.int (wordOfCount items.size))).insert slot2
        (by omega) (.bool (ground.finds alternative.pattern subject))
    refine Runs.whenTrue
      (fun after stopped => after = _ ∧ stopped = changed ∧
        ground.finds alternative.pattern subject = false)
      (Table.find?_insert_self _ _ _) ?_ (fun fails => ⟨rfl, rfl, fails⟩) ?_
    · intro holds
      rw [holds, Bool.true_or]
      exact Runs.returns rfl ⟨keeps, rfl⟩
    · rintro _ _ ⟨rfl, rfl, fails⟩
      rw [fails, Bool.false_or]
      rw [fails] at moved
      refine (ih placed.2 meets.2 expected.2 tested grows
        ((moved terms (older_terms _)).trans known) ((moved env (older_env _)).trans source)
        (keeps _ _ held)).weaken ?_ ?_
      · rintro _ _ ⟨kept, none⟩
        exact ⟨keeps.trans kept, none⟩
      · rintro _ _ ⟨kept, given⟩
        exact ⟨keeps.trans kept, given⟩

/-- A predicate tells whether some alternative of its rule finds anything. -/
theorem predicateBody_runs (closed : language.Closed) {alternatives : List Prepared}
    (placed : ∀ alternative ∈ alternatives, alternative.pattern.isPlaced = true)
    (meets : ∀ alternative ∈ alternatives,
      MatcherMeets judgement machine language draft ground alternative.pattern subject)
    (expected : ∀ alternative ∈ alternatives,
      judgement.Expects (visit ground alternative.pattern subject .empty))
    {fuel : Nat} {tests : List Statement} {before after : Draft}
    (yields : Yields (alternativeTests (compileWith language (predicate language fuel)) env
      alternatives) before tests after)
    (grows : after.Grows draft) (store : Store) :
    Runs judgement machine (predicateBody tests)
      (.ofList ([whole].zip [.term subject])) store (fun _ _ => False)
      fun value changed => value = .bool (alternatives.any fun alternative =>
        ground.finds alternative.pattern subject) ∧ store.Keeps changed := by
  have given : (Table.ofList ([whole].zip [Value.term subject])).find? whole =
      some (.term subject) := Table.find?_insert_self _ _ _
  simp only [predicateBody, List.cons_append, List.nil_append]
  refine Runs.wrapTerm (Machine.read_name given) (Runs.newMatch ?_)
  refine Runs.append ((alternativeTests_runs closed alternatives placed meets expected yields
    grows ?_ (Table.find?_insert_self _ _ _) (store.cell?_addCell_self _)).weaken
      (fun _ _ reached => reached) ?_) ?_
  · rw [Table.find?_insert_ne _ _ (by decide), Table.find?_insert_self]
  · rintro value changed ⟨kept, rfl⟩
    exact ⟨rfl, (store.keeps_addCell _).trans kept⟩
  · rintro locals changed ⟨kept, none⟩
    refine Runs.returns rfl ⟨?_, (store.keeps_addCell _).trans kept⟩
    rw [none]

theorem eraseAll_eq (symbols : List Symbol) (bindings : Bindings) :
    symbols.foldlM (fun content symbol =>
      (Except.ok (content.erase symbol) : Except Misuse Bindings).toOption) bindings =
      some (bindings.eraseAll symbols) :=
  List.foldlM_pure

/-- A search that gives one result for every entry maps. -/
theorem gather_some {α β : Type} (image : α → β) (entries : List α) :
    gather (fun entry => some [image entry]) entries = some (entries.map image) := by
  induction entries with
  | nil => rfl
  | cons entry rest ih =>
    rw [gather, ih]
    rfl

/-- A call gives a new list of the bindings that a search finds, and only adds to the store. -/
def GivesFound (store : Store) (search : Option (List Bindings)) (value : Value) (after : Store) :
    Prop :=
  ∃ place found, value = .list place ∧ store.cell? place = none ∧ search = some found ∧
    store.Keeps after ∧ Display.found.Lists after place found

/-- A top-level matcher gives what its pattern finds at the whole term, without the fresh
names. -/
theorem topBody_runs {pattern : Pattern} {synthetic : List Symbol}
    {inner results out entry position kept : Symbol} {count : Nat}
    (slots : Slots count [results, out, entry, position, kept])
    (meets : MatcherMeets judgement machine language draft ground pattern subject)
    (reserved : lookupIn (language.name, pattern) draft.matchers = some inner)
    (expected : judgement.Expects (visit ground pattern subject .empty)) (store : Store) :
    Runs judgement machine (topBody synthetic inner results out entry position kept)
      (.ofList ([whole].zip [.term subject])) store (fun _ _ => False)
      (GivesFound store ((visit ground pattern subject .empty).map fun found =>
        found.map (Bindings.eraseAll synthetic))) := by
  obtain ⟨slot0, slot1, slot2, slot3, slot4, _⟩ := slots
  have given : (Table.ofList ([whole].zip [Value.term subject])).find? whole =
      some (.term subject) := Table.find?_insert_self _ _ _
  have wrapped : (((Table.ofList ([whole].zip [Value.term subject])).insert terms
      (.term (.sequence [subject]))).insert env (.bindings store.size)).find? terms =
      some (.term (.sequence [subject])) := by
    rw [Table.find?_insert_ne _ _ (by decide), Table.find?_insert_self]
  refine Runs.wrapTerm (Machine.read_name given) (Runs.newMatch ?_)
  refine runs_callOnWhole meets reserved wrapped (Table.find?_insert_self _ _ _)
    (store.cell?_addCell_self _) expected ?_
  intro place found changed _ visited keeps lists
  refine Runs.newList ?_
  have listed : ∀ value, (((((Table.ofList ([whole].zip [Value.term subject])).insert terms
      (.term (.sequence [subject]))).insert env (.bindings store.size)).insert results
      (.list place)).insert out value).find? results = some (.list place) := by
    intro value
    rw [Table.find?_insert_ne _ _ (slot1.ne slot0 (by omega)), Table.find?_insert_self]
  have here := lists.keeps (changed.keeps_addCell (.list #[]))
  have wanted : judgement.Expects (gather (fun reached : Reached =>
      some [Bindings.eraseAll synthetic reached.1]) (found.map (·, 1))) :=
    .inr (by rw [gather_some]; rfl)
  refine Runs.forPairs Display.found (fun name => name = out) Display.paired_entry
    (slot3.ne slot2 (by omega)) (slot2.ne slot1 (by omega)) (slot3.ne slot1 (by omega))
    (listed _) here (changed.cell?_addCell_self _) (fun _ _ => trivial) wanted ?_ ?_
  · intro inside stopped reached identity left right _ agrees but filled one two shown _
    obtain ⟨items, now⟩ := filled
    obtain ⟨_, created, same, held⟩ := shown
    cases same
    have known : inside.find? out = some (.list changed.size) :=
      (agrees out rfl).trans (Table.find?_insert_self _ _ _)
    refine Runs.matchCopy (Machine.read_name one) held ?_
    have apart : kept ≠ out := slot4.ne slot1 (by omega)
    have fresh : stopped.cell? stopped.size = none := stopped.cell?_size
    refine Runs.append (changeAll_runs
      (fun symbol held => Primitive.apply_matchRemove symbol held)
      (Table.find?_insert_self _ _ _) synthetic (stopped.cell?_addCell_self _)
      (.inr (by rw [eraseAll_eq]; rfl))) ?_
    rintro after final ⟨rfl, others, result, folded, erased⟩
    rw [eraseAll_eq] at folded
    cases folded
    have keeps := (stopped.keeps_addCell (.bindings reached.1)).trans_but fresh others
    have there := keeps _ _ now
    have still : (inside.insert kept (.bindings stopped.size)).find? out =
        some (.list changed.size) := by
      rw [Table.find?_insert_ne _ _ apart, known]
    refine Runs.listAppend (Machine.read_name still) there
      (Machine.read_name (Table.find?_insert_self _ _ _)) fun _ => .nil ⟨?_, _, rfl, ?_⟩
    · exact Agrees.insert (.refl (fun name => name = out) inside) apart _
    · have shown : Display.found.shows final (.bindings stopped.size)
          (reached.1.eraseAll synthetic) := ⟨_, rfl, erased⟩
      exact (Display.appends_extendList there (List.Forall₂.cons shown .nil)).keeps_left keeps now
  · intro after final gathered agrees all appends
    rw [gather_some, List.map_map] at all
    cases all
    refine Runs.returns (Machine.read_name ((agrees out rfl).trans (Table.find?_insert_self _ _ _)))
      ⟨changed.size, _, rfl, ?_, by rw [visited]; rfl, ?_, ?_⟩
    · have before := (store.keeps_addCell (.bindings .empty)).trans keeps
      exact before.free changed.cell?_size
    · have before := (store.keeps_addCell (.bindings .empty)).trans
        (keeps.trans (changed.keeps_addCell (.list #[])))
      exact before.trans_but (((store.keeps_addCell _).trans keeps).free changed.cell?_size)
        appends.kept
    · exact (Display.lists_nil (changed.cell?_addCell_self _)).appends appends

end Calls

end Matcher

end Reduct
