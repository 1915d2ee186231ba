import Reduct.Proofs.CodeRules
import Reduct.Proofs.FinishedDrafts
import Reduct.Proofs.LocalNames

/-!
# What calls of compiled functions give

A predicate tells whether its non-terminal accepts a term. A matcher gives the list of what the
search by frontiers finds, in the same order. Both only add to the store. Here these properties
are stated, and the rule for loops that append what a search finds from every entry of a list.
-/

namespace Reduct

namespace Term

mutual

/-- What the written form of a term is read as: a variable named `hole` becomes the hole. -/
def reread : Term → Term
  | .atom (.symbol name) => if name = "hole" then .hole else .atom (.symbol name)
  | .sequence items => .sequence (rereadAll items)
  | term => term

/-- What the written forms of terms are read as. -/
def rereadAll : List Term → List Term
  | [] => []
  | term :: rest => term.reread :: rereadAll rest

end

theorem rereadAll_eq_map (terms : List Term) : rereadAll terms = terms.map reread := by
  induction terms with
  | nil => rfl
  | cons term rest ih => rw [rereadAll, ih, List.map_cons]

/-- A term that can be written and whose sequences can be counted. -/
inductive Proper : Term → Prop
  | atom {value : Atom} (named : value ≠ .symbol "hole") : Proper (.atom value)
  | hole : Proper .hole
  | sequence {items : List Term} (counted : items.length ≤ mostCount)
      (each : ∀ item ∈ items, Proper item) : Proper (.sequence items)

mutual

/-- The test of proper terms. -/
def isProper : Term → Bool
  | .atom value => decide (value ≠ .symbol "hole")
  | .hole => true
  | .sequence items => decide (items.length ≤ mostCount) && areProper items

/-- Whether all terms are proper. -/
def areProper : List Term → Bool
  | [] => true
  | term :: rest => term.isProper && areProper rest

end

theorem areProper_iff {terms : List Term} :
    areProper terms = true ↔ ∀ term ∈ terms, term.isProper = true := by
  induction terms with
  | nil => exact ⟨nofun, fun _ => rfl⟩
  | cons term rest ih => rw [areProper, Bool.and_eq_true, ih, List.forall_mem_cons]

theorem isProper_iff (term : Term) : term.isProper = true ↔ term.Proper := by
  induction term using Term.induction with
  | atom value =>
    rw [isProper, decide_eq_true_iff]
    exact ⟨.atom, fun | .atom named => named⟩
  | hole => exact ⟨fun _ => .hole, fun _ => rfl⟩
  | sequence items ih =>
    rw [isProper, Bool.and_eq_true, decide_eq_true_iff, areProper_iff]
    constructor
    · rintro ⟨counted, each⟩
      exact .sequence counted fun item among => (ih item among).mp (each item among)
    · rintro (_ | _ | ⟨counted, each⟩)
      exact ⟨counted, fun item among => (ih item among).mpr (each item among)⟩

instance (term : Term) : Decidable term.Proper :=
  decidable_of_iff _ term.isProper_iff

/-- A proper variable is in a list of variables as it is read exactly if it is in the list. -/
theorem Proper.mem_reread {name : Symbol} (proper : Proper (.symbol name)) (names : List Symbol) :
    Term.symbol name ∈ rereadAll (names.map Term.symbol) ↔ name ∈ names := by
  have named : name ≠ "hole" := by
    cases proper with
    | atom named =>
      intro same
      exact named (by rw [same])
  rw [rereadAll_eq_map, List.map_map]
  constructor
  · intro listed
    obtain ⟨other, there, same⟩ := List.mem_map.mp listed
    change (if other = "hole" then Term.hole else .atom (.symbol other)) = _ at same
    split at same
    · cases same
    · cases same
      exact there
  · intro listed
    refine List.mem_map.mpr ⟨name, listed, ?_⟩
    change (if name = "hole" then Term.hole else .atom (.symbol name)) = _
    rw [if_neg named]
    rfl

theorem reread_atom {value : Atom} (named : value ≠ .symbol "hole") :
    (Term.atom value).reread = .atom value := by
  cases value with
  | symbol name =>
    rw [reread, if_neg]
    intro same
    exact named (by rw [same])
  | _ => rw [reread] <;> nofun

end Term

/-- A machine has the functions of a draft, and its constants as they are read. -/
structure Machine.Carries (machine : Machine) (draft : Draft) : Prop where
  functions : ∀ name parameters body, .define name parameters body ∈ draft.functions →
    machine.functions.find? name = some ⟨parameters, body⟩
  constants : ∀ index term, draft.constants[index]? = some term →
    machine.globals.find? (Draft.constantName index) = some (.term term.reread)

namespace Matcher

open Draft

section Meets

variable (judgement : Judgement) (machine : Machine) (language : Language) (draft : Draft)
  (ground : Ground)

/-- A call gives a new list of entries that a search finds, and only adds to the store. -/
def GivesList (store : Store) (search : Option (List Reached)) (value : Value) (after : Store) :
    Prop :=
  ∃ place found, value = .list place ∧ store.cell? place = none ∧ search = some found ∧
    store.Keeps after ∧ Display.entry.Lists after place found

theorem GivesList.keeps_left {store changed after : Store} {search : Option (List Reached)}
    {value : Value} (gives : GivesList changed search value after) (keeps : store.Keeps changed) :
    GivesList store search value after := by
  obtain ⟨place, found, same, fresh, searched, kept, lists⟩ := gives
  exact ⟨place, found, same, keeps.free fresh, searched, keeps.trans kept, lists⟩

/-- The predicate of a non-terminal tells whether it accepts a term. -/
def PredicateMeets (stem : Symbol) (term : Term) : Prop :=
  ∀ name, lookupIn (language.name, stem) draft.predicates = some name → ∀ store,
    Calls judgement machine name [.term term] store fun value after =>
      value = .bool (ground.accepts stem term) ∧ store.Keeps after

/-- The arguments of a call of a matcher. -/
def callArguments (terms : List Term) (head tail place : Nat) : List Value :=
  [.term (.sequence terms), .int (wordOfCount head), .int (wordOfCount tail), .bindings place]

/-- The matcher of a pattern that takes one term gives what is found at that term. -/
def MatcherMeets (pattern : Pattern) (term : Term) : Prop :=
  ∀ name, lookupIn (language.name, pattern) draft.matchers = some name →
    ∀ terms head tail place bindings store, tail ≤ mostCount → head < tail →
      terms[head]? = some term → store.cell? place = some (.bindings bindings) →
      judgement.Expects (visit ground pattern term bindings) →
      Performs judgement machine name (callArguments terms head tail place) store
        (GivesList store
          ((visit ground pattern term bindings).map fun found => found.map (·, head + 1)))

/-- The matcher of a pattern that takes one term finds nothing at the end of its range. -/
def MatcherStops (pattern : Pattern) : Prop :=
  ∀ name, lookupIn (language.name, pattern) draft.matchers = some name →
    ∀ terms position place store, position ≤ mostCount →
      Performs judgement machine name (callArguments terms position position place) store
        (GivesList store (some []))

/-- The matcher of a repetition gives the states after its rounds. -/
def RepeatMeets (inner : Pattern) (mode : RepeatMode) (terms : List Term) : Prop :=
  ∀ name, lookupIn (language.name, .repeated inner mode) draft.matchers = some name →
    ∀ head tail place bindings store, head ≤ tail → tail ≤ terms.length →
      store.cell? place = some (.bindings bindings) →
      judgement.Expects (repetition inner.boundSymbols mode (visit ground inner)
        (terms.take tail) (bindings, head)) →
      Performs judgement machine name (callArguments terms head tail place) store
        (GivesList store (repetition inner.boundSymbols mode (visit ground inner)
          (terms.take tail) (bindings, head)))

end Meets

end Matcher

section Gathering

variable {judgement : Judgement} {machine : Machine} {gives : Value → Store → Prop}
  {α β : Type} {source : Display α} {target : Display β} {search : α → Option (List β)}

theorem Judgement.Expects.of_bind {γ δ : Type} {first : Option γ} {next : γ → Option δ}
    (expected : judgement.Expects (first.bind next)) : judgement.Expects first := by
  refine expected.imp_right ?_
  intro present
  cases first with
  | none => cases present
  | some _ => rfl

theorem Judgement.Expects.bind_some {γ δ : Type} {first : Option γ} {next : γ → Option δ}
    (expected : judgement.Expects (first.bind next)) {value : γ} (found : first = some value) :
    judgement.Expects (next value) := by
  rw [found] at expected
  exact expected

theorem Judgement.Expects.of_map {γ δ : Type} {first : Option γ} {next : γ → δ}
    (expected : judgement.Expects (first.map next)) : judgement.Expects first := by
  refine expected.imp_right ?_
  intro present
  cases first with
  | none => cases present
  | some _ => rfl

theorem Judgement.Expects.map {γ δ : Type} {first : Option γ} (expected : judgement.Expects first)
    (next : γ → δ) : judgement.Expects (first.map next) := by
  refine expected.imp_right ?_
  intro present
  rw [Option.isSome_map]
  exact present

/-- A loop whose rounds append what a search finds appends all that it finds, in order. -/
theorem Loops.gather {targets : List Symbol} {body : List Statement} {place : Nat}
    {invariant : Table Value → Store → Prop} {good : α → Prop}
    (round : ∀ locals store value entry, good entry → invariant locals store →
      source.shows store value entry → (∃ items, store.cell? place = some (.list items)) →
      judgement.Expects (search entry) →
      ∃ bound, Machine.bindTargets locals targets value = .ok bound ∧
        Runs judgement machine body bound store
          (fun after changed => invariant after changed ∧ ∃ found, search entry = some found ∧
            target.Appends place store changed found) gives)
    (entries : List α) (fine : ∀ entry ∈ entries, good entry) :
    ∀ values locals store, List.Forall₂ (source.shows store) values entries →
      invariant locals store → (∃ items, store.cell? place = some (.list items)) →
      judgement.Expects (gather search entries) →
      Loops judgement machine (.each targets values body) locals store
        (fun after changed => invariant after changed ∧ ∃ found,
          Reduct.gather search entries = some found ∧ target.Appends place store changed found)
        gives := by
  induction entries with
  | nil =>
    intro values locals store shown holds list expected
    cases shown
    obtain ⟨items, held⟩ := list
    exact .eachNil ⟨holds, [], rfl, .nil held (.refl store)⟩
  | cons entry rest ih =>
    intro values locals store shown holds list expected
    cases shown with
    | cons first others =>
      obtain ⟨bound, taken, runs⟩ :=
        round locals store _ entry (fine entry List.mem_cons_self) holds first list
          expected.of_bind
      refine .eachCons taken runs ?_
      rintro after changed ⟨still, found, here, appends⟩
      have later : judgement.Expects (Reduct.gather search rest) :=
        (expected.bind_some here).of_map
      obtain ⟨items, news, _, reached, _⟩ := appends.grown
      have loops := ih (fun other listed => fine other (List.mem_cons_of_mem _ listed)) _ after
        changed (Display.forall₂_stable appends.bindings others) still
        ⟨_, reached⟩ later
      refine loops.weaken ?_ fun _ _ given => given
      rintro last final ⟨kept, more, there, appended⟩
      refine ⟨kept, found ++ more, ?_, appends.trans appended⟩
      exact gather_cons_eq_some.mpr ⟨found, more, here, there, rfl⟩

variable (target) in
/-- A loop over pairs appends what a search finds from each of them, in order. -/
theorem Runs.forPairs {left right iterable : Symbol} {body rest : List Statement}
    {locals : Table Value} {store : Store} {place origin : Nat} {items : Array Value}
    {entries : List α} {good : α → Prop} {ends : Table Value → Store → Prop}
    (kept : Symbol → Prop) (paired : source.Paired) (apart : right ≠ left) (one : ¬ kept left)
    (two : ¬ kept right) (known : locals.find? iterable = some (.list origin))
    (lists : source.Lists store origin entries) (held : store.cell? place = some (.list items))
    (fine : ∀ entry ∈ entries, good entry)
    (expected : judgement.Expects (Reduct.gather search entries))
    (round : ∀ inner changed entry identity first second, good entry →
      Agrees kept locals inner → Store.KeepsBut place store changed →
      (∃ items, changed.cell? place = some (.list items)) →
      inner.find? left = some first → inner.find? right = some second →
      source.shows changed (.pair identity first second) entry →
      judgement.Expects (search entry) →
      Runs judgement machine body inner changed
        (fun after final => Agrees kept inner after ∧ ∃ found, search entry = some found ∧
          target.Appends place changed final found) gives)
    (others : ∀ after changed found, Agrees kept locals after →
      Reduct.gather search entries = some found → target.Appends place store changed found →
      Runs judgement machine rest after changed ends gives) :
    Runs judgement machine (.forEach [left, right] iterable body :: rest) locals store ends
      gives := by
  obtain ⟨values, there, shown⟩ := lists
  have loops : Loops judgement machine (.each [left, right] values.toList body) locals store
      (fun after changed => (Agrees kept locals after ∧ Store.KeepsBut place store changed) ∧
        ∃ found, Reduct.gather search entries = some found ∧
          target.Appends place store changed found) gives := by
    refine Loops.gather ?_ entries fine _ locals store shown
      ⟨fun _ _ => rfl, fun _ _ _ found => found⟩ ⟨items, held⟩ expected
    rintro inner changed value entry suited ⟨agrees, keeps⟩ shows list wanted
    obtain ⟨identity, first, second, rfl⟩ := paired shows
    refine ⟨(inner.insert left first).insert right second, rfl, ?_⟩
    have bound := (agrees.insert one first).insert two second
    have fetched : ((inner.insert left first).insert right second).find? left = some first := by
      rw [Table.find?_insert_ne _ _ apart, Table.find?_insert_self]
    refine (round _ changed entry identity first second suited bound keeps list fetched
      (Table.find?_insert_self _ _ _) shows wanted).weaken ?_ fun _ _ given => given
    rintro after final ⟨last, found, searched, appends⟩
    exact ⟨⟨bound.trans last, keeps.trans appends.kept⟩, found, searched, appends⟩
  refine Runs.forEach known there loops ?_
  rintro after changed ⟨⟨agrees, _⟩, found, searched, appends⟩
  exact others after changed found agrees searched appends

end Gathering

/-- No variable hides a constant. -/
def Unhidden (locals : Table Value) : Prop :=
  ∀ index, locals.find? (Draft.constantName index) = none

theorem Unhidden.fixes {locals after : Table Value} (unhidden : Unhidden locals) {count : Nat}
    (fixes : Fixes count locals after) : Unhidden after :=
  fun index => (fixes _ (older_constantName index count)).trans (unhidden index)

theorem unhidden_empty : Unhidden .empty := fun _ => rfl

/-- A name that does not end in a digit hides no constant. -/
theorem Unhidden.insert {locals : Table Value} (unhidden : Unhidden locals) {name : Symbol}
    (plain : EndsPlain name.toList) (value : Value) : Unhidden (locals.insert name value) := by
  intro index
  rw [Table.find?_insert_ne, unhidden index]
  rintro rfl
  exact not_endsPlain_append_toString "lit" index plain

/-- A constant is read as its term is read. -/
theorem Machine.Carries.read {machine : Machine} {draft : Draft} (carries : machine.Carries draft)
    {locals : Table Value} (unhidden : Unhidden locals) {name : Symbol} {term : Term}
    (names : draft.Names name term) :
    machine.read locals (.name name) = .ok (.term term.reread) := by
  obtain ⟨index, rfl, held⟩ := names
  exact Machine.read_global (unhidden index) (carries.constants index term held)

namespace Matcher

open Draft Statement

/-- The first variables of a call of a matcher. -/
def callLocals (terms : List Term) (head tail place : Nat) : Table Value :=
  .ofList (parameters.zip (callArguments terms head tail place))

section Arguments

variable (sequence : List Term) (first last place : Nat)

theorem callLocals_eq : callLocals sequence first last place =
    (((Table.empty.insert terms (.term (.sequence sequence))).insert head
      (.int (wordOfCount first))).insert tail (.int (wordOfCount last))).insert env
        (.bindings place) :=
  rfl

theorem find?_terms :
    (callLocals sequence first last place).find? terms = some (.term (.sequence sequence)) := by
  rw [callLocals_eq, Table.find?_insert_ne _ _ (by decide), Table.find?_insert_ne _ _ (by decide),
    Table.find?_insert_ne _ _ (by decide), Table.find?_insert_self]

theorem find?_head :
    (callLocals sequence first last place).find? head = some (.int (wordOfCount first)) := by
  rw [callLocals_eq, Table.find?_insert_ne _ _ (by decide), Table.find?_insert_ne _ _ (by decide),
    Table.find?_insert_self]

theorem find?_tail :
    (callLocals sequence first last place).find? tail = some (.int (wordOfCount last)) := by
  rw [callLocals_eq, Table.find?_insert_ne _ _ (by decide), Table.find?_insert_self]

theorem find?_env :
    (callLocals sequence first last place).find? env = some (.bindings place) := by
  rw [callLocals_eq, Table.find?_insert_self]

theorem unhidden_callLocals : Unhidden (callLocals sequence first last place) := by
  rw [callLocals_eq]
  exact (((unhidden_empty.insert (by decide) _).insert (by decide) _).insert (by decide) _).insert
    (by decide) _

end Arguments

theorem older_terms (count : Nat) : Older count terms := older_of_endsPlain (by decide) count

theorem older_head (count : Nat) : Older count head := older_of_endsPlain (by decide) count

theorem older_tail (count : Nat) : Older count tail := older_of_endsPlain (by decide) count

theorem older_env (count : Nat) : Older count env := older_of_endsPlain (by decide) count

/-- The body of a matcher that does nothing at the end of its range. -/
def guardedBody (results inRange : Symbol) (inner : List Statement) : List Statement :=
  [assignPrimitive results .newList [],
    assignBinary inRange .less (.name head) (.name tail),
    whenTrue inRange inner,
    .returns (.name results)]

section Guarded

variable {judgement : Judgement} {machine : Machine} {results inRange : Symbol}
  {inner : List Statement} {count : Nat} {store : Store}

/-- What was appended to a list of its own is what a matcher gives. -/
theorem givesList_of_appends {changed : Store} {search : Option (List Reached)}
    (appended : ∃ found, search = some found ∧
      Display.entry.Appends store.size (store.addCell (.list #[])) changed found) :
    GivesList store search (.list store.size) changed := by
  obtain ⟨found, searched, appends⟩ := appended
  refine ⟨store.size, found, rfl, store.cell?_size, searched, ?_, ?_⟩
  · exact (Store.keeps_addCell store _).trans_but store.cell?_size appends.kept
  · exact (Display.lists_nil (store.cell?_addCell_self _)).appends appends

/-- A pair of bindings and a position is appended to a list. -/
theorem runs_appendPair {locals : Table Value} {ends : Table Value → Store → Prop}
    {gives : Value → Store → Prop} {pair entry list : Symbol} {position : Operand}
    {number created reached : Nat} {target : Nat} {content : Bindings} {items : Array Value}
    (slot : Slot pair number) (older : Older number list)
    (made : locals.find? entry = some (.bindings created))
    (held : store.cell? created = some (.bindings content))
    (known : machine.read locals position = .ok (.int (wordOfCount reached)))
    (listed : locals.find? list = some (.list target))
    (there : store.cell? target = some (.list items))
    (ending : ∀ after changed, Fixes number locals after →
      Display.entry.Appends target store changed [(content, reached)] → ends after changed) :
    Runs judgement machine
      [assignPrimitive pair .makePair [.name entry, position],
        perform .listAppend [.name list, .name pair]] locals store ends gives := by
  have paired := (Fixes.refl number locals).insert slot (Nat.le_refl _)
    (.pair store.pairCount (.bindings created) (.int (wordOfCount reached)))
  refine Runs.makePair (Machine.read_name made) known ?_
  refine Runs.listAppend (Machine.read_name ((paired list older).trans listed)) there
    (Machine.read_name (Table.find?_insert_self _ _ _)) fun _ => ?_
  have shown : Display.entry.shows store.addPair
      (.pair store.pairCount (.bindings created) (.int (wordOfCount reached))) (content, reached) :=
    ⟨_, created, rfl, held⟩
  have grown : store.addPair.cell? target = some (.list items) := there
  have appends := Display.appends_extendList grown (List.Forall₂.cons shown .nil)
  exact .nil (ending _ _ paired (appends.keeps_left (Store.keeps_addPair store) there))

/-- A new list gets one entry. -/
theorem runs_singleton {locals : Table Value} {gives : Value → Store → Prop}
    {list pair entry : Symbol} {position : Operand} {number created reached : Nat}
    {content : Bindings} (slots : Slots number [list, pair]) (older : Older number entry)
    (made : locals.find? entry = some (.bindings created))
    (held : store.cell? created = some (.bindings content))
    (known : ∀ value, machine.read (locals.insert list value) position =
      .ok (.int (wordOfCount reached))) :
    Runs judgement machine
      [assignPrimitive list .newList [], assignPrimitive pair .makePair [.name entry, position],
        perform .listAppend [.name list, .name pair]] locals store
      (fun after changed => Fixes number locals after ∧ store.Keeps changed ∧
        after.find? list = some (.list store.size) ∧
        Display.entry.Lists changed store.size [(content, reached)]) gives := by
  have fixed := (Fixes.refl number locals).insert slots.1 (Nat.le_refl _) (.list store.size)
  have keeps := Store.keeps_addCell store (.list #[])
  have own := store.cell?_addCell_self (.list #[])
  refine Runs.newList (runs_appendPair slots.2.1 (slots.1.older (by omega))
    ((fixed entry older).trans made) (keeps _ _ held) (known _) (Table.find?_insert_self _ _ _) own
    ?_)
  intro after changed later appends
  exact ⟨fixed.trans (later.mono (Nat.le_succ _)),
    keeps.trans_but store.cell?_size appends.kept,
    (later list (slots.1.older (by omega))).trans (Table.find?_insert_self _ _ _),
    (Display.lists_nil own).appends appends⟩

/-- What a search finds, in a list under a name. -/
def FrontierAt (count : Nat) (locals : Table Value) (store : Store) (last : Symbol)
    (search : Option (List Reached)) (after : Table Value) (changed : Store) : Prop :=
  Fixes count locals after ∧ store.Keeps changed ∧ ∃ place found,
    after.find? last = some (.list place) ∧ search = some found ∧
      Display.entry.Lists changed place found

/-- A call of a matcher on a whole term. -/
theorem runs_callOnWhole {language : Language} {draft : Draft} {ground : Ground}
    {pattern : Pattern} {term : Term} {matcher target wrapped bindings : Symbol}
    {rest : List Statement} {locals : Table Value} {place : Nat} {content : Bindings}
    {ends : Table Value → Store → Prop} {gives : Value → Store → Prop}
    (meets : MatcherMeets judgement machine language draft ground pattern term)
    (reserved : lookupIn (language.name, pattern) draft.matchers = some matcher)
    (subject : locals.find? wrapped = some (.term (.sequence [term])))
    (known : locals.find? bindings = some (.bindings place))
    (held : store.cell? place = some (.bindings content))
    (expected : judgement.Expects (visit ground pattern term content))
    (others : ∀ place found changed, store.cell? place = none →
      visit ground pattern term content = some found →
      store.Keeps changed → Display.entry.Lists changed place (found.map (·, 1)) →
      Runs judgement machine rest (locals.insert target (.list place)) changed ends gives) :
    Runs judgement machine (callOnWhole target matcher wrapped bindings :: rest) locals store ends
      gives := by
  have arguments : machine.readAll locals [.name wrapped, .int 0, .int 1, .name bindings] =
      .ok (callArguments [term] 0 1 place) :=
    Machine.readAll_cons (Machine.read_name subject)
      (Machine.readAll_cons rfl (Machine.readAll_two rfl (Machine.read_name known)))
  refine Runs.assignCall arguments
    (meets matcher reserved [term] 0 1 place content store (by decide) (by decide) rfl held
      expected).calls ?_
  rintro value changed ⟨place, found, rfl, fresh, searched, keeps, lists⟩
  obtain ⟨results, visited, rfl⟩ := Option.map_eq_some_iff.mp searched
  exact others place results changed fresh visited keeps lists

/-- Code that appends what a search finds to the list at a place, and leaves the variables under
some names as they are. -/
def Extending (judgement : Judgement) (machine : Machine) (code : List Statement)
    (kept : Symbol → Prop) (locals : Table Value) (store : Store) (place : Nat)
    (search : Option (List Reached)) : Prop :=
  Runs judgement machine code locals store
    (fun after changed => Agrees kept locals after ∧ ∃ found, search = some found ∧
      Display.entry.Appends place store changed found)
    fun _ _ => False

/-- Code that appends what a search finds to the list at a place, and assigns to local names from
a number on only. -/
def Appending (judgement : Judgement) (machine : Machine) (code : List Statement) (count : Nat)
    (locals : Table Value) (store : Store) (place : Nat) (search : Option (List Reached)) : Prop :=
  Runs judgement machine code locals store
    (fun after changed => Fixes count locals after ∧ ∃ found, search = some found ∧
      Display.entry.Appends place store changed found)
    fun _ _ => False

/-- The range is tested first, and what is found in it is collected in a new list. -/
theorem guardedBody_runs (slots : Slots count [results, inRange]) {sequence : List Term}
    {first last place : Nat} {search : Option (List Reached)}
    (taken : capped first < capped last → ∀ locals,
      Fixes count (callLocals sequence first last place) locals →
      locals.find? results = some (.list store.size) →
      Appending judgement machine inner (count + 2) locals (store.addCell (.list #[])) store.size
        search)
    (skipped : ¬ capped first < capped last → search = some []) :
    Runs judgement machine (guardedBody results inRange inner)
      (callLocals sequence first last place) store (fun _ _ => False)
      (GivesList store search) := by
  obtain ⟨one, two, _⟩ := slots
  have fixed := (Fixes.refl count (callLocals sequence first last place)).insert one
    (Nat.le_refl _) (.list store.size)
  have known := (fixed head (older_head count)).trans (find?_head sequence first last place)
  have there := (fixed tail (older_tail count)).trans (find?_tail sequence first last place)
  have kept : ∀ value, (((callLocals sequence first last place).insert results
      (.list store.size)).insert inRange value).find? results = some (.list store.size) := by
    intro value
    rw [Table.find?_insert_ne _ _ (two.ne one (by omega)), Table.find?_insert_self]
  refine Runs.newList (Runs.assignBinary (Machine.read_name known) (Machine.read_name there)
    (BinaryOp.apply_less first last) ?_)
  refine Runs.whenTrue
    (fun after changed => after.find? results = some (.list store.size) ∧
      ∃ found, search = some found ∧
        Display.entry.Appends store.size (store.addCell (.list #[])) changed found)
    (Table.find?_insert_self _ _ _) ?_ ?_ ?_
  · intro below
    refine (taken (of_decide_eq_true below) _ (fixed.insert two (Nat.le_succ _) _) (kept _)).weaken
      ?_ fun _ _ => False.elim
    rintro after changed ⟨fixes, appended⟩
    exact ⟨(fixes results (one.older (by omega))).trans (kept _), appended⟩
  · intro above
    exact ⟨kept _, [], skipped (of_decide_eq_false above),
      .nil (store.cell?_addCell_self _) (.refl _)⟩
  · rintro after changed ⟨found, appended⟩
    exact Runs.returns (Machine.read_name found) (givesList_of_appends appended)

end Guarded

end Matcher

end Reduct
