import Reduct.Proofs.ConstructionDrafts
import Reduct.Proofs.InHoleCode
import Reduct.Proofs.TemplateSafety

/-!
# The code of templates

The code of a template leaves behind what the template builds, or fails as the template may. It
assigns to new locals and makes new cells only. Inside an ellipsis, the locals of the drivers hold
their elements of the round.
-/

namespace Reduct

/-- A set of terms that has what code makes of the terms in it. -/
structure Term.Tidy (suits : Term → Prop) : Prop where
  sequence : ∀ items : List Term, items.length ≤ mostCount → (∀ item ∈ items, suits item) →
    suits (.sequence items)
  child : ∀ (items : List Term) (item : Term), suits (.sequence items) → item ∈ items → suits item
  plug : ∀ outer inner term : Term, suits outer → suits inner → outer.plug? inner = some term →
    suits term

theorem Term.tidy_all : Term.Tidy fun _ => True where
  sequence _ _ _ := trivial
  child _ _ _ _ := trivial
  plug _ _ _ _ _ _ := trivial

theorem Term.tidy_proper : Term.Tidy Term.Proper where
  sequence _ counted each := .sequence counted each
  child := by
    rintro items item (_ | _ | ⟨_, each⟩) among
    exact each item among
  plug := by
    intro outer inner term one two plugged
    obtain ⟨path, _, there⟩ := Option.bind_eq_some_iff.mp plugged
    exact one.replace two there

theorem Term.children?_eq_some {term : Term} {items : List Term} :
    term.children? = some items ↔ term = .sequence items := by
  cases term with
  | sequence others => simp [children?]
  | atom value => simp [children?]
  | hole => simp [children?]

namespace Construction

open Draft Statement Template

/-- A call gives a term of a set and only adds to the store. -/
def GivesTerm (store : Store) (admits : Term → Prop) (value : Value) (after : Store) : Prop :=
  ∃ term, value = .term term ∧ admits term ∧ store.Keeps after

/-- The functions that a template calls give what they may give, on terms of a set, where the
calls are allowed. -/
structure Serves (judgement : Judgement) (machine : Machine) (table : Table Symbol)
    (setting : Setting) (allowance : Allowance) (suits : Term → Prop)
    (foreigns : List (Symbol × InsertMode)) : Prop where
  applied : ∀ function target, table.find? function = some target → ∀ argument, suits argument →
    allowance.applies function argument →
    ∀ store, Calls judgement machine target [.term argument] store
      (GivesTerm store fun term => setting.applied function argument term ∧ suits term)
  called : ∀ function mode, (function, mode) ∈ foreigns → ∀ arguments : List Term,
    (∀ argument ∈ arguments, suits argument) → allowance.calls function arguments → ∀ store,
    Calls judgement machine function (arguments.map Value.term) store
      (GivesTerm store fun term => setting.called function arguments term ∧ suits term)

theorem Serves.mono {judgement : Judgement} {machine : Machine} {table : Table Symbol}
    {setting : Setting} {allowance : Allowance} {suits : Term → Prop}
    {foreigns fewer : List (Symbol × InsertMode)}
    (serves : Serves judgement machine table setting allowance suits foreigns)
    (within : ∀ used ∈ fewer, used ∈ foreigns) :
    Serves judgement machine table setting allowance suits fewer :=
  ⟨serves.applied, fun function mode listed => serves.called function mode (within _ listed)⟩

/-- The locals of a scope hold the elements that its variables stand for in some rounds. -/
def Stands (setting : Setting) (suits : Term → Prop) (scope : Scope) (rounds : List Nat)
    (names : List Symbol) (locals : Table Value) : Prop :=
  ∀ name ∈ names, ∀ depth source, setting.depths.find? name = some depth →
    scope.find? name = some source →
    ∃ term, locals.find? source = some (.term term) ∧ setting.element? rounds name = some term ∧
      term.NestedTo (depth - rounds.length) ∧ suits term

theorem Stands.mono {setting : Setting} {suits : Term → Prop} {scope : Scope} {rounds : List Nat}
    {names fewer : List Symbol} {locals : Table Value}
    (stands : Stands setting suits scope rounds names locals)
    (within : ∀ name ∈ fewer, name ∈ names) : Stands setting suits scope rounds fewer locals :=
  fun name listed => stands name (within name listed)

theorem Stands.fixes {setting : Setting} {suits : Term → Prop} {scope : Scope} {rounds : List Nat}
    {names : List Symbol} {locals after : Table Value}
    (stands : Stands setting suits scope rounds names locals) {count : Nat}
    (older : ScopeOlder scope count) (fixes : Fixes count locals after) :
    Stands setting suits scope rounds names after := by
  intro name listed depth source bound found
  obtain ⟨term, held, rest⟩ := stands name listed depth source bound found
  exact ⟨term, (fixes source (older name source found)).trans held, rest⟩

namespace Piece

/-- The local that holds a piece. -/
def result : Piece → Symbol
  | term result => result
  | spliced result => result
  | list result => result

/-- The local of a piece holds a part. -/
def Shows (machine : Machine) (locals : Table Value) (store : Store) : Piece → Part → Prop
  | .term result, .term content => machine.read locals (.name result) = .ok (.term content)
  | .spliced result, .spliced content => machine.read locals (.name result) = .ok (.term content)
  | .list result, .terms contents =>
    ∃ place, locals.find? result = some (.list place) ∧ Display.term.Lists store place contents
  | _, _ => False

end Piece

/-- A local that is as before is read as before. -/
theorem read_fixes {machine : Machine} {count : Nat} {locals after : Table Value}
    (fixes : Fixes count locals after) {name : Symbol} (older : Older count name) :
    machine.read after (.name name) = machine.read locals (.name name) := by
  simp only [Machine.read, Machine.lookup, fixes name older]

theorem Piece.Shows.keeps {machine : Machine} {locals after : Table Value} {store changed : Store}
    {piece : Piece} {part : Part} (shows : piece.Shows machine locals store part) {count : Nat}
    (older : Older count piece.result) (fixes : Fixes count locals after)
    (keeps : store.Keeps changed) : piece.Shows machine after changed part := by
  match piece, part, shows with
  | .term result, .term content, shows => exact (read_fixes fixes older).trans shows
  | .spliced result, .spliced content, shows => exact (read_fixes fixes older).trans shows
  | .list result, .terms contents, ⟨place, found, lists⟩ =>
    exact ⟨place, (fixes result older).trans found, lists.keeps keeps⟩

/-- The list at a place can be counted. -/
def Counted (store : Store) (place : Nat) : Prop :=
  ∃ items : Array Value, store.cell? place = some (.list items) ∧ items.size ≤ mostCount

theorem counted_extendList {store : Store} {place : Nat} {items : Array Value}
    (held : store.cell? place = some (.list items)) {added : List Value}
    (room : items.size + added.length ≤ mostCount) : Counted (store.extendList place added) place := by
  refine ⟨items ++ added.toArray, ?_, ?_⟩
  · rw [store.cell?_extendList held, if_pos rfl]
  · simpa using room

section Meaning

variable (judgement : Judgement) (machine : Machine) (suits : Term → Prop)

/-- Code leaves one of some parts in the local of a piece. -/
def LeavesPart (code : List Statement) (piece : Piece) (count : Nat) (locals : Table Value)
    (store : Store) (meaning : Part → Prop) : Prop :=
  Runs judgement machine code locals store
    (fun after changed => Fixes count locals after ∧ store.Keeps changed ∧
      ∃ part, meaning part ∧ part.Within suits ∧ piece.Shows machine after changed part)
    fun _ _ => False

/-- Code adds one of some lists of terms to the list at a place. -/
def Contributes (code : List Statement) (count : Nat) (locals : Table Value) (store : Store)
    (place : Nat) (meaning : List Term → Prop) : Prop :=
  Runs judgement machine code locals store
    (fun after changed => Fixes count locals after ∧ ∃ terms, meaning terms ∧
      (∀ term ∈ terms, suits term) ∧ Display.term.Appends place store changed terms ∧
      Counted changed place)
    fun _ _ => False

/-- The code that is generated for a template builds it in a scope under some ellipses. -/
structure Right (draft : Draft) (setting : Setting) (allowance : Allowance) (scope : Scope)
    (depth : Nat) (template : Template) (coded : Coded) : Prop where
  steady : Steady (fun _ => False) coded
  older : ∀ {before after : Draft} {code : List Statement} {piece : Piece},
    Yields coded before (code, piece) after → ScopeOlder scope before.localCount →
    Older after.localCount piece.result
  leaves : ∀ {before after : Draft} {code : List Statement} {piece : Piece},
    Yields coded before (code, piece) after → after.Grows draft →
    ScopeOlder scope before.localCount →
    ∀ {rounds : List Nat} {locals : Table Value} {store : Store}, rounds.length = depth →
      Safe judgement.excuses allowance setting rounds template → Unhidden locals →
      Stands setting suits scope rounds template.symbols locals →
      LeavesPart judgement machine suits code piece before.localCount locals store
        (Builds setting rounds template)

end Meaning

section Lists

variable {judgement : Judgement} {machine : Machine} {suits : Term → Prop}

theorem Contributes.weaken {code : List Statement} {count : Nat} {locals : Table Value}
    {store : Store} {place : Nat} {meaning other : List Term → Prop}
    (contributes : Contributes judgement machine suits code count locals store place meaning)
    (weaker : ∀ terms, meaning terms → other terms) :
    Contributes judgement machine suits code count locals store place other := by
  refine Runs.weaken contributes ?_ fun _ _ given => given
  rintro after changed ⟨fixes, terms, means, rest⟩
  exact ⟨fixes, terms, weaker terms means, rest⟩

/-- The parts of a template add their terms to a list. -/
theorem addPiece_runs (tidy : Term.Tidy suits) {list : Symbol} {piece : Piece}
    {before after : Draft} {code : List Statement}
    (yields : Yields (addPiece list piece) before code after)
    (older : Older before.localCount list) {locals : Table Value} {store : Store} {part : Part}
    {place : Nat} (known : locals.find? list = some (.list place)) (counted : Counted store place)
    (shows : piece.Shows machine locals store part) (within : part.Within suits)
    (childless : ∀ content, part = .spliced content → content.children? = none →
      judgement.excuses (.term (.wrongKind .sequence content))) :
    Contributes judgement machine suits code before.localCount locals store place
      fun terms => part.items? = some terms := by
  obtain ⟨items, held, small⟩ := counted
  match piece, part, shows with
  | .term result, .term content, shows =>
    obtain ⟨rfl, rfl⟩ := yields_pure.mp yields
    refine Runs.listAppend (Machine.read_name known) held shows fun room => .nil ?_
    have shown : List.Forall₂ (Display.term.shows store) [.term content] [content] :=
      .cons rfl .nil
    exact ⟨.refl _ _, [content], rfl, List.forall_mem_singleton.mpr within,
      Display.appends_extendList held shown, counted_extendList held room⟩
  | .list result, .terms contents, ⟨source, there, lists⟩ =>
    obtain ⟨rfl, rfl⟩ := yields_pure.mp yields
    obtain ⟨added, found, shown⟩ := lists
    refine Runs.listExtend (Machine.read_name known) held (Machine.read_name there) found
      fun room => .nil ?_
    exact ⟨.refl _ _, contents, rfl, within, Display.appends_extendList held shown,
      counted_extendList held room⟩
  | .spliced result, .spliced content, shows =>
    rw [addPiece, ← Draft.skip_zero before] at yields
    obtain ⟨children, slot, yields⟩ := yields_local (by decide) (by decide) yields
    obtain ⟨rfl, rfl⟩ := yields_pure.mp yields
    refine Runs.sequenceChildren shows (childless content rfl) fun terms children_ => ?_
    have fixed := (Fixes.refl before.localCount locals).insert slot (Nat.le_refl _)
      (.list store.size)
    have keeps := Store.keeps_addCell store (.list (terms.map Value.term).toArray)
    refine Runs.listExtend (Machine.read_name ((fixed list older).trans known)) (keeps _ _ held)
      (Machine.read_name (Table.find?_insert_self _ _ _)) (store.cell?_addCell_self _)
      fun room => .nil ?_
    have shown : List.Forall₂ (Display.term.shows
        (store.addCell (.list (terms.map Value.term).toArray))) (terms.map Value.term) terms :=
      List.forall₂_map_left_iff.mpr (List.forall₂_same.mpr fun _ _ => rfl)
    have appends := Display.appends_extendList (keeps _ _ held) shown
    refine ⟨fixed, terms, children_, ?_, appends.keeps_left keeps held,
      counted_extendList (keeps _ _ held) room⟩
    obtain rfl := Term.children?_eq_some.mp children_
    exact fun term among => tidy.child terms term within among

/-- Code contributes one list of terms after another. -/
theorem Contributes.append {first second : List Statement} {count more : Nat}
    {locals : Table Value} {store : Store} {place : Nat} {one two both : List Term → Prop}
    (le : count ≤ more)
    (before : Contributes judgement machine suits first count locals store place one)
    (after : ∀ inner changed front, Fixes count locals inner →
      Store.KeepsBut place store changed → Counted changed place → one front →
      Contributes judgement machine suits second more inner changed place two)
    (joined : ∀ front back, one front → two back → both (front ++ back)) :
    Contributes judgement machine suits (first ++ second) count locals store place both := by
  refine Runs.append before ?_
  rintro inner changed ⟨fixes, front, means, fine, appends, counted⟩
  refine Runs.weaken (after inner changed front fixes appends.kept counted means) ?_
    fun _ _ given => given
  rintro last final ⟨still, back, also, good, appended, bounded⟩
  refine ⟨fixes.trans (still.mono le), front ++ back, joined front back means also, ?_,
    appends.trans appended, bounded⟩
  intro term listed
  exact (List.mem_append.mp listed).elim (fine term) (good term)

variable {draft : Draft} {setting : Setting} {allowance : Allowance} {scope : Scope} {depth : Nat}

/-- A template adds what it gives to a list. -/
theorem contribution_runs (tidy : Term.Tidy suits) {template : Template} {coded : Coded}
    (right : Right judgement machine suits draft setting allowance scope depth template coded)
    {list : Symbol}
    {before after : Draft} {code : List Statement}
    (yields : Yields (contribution coded list) before code after) (grows : after.Grows draft)
    (fine : ScopeOlder scope before.localCount) (older : Older before.localCount list)
    {rounds : List Nat} {locals : Table Value} {store : Store} {place : Nat}
    (deep : rounds.length = depth) (safe : Safe judgement.excuses allowance setting rounds template)
    (splices : SplicesSafely judgement.excuses setting rounds template) (unhidden : Unhidden locals)
    (stands : Stands setting suits scope rounds template.symbols locals)
    (known : locals.find? list = some (.list place)) (counted : Counted store place) :
    Contributes judgement machine suits code before.localCount locals store place
      fun terms => ∃ part, Builds setting rounds template part ∧ part.items? = some terms := by
  obtain ⟨⟨first, piece⟩, middle, built, yields⟩ := yields_bind.mp yields
  obtain ⟨added, last, adds, yields⟩ := yields_bind.mp yields
  obtain ⟨rfl, rfl⟩ := yields_pure.mp yields
  have adding := (steady_addPiece Matcher.stable_never list piece).grows _ _ _ adds
  have le := (right.steady.grows _ _ _ built).localCount
  obtain ⟨items, held, small⟩ := counted
  refine Runs.append
    (right.leaves built (adding.trans grows) fine deep safe unhidden stands) ?_
  rintro inner changed ⟨fixes, keeps, part, builds, within, shows⟩
  have childless : ∀ content, part = .spliced content → content.children? = none →
      judgement.excuses (.term (.wrongKind .sequence content)) := by
    rintro content rfl none_
    exact splices content builds none_
  refine Runs.weaken (addPiece_runs tidy adds (older.mono le) ((fixes list older).trans known)
    ⟨items, keeps _ _ held, small⟩ shows within childless) ?_ fun _ _ given => given
  rintro final later ⟨still, terms, means, good, appends, bounded⟩
  exact ⟨fixes.trans (still.mono le), terms, ⟨part, builds, means⟩, good,
    appends.keeps_left keeps held, bounded⟩

/-- The code of annotated templates builds the templates. -/
abbrev AllRight (judgement : Judgement) (machine : Machine) (suits : Term → Prop) (draft : Draft)
    (setting : Setting) (allowance : Allowance) (table : Table Symbol) (scope : Scope) (depth : Nat)
    (items : List Template) (annotated : List Annotated) : Prop :=
  List.Forall₂ (fun item other =>
    Right judgement machine suits draft setting allowance scope depth item
      (build table scope other)) items annotated

theorem AllRight.steady {table : Table Symbol} {items : List Template} {annotated : List Annotated}
    (rights : AllRight judgement machine suits draft setting allowance table scope depth items
      annotated) :
    ∀ other ∈ annotated, Steady (fun _ => False) (build table scope other) := by
  induction rights with
  | nil => nofun
  | cons right _ ih => exact List.forall_mem_cons.mpr ⟨right.steady, ih⟩

/-- Templates add what they give to a list, from left to right. -/
theorem contributeAll_runs (tidy : Term.Tidy suits) {table : Table Symbol} {items : List Template}
    {annotated : List Annotated}
    (rights : AllRight judgement machine suits draft setting allowance table scope depth items
      annotated)
    {list : Symbol} {rounds : List Nat} (deep : rounds.length = depth) :
    SafeAll judgement.excuses allowance setting rounds items →
    ∀ {before after : Draft} {code : List Statement},
      Yields (contributeAll table scope annotated list) before code after → after.Grows draft →
      ScopeOlder scope before.localCount → Older before.localCount list →
      ∀ {locals : Table Value} {store : Store} {place : Nat}, Unhidden locals →
        Stands setting suits scope rounds (symbolsAll items) locals →
        locals.find? list = some (.list place) → Counted store place →
        Contributes judgement machine suits code before.localCount locals store place
          fun terms => ∃ parts, BuildsAll setting rounds items parts ∧
            Part.join parts = some terms := by
  induction rights with
  | nil =>
    intro _ before after code yields _ _ _ locals store place _ _ _ counted
    rw [contributeAll] at yields
    obtain ⟨rfl, rfl⟩ := yields_pure.mp yields
    have ⟨items, held, _⟩ := counted
    exact .nil ⟨.refl _ _, [], ⟨[], .nil, rfl⟩, nofun, .nil held (.refl store), counted⟩
  | @cons item other rest others right rights ih =>
    rintro ⟨safe, splicing, safely⟩ before after code yields grows fine older locals store place
      unhidden stands known counted
    rw [contributeAll] at yields
    obtain ⟨first, middle, adds, yields⟩ := yields_bind.mp yields
    obtain ⟨second, last, later, yields⟩ := yields_bind.mp yields
    obtain ⟨rfl, rfl⟩ := yields_pure.mp yields
    have growing := (steady_contributeAll Matcher.stable_never
      (AllRight.steady rights) list).grows _ _ _ later
    have le := ((steady_contribution Matcher.stable_never right.steady list).grows _ _ _
      adds).localCount
    have here := contribution_runs tidy right adds (growing.trans grows) fine older deep safe
      splicing unhidden (stands.mono fun name listed => List.mem_append_left _ listed) known counted
    have there : ∀ inner changed front, Fixes before.localCount locals inner →
        Store.KeepsBut place store changed → Counted changed place →
        (∃ part, Builds setting rounds item part ∧ part.items? = some front) →
        Contributes judgement machine suits second middle.localCount inner changed place
          fun terms => ∃ parts, BuildsAll setting rounds rest parts ∧
            Part.join parts = some terms := by
      rintro inner changed front fixes _ bounded ⟨part, builds, means⟩
      exact ih (safely part front builds means) later grows (fine.mono le) (older.mono le)
        (unhidden.fixes fixes)
        ((stands.mono fun name listed => List.mem_append_right _ listed).fixes fine fixes)
        ((fixes list older).trans known) bounded
    refine here.append le there ?_
    rintro front back ⟨part, builds, means⟩ ⟨parts, all, joined⟩
    exact ⟨part :: parts, .cons builds all, gather_cons_eq_some.mpr ⟨_, _, means, joined, rfl⟩⟩

/-- A new list holds what is added to it. -/
theorem listOf_runs (suits : Term → Prop) (meaning : List Term → Prop)
    {contribute : Symbol → Drafting (List Statement)} {list : Symbol} {before after : Draft}
    {code : List Statement} {locals : Table Value} {store : Store}
    (yields : Yields (listOf contribute) before (code, list) after)
    (adds : ∀ {list : Symbol} {code : List Statement}, Slot list before.localCount →
      Yields (contribute list) (before.skip 1) code after →
      ∀ {inner : Table Value} {changed : Store} {place : Nat},
        Fixes before.localCount locals inner → inner.find? list = some (.list place) →
        Counted changed place →
        Contributes judgement machine suits code (before.localCount + 1) inner changed place
          meaning) :
    Slot list before.localCount ∧
      Runs judgement machine code locals store
        (fun after changed => Fixes before.localCount locals after ∧ store.Keeps changed ∧
          ∃ place terms, after.find? list = some (.list place) ∧ meaning terms ∧
            (∀ term ∈ terms, suits term) ∧ terms.length ≤ mostCount ∧
            Display.term.Lists changed place terms)
        fun _ _ => False := by
  unfold listOf at yields
  rw [← Draft.skip_zero before] at yields
  obtain ⟨name, slot, yields⟩ := yields_local (by decide) (by decide) yields
  obtain ⟨inner, middle, contributed, yields⟩ := yields_bind.mp yields
  obtain ⟨same, rfl⟩ := yields_pure.mp yields
  cases same
  refine ⟨slot, ?_⟩
  have fixed := (Fixes.refl before.localCount locals).insert slot (Nat.le_refl _)
    (.list store.size)
  have held := store.cell?_addCell_self (.list #[])
  refine Runs.newList (Runs.weaken (adds slot contributed fixed (Table.find?_insert_self _ _ _)
    ⟨#[], held, Nat.zero_le _⟩) ?_ fun _ _ given => given)
  rintro last changed ⟨fixes, terms, means, fine, appends, _, found, small⟩
  have lists := (Display.lists_nil held).appends appends
  refine ⟨fixed.trans (fixes.mono (Nat.le_succ _)),
    (Store.keeps_addCell store _).trans_but store.cell?_size appends.kept, store.size, terms,
    (fixes _ (slot.older (Nat.lt_succ_self _))).trans (Table.find?_insert_self _ _ _), means,
    fine, ?_, lists⟩
  obtain ⟨_, again, shown⟩ := lists
  rw [found] at again
  cases again
  have sized := shown.length_eq
  rw [Array.length_toList, List.nil_append] at sized
  omega

/-- The local of a sequence is new. -/
theorem older_sequenceOf {contribute : Symbol → Drafting (List Statement)} {result : Symbol}
    {before after : Draft} {code : List Statement}
    (yields : Yields (sequenceOf contribute) before (code, result) after) :
    Older after.localCount result := by
  obtain ⟨⟨first, list⟩, middle, _, yields⟩ := yields_bind.mp yields
  rw [← Draft.skip_zero middle] at yields
  obtain ⟨name, slot, yields⟩ := yields_local (by decide) (by decide) yields
  obtain ⟨same, rfl⟩ := yields_pure.mp yields
  cases same
  exact slot.older (Nat.lt_succ_self _)

/-- A sequence of what is added to a new list. -/
theorem sequenceOf_runs (tidy : Term.Tidy suits)
    {contribute : Symbol → Drafting (List Statement)} {result : Symbol} {before after : Draft}
    {code : List Statement} {meaning : List Term → Prop} {locals : Table Value} {store : Store}
    (steady : ∀ list, Steady (fun _ => False) (contribute list))
    (yields : Yields (sequenceOf contribute) before (code, result) after)
    (adds : ∀ {list : Symbol} {code : List Statement} {middle : Draft},
      Older (before.localCount + 1) list → Yields (contribute list) (before.skip 1) code middle →
      middle.Grows after → ∀ {inner : Table Value} {changed : Store} {place : Nat},
        Fixes before.localCount locals inner → inner.find? list = some (.list place) →
        Counted changed place →
        Contributes judgement machine suits code (before.localCount + 1) inner changed place
          meaning) :
    LeavesPart judgement machine suits code (.term result) before.localCount locals store
      fun part => ∃ terms, part = .term (.sequence terms) ∧ meaning terms := by
  obtain ⟨⟨first, list⟩, middle, listed, yields⟩ := yields_bind.mp yields
  have grown := (steady_listOf Matcher.stable_never steady).grows _ _ _ listed
  rw [← Draft.skip_zero middle] at yields
  obtain ⟨name, slot, yields⟩ := yields_local (by decide) (by decide) yields
  obtain ⟨same, rfl⟩ := yields_pure.mp yields
  cases same
  have skipping := middle.grows_skip 1
  refine Runs.append (listOf_runs suits meaning listed fun slot contributed =>
    adds (slot.older (Nat.lt_succ_self _)) contributed skipping).2 ?_
  rintro inner changed ⟨fixes, keeps, place, terms, found, means, fine, small, lists⟩
  refine Runs.makeSequence (Machine.read_name found) lists (.nil ?_)
  exact ⟨fixes.insert slot grown.localCount _, keeps, .term (.sequence terms),
    ⟨terms, rfl, means⟩, tidy.sequence terms small fine,
    Machine.read_name (Table.find?_insert_self _ _ _)⟩

/-- An ellipsis is annotated as one. -/
theorem isRepeated_of_annotated {depths : Depths} {metafunctions : SymbolSet} {template : Template}
    {annotated : Annotated}
    (accepted : template.annotateAt depths metafunctions depth = .ok annotated) :
    isRepeated annotated = true ↔ ∃ inner, template = .repeated inner := by
  cases template with
  | literal term =>
    cases accepted
    exact iff_of_false Bool.false_ne_true (by simp)
  | symbol name =>
    rw [annotateAt_symbol_eq, annotateSymbol] at accepted
    split at accepted
    · cases accepted
      exact iff_of_false Bool.false_ne_true (by simp)
    · split at accepted
      · cases accepted
      · cases accepted
        exact iff_of_false Bool.false_ne_true (by simp)
  | sequence items =>
    rcases annotateAt_sequence accepted with ⟨_, _, _, rfl⟩ | ⟨_, _, _, _, _, _, _, _, rfl⟩ <;>
      exact iff_of_false Bool.false_ne_true (by simp)
  | repeated inner =>
    obtain ⟨_, _, _, rfl⟩ := annotateAt_repeated accepted
    exact ⟨fun _ => ⟨inner, rfl⟩, fun _ => rfl⟩
  | inHole context contents =>
    obtain ⟨_, _, _, _, rfl⟩ := annotateAt_inHole accepted
    exact iff_of_false Bool.false_ne_true (by simp)
  | foreign function arguments mode =>
    obtain ⟨_, _, rfl⟩ := annotateAt_foreign accepted
    exact iff_of_false Bool.false_ne_true (by simp)

/-- A template leaves one term where one is needed. -/
theorem asTerm_runs (tidy : Term.Tidy suits) {template : Template} {annotated : Annotated}
    {metafunctions : SymbolSet} {above : Nat}
    (accepted : template.annotateAt setting.depths metafunctions above = .ok annotated)
    {coded : Coded}
    (right : Right judgement machine suits draft setting allowance scope depth template coded)
    {before after : Draft} {code : List Statement} {result : Symbol}
    (yields : Yields (asTerm annotated coded) before (code, result) after) (grows : after.Grows draft)
    (fine : ScopeOlder scope before.localCount) :
    Older after.localCount result ∧
      ∀ {rounds : List Nat} {locals : Table Value} {store : Store}, rounds.length = depth →
        Safe judgement.excuses allowance setting rounds template → Unhidden locals →
        Stands setting suits scope rounds template.symbols locals →
        LeavesPart judgement machine suits code (.term result) before.localCount locals store
          fun part => ∃ whole, Builds setting rounds template whole ∧ part = .term whole.whole := by
  unfold asTerm at yields
  split at yields
  · rename_i many
    obtain ⟨inner, rfl⟩ := (isRepeated_of_annotated accepted).mp many
    refine ⟨older_sequenceOf yields, ?_⟩
    intro rounds locals store deep safe unhidden stands
    have splices : SplicesSafely judgement.excuses setting rounds (.repeated inner) := nofun
    have made : LeavesPart judgement machine suits code (.term result) before.localCount locals
        store fun part => ∃ terms, part = .term (.sequence terms) ∧
          ∃ whole, Builds setting rounds (.repeated inner) whole ∧ whole.items? = some terms := by
      refine sequenceOf_runs tidy (steady_contribution Matcher.stable_never right.steady) yields ?_
      intro list adding middle older adds growing inside changed place fixes known counted
      exact contribution_runs tidy right adds (growing.trans grows) (fine.mono (Nat.le_succ _))
        older deep safe splices (unhidden.fixes fixes) (stands.fixes fine fixes) known counted
    refine Runs.weaken made ?_ fun _ _ given => given
    rintro last changed ⟨fixes, keeps, part, ⟨terms, rfl, whole, builds, all⟩, within, shows⟩
    refine ⟨fixes, keeps, .term (.sequence terms), ⟨whole, builds, ?_⟩, within, shows⟩
    cases builds
    cases all
    rfl
  · rename_i single
    obtain ⟨⟨inner, piece⟩, middle, built, yields⟩ := yields_bind.mp yields
    have result_ : result = piece.result ∧ code = inner ∧ after = middle := by
      cases piece <;>
      · obtain ⟨same, rfl⟩ := yields_pure.mp yields
        cases same
        exact ⟨rfl, rfl, rfl⟩
    obtain ⟨rfl, rfl, rfl⟩ := result_
    refine ⟨right.older built fine, ?_⟩
    intro rounds locals store deep safe unhidden stands
    refine Runs.weaken (right.leaves built grows fine deep safe unhidden stands) ?_
      fun _ _ given => given
    rintro last changed ⟨fixes, keeps, part, builds, within, shows⟩
    refine ⟨fixes, keeps, .term part.whole, ⟨part, builds, rfl⟩, ?_⟩
    match piece, part, shows with
    | .term result, .term content, shows => exact ⟨within, shows⟩
    | .spliced result, .spliced content, shows => exact ⟨within, shows⟩
    | .list result, .terms contents, _ =>
      exact absurd ((isRepeated_of_annotated accepted).mpr builds.repeated_of_terms) single

end Lists

end Construction

end Reduct
