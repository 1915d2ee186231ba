import Reduct.Proofs.CodeCalls
import Reduct.Proofs.NeatDrafts

/-!
# Interrupted drafts

A compilation that fails leaves its draft as it stands: the functions whose code was being compiled
keep their names, and are never defined. This is what a draft is left with, and all that it is left
with: whatever fails, a name is defined once, what is reserved is defined or waits for its code,
and code calls what is reserved. A step accounts for its names if it keeps to this, be it that it
succeeds and leaves as many names waiting as before, or that it fails and leaves more.
-/

namespace Reduct

namespace Draft

/-- The names that are reserved and have no definition. -/
def unfinished (draft : Draft) : List Symbol :=
  draft.reserved.filter fun name => decide (name ∉ draft.definitions)

/-- What holds of a draft after any number of failures. The list holds the names that wait for their
code. -/
structure Ledger (pending : List Symbol) (draft : Draft) : Prop where
  /-- A name is defined once, and not while it waits. -/
  named : (pending ++ draft.definitions).Nodup
  numbered : ∀ name ∈ pending ++ draft.definitions,
    ∃ number < draft.nameCount, Numbered name number
  reserves : pending ⊆ draft.reserved
  covered : draft.reserved ⊆ pending ++ draft.definitions
  closed : ∀ name parameters body, .define name parameters body ∈ draft.functions →
    Statement.callsAll body ⊆ draft.reserved

theorem ledger_empty : Ledger [] .empty where
  named := List.nodup_nil
  numbered := nofun
  reserves := List.Subset.refl _
  covered := List.Subset.refl _
  closed := nofun

/-- A draft with the names of another one. -/
structure Extends (before after : Draft) : Prop where
  reserved : before.reserved ⊆ after.reserved
  definitions : before.definitions ⊆ after.definitions

theorem Extends.refl (draft : Draft) : draft.Extends draft :=
  ⟨List.Subset.refl _, List.Subset.refl _⟩

theorem Extends.trans {first second third : Draft} (one : first.Extends second)
    (two : second.Extends third) : first.Extends third :=
  ⟨List.Subset.trans one.reserved two.reserved,
    List.Subset.trans one.definitions two.definitions⟩

section Ledgers

variable {pending : List Symbol} {draft after : Draft} {name : Symbol}

/-- What waits for its code is what is unfinished. -/
theorem Ledger.mem_unfinished (ledger : Ledger pending draft) :
    name ∈ draft.unfinished ↔ name ∈ pending := by
  rw [unfinished, List.mem_filter, decide_eq_true_eq]
  constructor
  · rintro ⟨reserved, undefined⟩
    exact (List.mem_append.mp (ledger.covered reserved)).resolve_right undefined
  · intro waits
    exact ⟨ledger.reserves waits, (List.nodup_append'.mp ledger.named).2.2 waits⟩

/-- A name that the draft knows is defined once, or not at all if it is unfinished. -/
theorem Ledger.count_eq_one_iff (ledger : Ledger pending draft)
    (known : name ∈ draft.reserved ∨ name ∈ draft.definitions) :
    draft.definitions.count name = 1 ↔ name ∉ draft.unfinished := by
  have once := (List.nodup_append'.mp ledger.named).2.1
  have defined : draft.definitions.count name = 1 ↔ name ∈ draft.definitions :=
    ⟨fun one => List.count_pos_iff.mp (by omega), List.count_eq_one_of_mem once⟩
  rw [defined, unfinished, List.mem_filter, decide_eq_true_eq, not_and, not_not]
  exact ⟨fun listed _ => listed, fun finished => known.elim finished id⟩

/-- A name with the next number is new. -/
theorem Ledger.fresh (ledger : Ledger pending draft) (numbered : Numbered name draft.nameCount) :
    name ∉ pending ++ draft.definitions := by
  intro listed
  obtain ⟨number, below, other⟩ := ledger.numbered name listed
  exact numbered.ne other (Nat.ne_of_gt below) rfl

/-- A draft with the same functions and names. -/
theorem Ledger.retain (ledger : Ledger pending draft)
    (functions : after.functions = draft.functions) (reserved : after.reserved = draft.reserved)
    (nameCount : draft.nameCount ≤ after.nameCount) : Ledger pending after := by
  have definitions : after.definitions = draft.definitions := by
    rw [Draft.definitions, Draft.definitions, functions]
  exact
    { named := definitions ▸ ledger.named
      numbered := by
        rw [definitions]
        intro name listed
        obtain ⟨number, below, ends⟩ := ledger.numbered name listed
        exact ⟨number, Nat.lt_of_lt_of_le below nameCount, ends⟩
      reserves := reserved ▸ ledger.reserves
      covered := by
        rw [definitions, reserved]
        exact ledger.covered
      closed := by
        rw [functions, reserved]
        exact ledger.closed }

/-- A new name can be reserved. -/
theorem Ledger.reserve (ledger : Ledger pending draft) (numbered : Numbered name draft.nameCount)
    (functions : after.functions = draft.functions)
    (reserved : after.reserved.Perm (name :: draft.reserved))
    (nameCount : after.nameCount = draft.nameCount + 1) : Ledger (name :: pending) after := by
  have definitions : after.definitions = draft.definitions := by
    rw [Draft.definitions, Draft.definitions, functions]
  have kept : draft.reserved ⊆ after.reserved := fun other listed =>
    reserved.mem_iff.mpr (List.mem_cons_of_mem _ listed)
  refine
    { named := ?_
      numbered := ?_
      reserves := ?_
      covered := fun other listed => ?_
      closed := ?_ }
  · rw [definitions]
    exact List.nodup_cons.mpr ⟨ledger.fresh numbered, ledger.named⟩
  · rw [definitions, nameCount, List.cons_append]
    refine List.forall_mem_cons.mpr ⟨⟨_, Nat.lt_succ_self _, numbered⟩, fun other listed => ?_⟩
    obtain ⟨number, below, ends⟩ := ledger.numbered other listed
    exact ⟨number, Nat.lt_succ_of_lt below, ends⟩
  · refine List.cons_subset.mpr ⟨reserved.mem_iff.mpr List.mem_cons_self, ?_⟩
    exact List.Subset.trans ledger.reserves kept
  · rw [definitions]
    rcases List.mem_cons.mp (reserved.mem_iff.mp listed) with rfl | earlier
    · exact List.mem_cons_self
    · exact List.mem_cons_of_mem _ (ledger.covered earlier)
  · rw [functions]
    exact fun function parameters body listed =>
      List.Subset.trans (ledger.closed function parameters body listed) kept

theorem definitions_append_define (draft : Draft) (name : Symbol) (parameters : List Symbol)
    (body : List Statement) :
    definitions { draft with functions := draft.functions ++ [.define name parameters body] } =
      draft.definitions ++ [name] := List.filterMap_append

/-- A name gets its definition: one that waits for it, or one that is new. -/
theorem Ledger.define {waiting : List Symbol} (ledger : Ledger waiting draft)
    (named : (name :: (pending ++ draft.definitions)).Nodup)
    (numbered : ∃ number < draft.nameCount, Numbered name number) (within : pending ⊆ waiting)
    (others : waiting ⊆ name :: pending) {parameters : List Symbol} {body : List Statement}
    (calls : Statement.callsAll body ⊆ draft.reserved) :
    Ledger pending
      { draft with functions := draft.functions ++ [.define name parameters body] } := by
  have definitions := definitions_append_define draft name parameters body
  have waits : ∀ {other}, other ∈ pending ++ draft.definitions →
      other ∈ waiting ++ draft.definitions := fun listed =>
    List.mem_append.mpr ((List.mem_append.mp listed).imp_left (within ·))
  refine
    { named := ?_
      numbered := ?_
      reserves := List.Subset.trans within ledger.reserves
      covered := fun other reserved => ?_
      closed := fun function words code listed => ?_ }
  · rw [definitions, ← List.append_assoc]
    exact (List.perm_append_singleton name _).nodup_iff.mpr named
  · rw [definitions, ← List.append_assoc]
    intro other listed
    rcases List.mem_append.mp listed with earlier | last
    · exact ledger.numbered other (waits earlier)
    · rwa [List.mem_singleton.mp last]
  · rw [definitions]
    rcases List.mem_append.mp (ledger.covered reserved) with waits | defined
    · rcases List.mem_cons.mp (others waits) with rfl | still
      · exact List.mem_append_right _ (List.mem_append_right _ List.mem_cons_self)
      · exact List.mem_append_left _ still
    · exact List.mem_append_right _ (List.mem_append_left _ defined)
  · rcases List.mem_append.mp listed with earlier | last
    · exact ledger.closed function words code earlier
    · cases List.mem_singleton.mp last
      exact calls

/-- The name that waits for the code of a function gets its definition. -/
theorem Ledger.finish (ledger : Ledger (name :: pending) draft) {parameters : List Symbol}
    {body : List Statement} (calls : Statement.callsAll body ⊆ draft.reserved) :
    Ledger pending
      { draft with functions := draft.functions ++ [.define name parameters body] } :=
  ledger.define ledger.named (ledger.numbered name List.mem_cons_self) (List.subset_cons_self _ _)
    (List.Subset.refl _) calls

end Ledgers

/-- How a step ends that began with some names waiting: it has kept to the ledger, and has what its
result asks for if it succeeds. A step that fails may leave more names waiting. -/
def Leaves {α : Type} (pending : List Symbol) (before : Draft) (held : α → Draft → Prop) :
    Except Fault α × Draft → Prop
  | (.ok result, after) => before.Extends after ∧ Ledger pending after ∧ held result after
  | (.error _, after) => before.Extends after ∧ ∃ more, Ledger (more ++ pending) after

/-- A step accounts for its names: where what it is given is reserved, it keeps to the ledger, and
what its result calls is reserved. -/
def Accounts {α : Type} (given : List Symbol) (calls : α → List Symbol) (action : Drafting α) :
    Prop :=
  ∀ pending before, Ledger pending before → given ⊆ before.reserved →
    Leaves pending before (fun result after => calls result ⊆ after.reserved) (action.run before)

section Steps

variable {α β : Type} {given : List Symbol} {cost : α → List Symbol} {calls : β → List Symbol}

/-- What follows a step that has kept to the ledger. -/
theorem Leaves.after {pending : List Symbol} {before middle : Draft} {held : α → Draft → Prop}
    (extended : before.Extends middle) : ∀ {ended : Except Fault α × Draft},
    Leaves pending middle held ended → Leaves pending before held ended
  | (.ok _, _), ⟨more, kept⟩ => ⟨extended.trans more, kept⟩
  | (.error _, _), ⟨more, kept⟩ => ⟨extended.trans more, kept⟩

theorem Leaves.imp {pending : List Symbol} {before : Draft} {held other : α → Draft → Prop}
    (weaker : ∀ result after, held result after → other result after) :
    ∀ {ended : Except Fault α × Draft}, Leaves pending before held ended →
      Leaves pending before other ended
  | (.ok _, _), ⟨extended, kept, holds⟩ => ⟨extended, kept, weaker _ _ holds⟩
  | (.error _, _), failed => failed

/-- A step keeps to the ledger, and leaves nothing more waiting unless it fails. -/
theorem Leaves.ledger {pending : List Symbol} {before : Draft} {held : α → Draft → Prop} :
    ∀ {ended : Except Fault α × Draft}, Leaves pending before held ended →
      before.Extends ended.2 ∧ ∃ more, Ledger (more ++ pending) ended.2 ∧
        ∀ result, ended.1 = .ok result → more = [] ∧ held result ended.2
  | (.ok _, _), ⟨extended, kept, holds⟩ =>
    ⟨extended, [], kept, fun _ same => Except.ok.inj same ▸ ⟨rfl, holds⟩⟩
  | (.error _, _), ⟨extended, more, kept⟩ => ⟨extended, more, kept, nofun⟩

theorem accounts_pure {value : β} (within : calls value ⊆ given) :
    Accounts given calls (pure value) := fun _ before ledger known =>
  ⟨.refl before, ledger, List.Subset.trans within known⟩

theorem accounts_throw (fault : Fault) : Accounts given calls (throw fault) :=
  fun _ before ledger _ => ⟨.refl before, [], ledger⟩

/-- Steps account for their names one after the other. -/
theorem Accounts.bind {first : Drafting α} {next : α → Drafting β}
    (one : Accounts given cost first)
    (two : ∀ value, Accounts (cost value ++ given) calls (next value)) :
    Accounts given calls (first >>= next) := by
  intro pending before ledger known
  rw [run_bind_eq]
  have begun := one pending before ledger known
  generalize first.run before = ended at begun ⊢
  rcases ended with ⟨fault | value, middle⟩
  · exact begun
  · obtain ⟨extended, kept, held⟩ := begun
    refine (two value pending middle kept ?_).after extended
    exact List.append_subset.mpr ⟨held, List.Subset.trans known extended.reserved⟩

/-- Drafts with the functions and the names of another one. -/
structure SameNames (given draft : Draft) : Prop where
  functions : draft.functions = given.functions
  reserved : draft.reserved = given.reserved
  nameCount : draft.nameCount = given.nameCount

theorem stable_sameNames (draft : Draft) : Stable (SameNames draft) where
  locals _ same := ⟨same.functions, same.reserved, same.nameCount⟩
  constants _ _ same := ⟨same.functions, same.reserved, same.nameCount⟩

/-- A step that concerns neither functions nor names. -/
theorem accounts_of_steady {action : Drafting β}
    (steady : ∀ draft, Steady (SameNames draft) action) :
    Accounts given (fun _ => []) action := by
  intro pending before ledger _
  obtain ⟨result, after, yields, same⟩ := (steady before).succeeds before ⟨rfl, rfl, rfl⟩
  have definitions : after.definitions = before.definitions := by
    rw [Draft.definitions, Draft.definitions, same.functions]
  rw [show action.run before = (.ok result, after) from yields]
  refine ⟨⟨?_, ?_⟩, ?_, List.nil_subset _⟩
  · rw [same.reserved]
    exact List.Subset.refl _
  · rw [definitions]
    exact List.Subset.refl _
  · exact ledger.retain same.functions same.reserved (Nat.le_of_eq same.nameCount.symm)

/-- What follows a local name. -/
theorem Accounts.withLocal {hint : String} {next : Symbol → Drafting β}
    (rest : ∀ name, Accounts given calls (next name)) :
    Accounts given calls (freshLocal hint >>= next) :=
  (accounts_of_steady fun draft => (stable_sameNames draft).freshLocal hint).bind rest

theorem accounts_constant (term : Term) : Accounts given (fun _ => []) (constant term) :=
  accounts_of_steady fun draft => (stable_sameNames draft).constant term

/-- The constant of the literal variables is read or added. -/
theorem accounts_mentionedConstant (language : Symbol) (mentioned : SymbolSet) :
    Accounts given (fun _ => []) (mentionedConstant language mentioned) := by
  refine accounts_of_steady fun draft =>
    ⟨fun _ _ _ yields => (yields_mentionedConstant yields).1, fun before same => ?_⟩
  cases found : before.mentioned.find? language with
  | some name =>
    refine ⟨name, before, ?_, same⟩
    unfold mentionedConstant
    refine yields_bind.mpr ⟨before, before, rfl, ?_⟩
    rw [found]
    rfl
  | none =>
    obtain ⟨name, middle, made, still⟩ := ((stable_sameNames draft).constant
      (.sequence (mentioned.members.map Term.symbol))).succeeds before same
    refine ⟨name, { middle with mentioned := middle.mentioned.insert language name }, ?_,
      still.functions, still.reserved, still.nameCount⟩
    unfold mentionedConstant
    refine yields_bind.mpr ⟨before, before, rfl, ?_⟩
    rw [found]
    refine yields_bind.mpr ⟨name, middle, made, ?_⟩
    exact yields_bind.mpr ⟨⟨⟩, _, yields_modify.mpr rfl, yields_pure.mpr ⟨rfl, rfl⟩⟩

/-- How a name is reserved, and nothing else is changed. -/
structure Opening (reserve : Symbol → Draft → Draft) : Prop where
  reserved : ∀ name draft, (reserve name draft).reserved.Perm (name :: draft.reserved)
  functions : ∀ name draft, (reserve name draft).functions = draft.functions
  nameCount : ∀ name draft, (reserve name draft).nameCount = draft.nameCount

/-- A function that is shared for the first time waits for its code as long as this is compiled. If
that fails, it waits for ever. -/
theorem accounts_shareNew {kind hint : String} {reserve : Symbol → Draft → Draft}
    {parameters : List Symbol} {whole : List Statement → List Statement}
    {body : Drafting (List Statement)} (opening : Opening reserve)
    (codes : Accounts given Statement.callsAll body)
    (wraps : ∀ code, Statement.callsAll (whole code) ⊆ Statement.callsAll code) :
    Accounts given (fun name => [name]) (shareNew kind hint reserve parameters whole body) := by
  intro pending before ledger known
  obtain ⟨name, _, drawn⟩ : ∃ name middle, Yields (freshFunction kind hint) before name middle :=
    ⟨_, _, rfl⟩
  obtain ⟨numbered, rfl⟩ := yields_freshFunction drawn
  let opened := reserve name { before with nameCount := before.nameCount + 1 }
  have reserved : opened.reserved.Perm (name :: before.reserved) := opening.reserved _ _
  have functions : opened.functions = before.functions := opening.functions _ _
  have waits : Ledger (name :: pending) opened :=
    ledger.reserve numbered functions reserved (opening.nameCount _ _)
  have extended : before.Extends opened := by
    refine ⟨fun other listed => reserved.mem_iff.mpr (List.mem_cons_of_mem _ listed), ?_⟩
    rw [Draft.definitions, Draft.definitions, functions]
    exact List.Subset.refl _
  have compiled := codes _ opened waits (List.Subset.trans known extended.reserved)
  have ran : (shareNew kind hint reserve parameters whole body).run before =
      match body.run opened with
      | (.ok code, after) => (.ok name,
          { after with functions := after.functions ++ [.define name parameters (whole code)] })
      | (.error fault, after) => (.error fault, after) := by
    rw [shareNew, run_bind_eq, show (freshFunction kind hint).run before = _ from drawn]
    change ((modify (reserve name) : Drafting Unit) >>= _).run _ = _
    rw [run_bind_eq]
    change (body >>= _).run opened = _
    rw [run_bind_eq]
    rcases body.run opened with ⟨fault | code, after⟩ <;> rfl
  rw [ran]
  generalize body.run opened = ended at compiled ⊢
  rcases ended with ⟨fault | code, after⟩
  · obtain ⟨more, unfinished, kept⟩ := compiled
    refine ⟨extended.trans more, unfinished ++ [name], ?_⟩
    rwa [List.append_assoc, List.singleton_append]
  · obtain ⟨more, kept, held⟩ := compiled
    refine ⟨⟨(extended.trans more).reserved, ?_⟩,
      kept.finish (List.Subset.trans (wraps code) held), ?_⟩
    · rw [definitions_append_define]
      exact List.subset_append_of_subset_left _ (extended.trans more).definitions
    · exact List.cons_subset.mpr
        ⟨more.reserved (reserved.mem_iff.mpr List.mem_cons_self), List.nil_subset _⟩

/-- A draft with one more matcher reserved. -/
def withMatcher (language : Symbol) (pattern : Pattern) (name : Symbol) (draft : Draft) : Draft :=
  { draft with matchers := ((language, pattern), name) :: draft.matchers }

theorem opening_withMatcher (language : Symbol) (pattern : Pattern) :
    Opening (withMatcher language pattern) :=
  ⟨fun _ _ => .refl _, fun _ _ => rfl, fun _ _ => rfl⟩

/-- A draft with one more predicate reserved. -/
def withPredicate (language stem name : Symbol) (draft : Draft) : Draft :=
  { draft with predicates := ((language, stem), name) :: draft.predicates }

theorem opening_withPredicate (language stem : Symbol) : Opening (withPredicate language stem) :=
  ⟨fun _ _ => List.perm_middle, fun _ _ => rfl, fun _ _ => rfl⟩

theorem run_sharedMatcher (language : Symbol) (pattern : Pattern) (kind hint : String)
    (parameters : List Symbol) (body : Drafting (List Statement)) (before : Draft) :
    (sharedMatcher language pattern kind hint parameters body).run before =
      match lookupIn (language, pattern) before.matchers with
      | some name => (.ok name, before)
      | none =>
        (shareNew kind hint (withMatcher language pattern) parameters id body).run before := by
  rw [sharedMatcher, run_bind_eq]
  change (match lookupIn (language, pattern) before.matchers with
    | some name => pure name
    | none => _ : Drafting Symbol).run before = _
  cases lookupIn (language, pattern) before.matchers <;> rfl

theorem accounts_sharedMatcher {language : Symbol} {pattern : Pattern} {kind hint : String}
    {parameters : List Symbol} {body : Drafting (List Statement)}
    (codes : Accounts given Statement.callsAll body) :
    Accounts given (fun name => [name])
      (sharedMatcher language pattern kind hint parameters body) := by
  intro pending before ledger known
  rw [run_sharedMatcher]
  cases found : lookupIn (language, pattern) before.matchers with
  | some name =>
    refine ⟨.refl before, ledger, List.cons_subset.mpr ⟨?_, List.nil_subset _⟩⟩
    exact List.mem_append_left _ (mem_of_lookupIn found)
  | none =>
    exact accounts_shareNew (opening_withMatcher language pattern) codes
      (fun _ => List.Subset.refl _) pending before ledger known

/-- The predicate that is looked up is reserved. -/
theorem accounts_predicate? (language stem : Symbol) :
    Accounts given (fun found => found.toList) (predicate? language stem) := by
  intro pending before ledger known
  change Leaves pending before _ (.ok (lookupIn (language, stem) before.predicates), before)
  refine ⟨.refl before, ledger, fun name listed => ?_⟩
  exact List.mem_append_right _ (mem_of_lookupIn (Option.mem_toList.mp listed))

end Steps

end Draft

end Reduct
