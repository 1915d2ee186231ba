import Reduct.Machine.Value
import Reduct.Proofs.Drafts

/-!
# Local names

The local variables of compiled code have names with ascending numbers. Code that is compiled
later assigns to names with greater numbers only, so it leaves the variables of the code around
it, the parameters and the constants alone.
-/

namespace Reduct

/-- A local name with a number. The hint of constants is not used for local names. -/
def Slot (name : Symbol) (number : Nat) : Prop :=
  ∃ hint : String, EndsPlain hint.toList ∧ hint ≠ "lit" ∧ name = hint ++ toString number

/-- A name that is no local name with a number from a given one on. -/
def Older (count : Nat) (name : Symbol) : Prop := ∀ number, count ≤ number → ¬ Slot name number

theorem Slot.older {name : Symbol} {number count : Nat} (slot : Slot name number)
    (below : number < count) : Older count name := by
  rintro other above ⟨hint, plain, _, same⟩
  obtain ⟨word, bare, _, rfl⟩ := slot
  have equal := (append_toString_inj bare plain same).2
  omega

theorem older_of_endsPlain {name : Symbol} (plain : EndsPlain name.toList) (count : Nat) :
    Older count name := by
  rintro number _ ⟨hint, _, _, rfl⟩
  exact not_endsPlain_append_toString hint number plain

theorem older_constantName (index count : Nat) : Older count (Draft.constantName index) := by
  rintro number _ ⟨hint, plain, other, same⟩
  exact other (append_toString_inj (by decide) plain same).1.symm

theorem Older.mono {name : Symbol} {fewer count : Nat} (older : Older fewer name)
    (le : fewer ≤ count) : Older count name :=
  fun number above => older number (Nat.le_trans le above)

theorem Older.ne {name other : Symbol} {count number : Nat} (older : Older count name)
    (slot : Slot other number) (above : count ≤ number) : other ≠ name := by
  rintro rfl
  exact older number above slot

theorem Slot.not_older {name : Symbol} {number count : Nat} (slot : Slot name number)
    (above : count ≤ number) : ¬ Older count name :=
  fun older => older number above slot

theorem Slot.ne {first second : Symbol} {left right : Nat} (one : Slot first left)
    (two : Slot second right) (differ : left ≠ right) : first ≠ second := by
  obtain ⟨hint, plain, _, rfl⟩ := one
  obtain ⟨other, bare, _, rfl⟩ := two
  exact fun same => differ (append_toString_inj plain bare same).2

/-- A local name that is drawn has the next number. -/
theorem slot_of_freshLocal {hint : String} (plain : EndsPlain hint.toList) (other : hint ≠ "lit")
    {before after : Draft} {name : Symbol}
    (yields : Draft.Yields (Draft.freshLocal hint) before name after) :
    Slot name before.localCount ∧ after = { before with localCount := before.localCount + 1 } := by
  obtain ⟨rfl, rfl⟩ := Draft.yields_freshLocal.mp yields
  exact ⟨⟨hint, plain, other, rfl⟩, rfl⟩

/-- The draft after a number of local names were drawn. -/
def Draft.skip (draft : Draft) (drawn : Nat) : Draft :=
  { draft with localCount := draft.localCount + drawn }

theorem Draft.skip_zero (draft : Draft) : draft.skip 0 = draft := rfl

theorem Draft.localCount_skip (draft : Draft) (drawn : Nat) :
    (draft.skip drawn).localCount = draft.localCount + drawn := rfl

theorem Draft.grows_skip (draft : Draft) (drawn : Nat) : draft.Grows (draft.skip drawn) :=
  ⟨List.prefix_refl _, fun _ listed => listed, fun _ _ found => found, fun _ _ found => found,
    fun _ _ found => found, Nat.le_add_right _ _⟩

/-- The first step of a computation draws a local name. -/
theorem yields_local {α : Type} {hint : String} (plain : EndsPlain hint.toList)
    (other : hint ≠ "lit") {rest : Symbol → Drafting α} {before after : Draft} {drawn : Nat}
    {result : α}
    (yields : Draft.Yields (Draft.freshLocal hint >>= rest) (before.skip drawn) result after) :
    ∃ name, Slot name (before.localCount + drawn) ∧
      Draft.Yields (rest name) (before.skip (drawn + 1)) result after := by
  obtain ⟨name, middle, named, later⟩ := Draft.yields_bind.mp yields
  obtain ⟨slot, rfl⟩ := slot_of_freshLocal plain other named
  exact ⟨name, slot, later⟩

/-- Variables that are as before under some names. -/
def Agrees (kept : Symbol → Prop) (before after : Table Value) : Prop :=
  ∀ name, kept name → after.find? name = before.find? name

theorem Agrees.trans {kept : Symbol → Prop} {first second third : Table Value}
    (one : Agrees kept first second) (two : Agrees kept second third) : Agrees kept first third :=
  fun name listed => (two name listed).trans (one name listed)

theorem Agrees.insert {kept : Symbol → Prop} {before after : Table Value} {name : Symbol}
    (agrees : Agrees kept before after) (free : ¬ kept name) (value : Value) :
    Agrees kept before (after.insert name value) := by
  intro other listed
  have away : name ≠ other := by
    rintro rfl
    exact free listed
  rw [Table.find?_insert, if_neg away]
  exact agrees other listed

theorem Agrees.refl (kept : Symbol → Prop) (locals : Table Value) : Agrees kept locals locals :=
  fun _ _ => rfl

theorem Agrees.mono {kept fewer : Symbol → Prop} {before after : Table Value}
    (agrees : Agrees kept before after) (within : ∀ name, fewer name → kept name) :
    Agrees fewer before after :=
  fun name listed => agrees name (within name listed)

/-- Old names and one more. -/
def OlderOr (count : Nat) (name other : Symbol) : Prop := Older count other ∨ other = name

theorem OlderOr.mono {fewer count : Nat} {name other : Symbol} (listed : OlderOr fewer name other)
    (le : fewer ≤ count) : OlderOr count name other :=
  listed.imp_left fun older => older.mono le

theorem Slot.not_olderOr {name other : Symbol} {number count : Nat} (slot : Slot name number)
    (above : count ≤ number) (apart : name ≠ other) : ¬ OlderOr count other name := by
  rintro (older | same)
  · exact slot.not_older above older
  · exact apart same

/-- Variables that are as before, but for local names from a number on. -/
def Fixes (count : Nat) (before after : Table Value) : Prop := Agrees (Older count) before after

theorem Fixes.refl (count : Nat) (locals : Table Value) : Fixes count locals locals :=
  fun _ _ => rfl

theorem Fixes.trans {count : Nat} {first second third : Table Value}
    (one : Fixes count first second) (two : Fixes count second third) :
    Fixes count first third :=
  Agrees.trans one two

theorem Fixes.mono {fewer count : Nat} {before after : Table Value}
    (fixes : Fixes count before after) (le : fewer ≤ count) : Fixes fewer before after :=
  fun name older => fixes name (older.mono le)

theorem Fixes.insert {count number : Nat} {before after : Table Value} {name : Symbol}
    (fixes : Fixes count before after) (slot : Slot name number) (above : count ≤ number)
    (value : Value) : Fixes count before (after.insert name value) :=
  Agrees.insert fixes (slot.not_older above) value

/-- One more name is fixed if its number is smaller. -/
theorem Fixes.olderOr {fewer count number : Nat} {before after : Table Value} {name : Symbol}
    (fixes : Fixes count before after) (le : fewer ≤ count) (slot : Slot name number)
    (below : number < count) : Agrees (OlderOr fewer name) before after := by
  rintro other (older | rfl)
  · exact fixes other (older.mono le)
  · exact fixes other (slot.older below)

/-- Names with consecutive numbers. -/
def Slots (start : Nat) : List Symbol → Prop
  | [] => True
  | name :: rest => Slot name start ∧ Slots (start + 1) rest

theorem Slots.exists_slot {start : Nat} {names : List Symbol} (slots : Slots start names)
    {name : Symbol} (listed : name ∈ names) : ∃ number, start ≤ number ∧ Slot name number := by
  induction names generalizing start with
  | nil => cases listed
  | cons first rest ih =>
    rcases List.mem_cons.mp listed with rfl | later
    · exact ⟨start, Nat.le_refl _, slots.1⟩
    · obtain ⟨number, above, slot⟩ := ih slots.2 later
      exact ⟨number, by omega, slot⟩

/-- Names with consecutive numbers are distinct, and other than older names. -/
theorem Slots.distinct {start : Nat} {names older : List Symbol} (slots : Slots start names)
    (apart : older.Pairwise fun earlier later => later ≠ earlier)
    (before : ∀ name ∈ older, Older start name) :
    (older ++ names).Pairwise fun earlier later => later ≠ earlier := by
  refine List.pairwise_append.mpr ⟨apart, ?_, ?_⟩
  · clear before apart
    induction names generalizing start with
    | nil => exact .nil
    | cons first rest ih =>
      refine List.pairwise_cons.mpr ⟨?_, ih slots.2⟩
      intro later listed
      obtain ⟨number, above, slot⟩ := slots.2.exists_slot listed
      exact slot.ne slots.1 (by omega)
  · intro earlier known later listed
    obtain ⟨number, above, slot⟩ := slots.exists_slot listed
    exact (before earlier known).ne slot above

end Reduct
