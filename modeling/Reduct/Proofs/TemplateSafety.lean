import Reduct.Machine
import Reduct.Proofs.TemplateMeaning

/-!
# What building a template needs

A template is built from left to right. Where a part of it fails, or calls a function, all parts
before have been built. So what a build needs is said along the way: that a failure of the part is
excused, and that the function may be called on what the parts before have built.
-/

namespace Reduct

namespace Template

/-- The functions that templates may apply and call, and on what. -/
structure Allowance where
  applies : Symbol → Term → Prop
  calls : Symbol → List Term → Prop

/-- Every call is allowed. -/
def Allowance.all : Allowance := ⟨fun _ _ => True, fun _ _ => True⟩

/-- The first two drivers of an ellipsis that differ in their lengths, the first driver being one
of them. -/
def Setting.mismatch? (setting : Setting) (rounds : List Nat) (inner : Template) :
    Option TermError :=
  match walked setting.depths rounds.length inner with
  | [] => none
  | first :: others =>
    (others.find? fun name =>
      (setting.elements rounds name).length ≠ (setting.elements rounds first).length).map
    fun name => .inconsistentCounts (setting.elements rounds first).length
      (setting.elements rounds name).length

/-- It is excused if a template gives a term that has no children and whose children are wanted. -/
def SplicesSafely (excuses : EvalError → Prop) (setting : Setting) (rounds : List Nat)
    (template : Template) : Prop :=
  ∀ content, Builds setting rounds template (.spliced content) → content.children? = none →
    excuses (.term (.wrongKind .sequence content))

section Safe

variable (excuses : EvalError → Prop) (allowance : Allowance) (setting : Setting)

mutual

/-- Whatever goes wrong where a template is built is excused, and the calls are allowed that are
made. -/
def Safe (rounds : List Nat) : Template → Prop
  | .literal _ => True
  | .symbol _ => True
  | .sequence items => SafeAll rounds items ∧
      ∀ function parts terms, applied? setting.depths setting.metafunctions items = some function →
        BuildsAll setting rounds items.tail parts → Part.join parts = some terms →
        allowance.applies function (.sequence terms)
  | .repeated inner =>
      (∀ cause, setting.mismatch? rounds inner = some cause → excuses (.term cause)) ∧
      ∀ count round, (∃ name, setting.Walks rounds.length inner name) →
        setting.Counts rounds inner count → round < count →
        (∀ earlier < round, ∃ part terms, Builds setting (rounds ++ [earlier]) inner part ∧
          part.items? = some terms) →
        Safe (rounds ++ [round]) inner ∧ SplicesSafely excuses setting (rounds ++ [round]) inner
  | .inHole context contents => Safe rounds context ∧
      ∀ outer, Builds setting rounds context outer → Safe rounds contents ∧
        ∀ inner, Builds setting rounds contents inner → outer.whole.plug? inner.whole = none →
          excuses (.term (.noHole outer.whole))
  | .foreign function arguments _ => SafeEach rounds arguments ∧
      ∀ parts, BuildsAll setting rounds arguments parts →
        allowance.calls function (parts.map Part.whole)

/-- The same of templates whose parts enter a sequence. -/
def SafeAll (rounds : List Nat) : List Template → Prop
  | [] => True
  | item :: rest => Safe rounds item ∧ SplicesSafely excuses setting rounds item ∧
      ∀ part terms, Builds setting rounds item part → part.items? = some terms → SafeAll rounds rest

/-- The same of templates that give one term each. -/
def SafeEach (rounds : List Nat) : List Template → Prop
  | [] => True
  | item :: rest => Safe rounds item ∧
      ∀ part, Builds setting rounds item part → SafeEach rounds rest

end

end Safe

variable {excuses : EvalError → Prop} {setting : Setting}

/-- The drivers that differ are variables that the ellipsis walks. -/
theorem Setting.exists_of_mismatch? {rounds : List Nat} {inner : Template} {cause : TermError}
    (mismatch : setting.mismatch? rounds inner = some cause) :
    ∃ first other, setting.Walks rounds.length inner first ∧
      setting.Walks rounds.length inner other ∧
      (setting.elements rounds other).length ≠ (setting.elements rounds first).length ∧
      cause = .inconsistentCounts (setting.elements rounds first).length
        (setting.elements rounds other).length := by
  have walks : ∀ name ∈ walked setting.depths rounds.length inner,
      setting.Walks rounds.length inner name := fun name listed => mem_walked.mp listed
  unfold mismatch? at mismatch
  split at mismatch
  · cases mismatch
  · rename_i first others same
    rw [same] at walks
    obtain ⟨other, found, rfl⟩ := Option.map_eq_some_iff.mp mismatch
    have differ := List.find?_some found
    have listed := List.mem_cons_of_mem first (List.mem_of_find?_eq_some found)
    exact ⟨first, other, walks first List.mem_cons_self, walks other listed,
      of_decide_eq_true differ, rfl⟩

/-- Where every failure is excused, templates are built safely. -/
theorem safe_of_lax (lax : ∀ cause, excuses cause) (template : Template) :
    ∀ rounds : List Nat, Safe excuses .all setting rounds template := by
  have splices : ∀ rounds item, SplicesSafely excuses setting rounds item :=
    fun _ _ _ _ _ => lax _
  have all : ∀ items : List Template,
      (∀ item ∈ items, ∀ rounds : List Nat, Safe excuses .all setting rounds item) →
      ∀ rounds : List Nat, SafeAll excuses .all setting rounds items ∧
        SafeEach excuses .all setting rounds items := by
    intro items
    induction items with
    | nil => exact fun _ _ => ⟨trivial, trivial⟩
    | cons item rest ih =>
      intro each rounds
      obtain ⟨here, later⟩ := List.forall_mem_cons.mp each
      have others := ih later rounds
      exact ⟨⟨here rounds, splices rounds item, fun _ _ _ _ => others.1⟩,
        here rounds, fun _ _ => others.2⟩
  induction template using Template.induction with
  | literal term => exact fun _ => trivial
  | symbol name => exact fun _ => trivial
  | sequence items each => exact fun rounds => ⟨(all items each rounds).1, fun _ _ _ _ _ _ => trivial⟩
  | repeated inner ih =>
    exact fun rounds => ⟨fun _ _ => lax _, fun _ round _ _ _ _ => ⟨ih _, splices _ inner⟩⟩
  | inHole context contents around within =>
    exact fun rounds => ⟨around rounds, fun _ _ => ⟨within rounds, fun _ _ _ => lax _⟩⟩
  | foreign function arguments mode each =>
    exact fun rounds => ⟨(all arguments each rounds).2, fun _ _ => trivial⟩

/-- Drivers that have equally many elements do not differ. -/
theorem Setting.Counts.mismatch?_eq_none {rounds : List Nat} {inner : Template} {count : Nat}
    (counts : setting.Counts rounds inner count) : setting.mismatch? rounds inner = none := by
  have sized : ∀ name, setting.Walks rounds.length inner name →
      (setting.elements rounds name).length = count := by
    intro name walks
    obtain ⟨items, selected, same⟩ := counts name walks
    rw [Setting.elements, selected]
    exact same
  cases mismatch : setting.mismatch? rounds inner with
  | none => rfl
  | some cause =>
    obtain ⟨first, other, one, two, differ, _⟩ := exists_of_mismatch? mismatch
    rw [sized first one, sized other two] at differ
    exact (differ rfl).elim

/-- Drivers of an ellipsis have one length. -/
theorem Setting.Counts.unique {rounds : List Nat} {inner : Template} {count other : Nat}
    (driven : ∃ name, setting.Walks rounds.length inner name)
    (counts : setting.Counts rounds inner count) (again : setting.Counts rounds inner other) :
    count = other := by
  obtain ⟨name, walks⟩ := driven
  obtain ⟨items, selected, rfl⟩ := counts name walks
  obtain ⟨others, found, rfl⟩ := again name walks
  rw [selected] at found
  cases found
  rfl

end Template

end Reduct
