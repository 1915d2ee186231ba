import Reduct.Compile.Matcher
import Reduct.Proofs.Acceptance
import Reduct.Proofs.NumberedNames

/-!
# Drafts that grow

A step of a compilation that succeeds only adds to the draft: constants keep their positions, and
a matcher or predicate that was reserved keeps its name. So what is known when a body is compiled
still holds in every later draft.
-/

namespace Reduct

namespace Draft

/-- A step of a compilation succeeds with a result. -/
def Yields {α : Type} (action : Drafting α) (before : Draft) (result : α) (after : Draft) : Prop :=
  action.run before = (.ok result, after)

section Actions

variable {α β : Type} {before after : Draft}

theorem yields_bind {first : Drafting α} {next : α → Drafting β} {result : β} :
    Yields (first >>= next) before result after ↔
      ∃ value middle, Yields first before value middle ∧ Yields (next value) middle result after :=
  run_bind_eq_ok

theorem yields_pure {value result : α} :
    Yields (pure value) before result after ↔ value = result ∧ before = after :=
  run_pure_eq_ok

theorem yields_get {draft : Draft} :
    Yields get before draft after ↔ before = draft ∧ before = after := by
  change ((.ok before, before) : Except Fault Draft × Draft) = (.ok draft, after) ↔ _
  simp

theorem yields_set {draft : Draft} {result : PUnit} :
    Yields (set draft) before result after ↔ draft = after := by
  change ((.ok ⟨⟩, draft) : Except Fault PUnit × Draft) = (.ok result, after) ↔ _
  simp

theorem yields_modify {change : Draft → Draft} {result : PUnit} :
    Yields (modify change) before result after ↔ change before = after := by
  change ((.ok ⟨⟩, change before) : Except Fault PUnit × Draft) = (.ok result, after) ↔ _
  simp

theorem yields_freshLocal {hint : String} {name : Symbol} :
    Yields (freshLocal hint) before name after ↔
      hint ++ toString before.localCount = name ∧
        { before with localCount := before.localCount + 1 } = after := by
  change ((.ok (hint ++ toString before.localCount),
    { before with localCount := before.localCount + 1 }) : Except Fault Symbol × Draft) =
      (.ok name, after) ↔ _
  simp

/-- A name stands for a constant of the draft. -/
def Names (draft : Draft) (name : Symbol) (term : Term) : Prop :=
  ∃ index, name = constantName index ∧ draft.constants[index]? = some term

/-- A draft that has everything of another one, under the same names. -/
structure Grows (before after : Draft) : Prop where
  constants : before.constants <+: after.constants
  functions : ∀ statement ∈ before.functions, statement ∈ after.functions
  matchers : ∀ key name, lookupIn key before.matchers = some name →
    lookupIn key after.matchers = some name
  predicates : ∀ key name, lookupIn key before.predicates = some name →
    lookupIn key after.predicates = some name
  mentioned : ∀ language name, before.mentioned.find? language = some name →
    after.mentioned.find? language = some name
  localCount : before.localCount ≤ after.localCount

theorem Grows.refl (draft : Draft) : draft.Grows draft :=
  ⟨List.prefix_refl _, fun _ listed => listed, fun _ _ found => found, fun _ _ found => found,
    fun _ _ found => found, Nat.le_refl _⟩

theorem Grows.trans {first second third : Draft} (one : first.Grows second)
    (two : second.Grows third) : first.Grows third where
  constants := one.constants.trans two.constants
  functions statement listed := two.functions statement (one.functions statement listed)
  matchers key name found := two.matchers key name (one.matchers key name found)
  predicates key name found := two.predicates key name (one.predicates key name found)
  mentioned language name found := two.mentioned language name (one.mentioned language name found)
  localCount := Nat.le_trans one.localCount two.localCount

/-- A draft with one more function. -/
theorem grows_addFunction (draft : Draft) (definition : Statement) :
    draft.Grows { draft with functions := draft.functions ++ [definition] } :=
  ⟨List.prefix_refl _, fun _ listed => List.mem_append_left _ listed, fun _ _ found => found,
    fun _ _ found => found, fun _ _ found => found, Nat.le_refl _⟩

theorem Names.grows {name : Symbol} {term : Term} (names : before.Names name term)
    (grows : before.Grows after) : after.Names name term := by
  obtain ⟨index, same, held⟩ := names
  refine ⟨index, same, ?_⟩
  obtain ⟨more, whole⟩ := grows.constants
  rw [← whole, List.getElem?_append_left (List.getElem?_eq_some_iff.mp held).1, held]

/-- A name that ends in a number. -/
def Numbered (name : Symbol) (number : Nat) : Prop :=
  ∃ base : String, EndsPlain base.toList ∧ name = base ++ toString number

theorem endsPlain_underscore (base : String) : EndsPlain (base ++ "_").toList := by
  intro last found
  have ends : (base ++ "_").toList.getLast? = some '_' := by
    rw [String.toList_append]
    exact List.getLast?_concat
  rw [ends] at found
  cases found
  rfl

theorem yields_freshFunction {kind hint : String} {name : Symbol}
    (yields : Yields (freshFunction kind hint) before name after) :
    Numbered name before.nameCount ∧
      after = { before with nameCount := before.nameCount + 1 } := by
  cases yields
  refine ⟨?_, rfl⟩
  split
  · exact ⟨_, endsPlain_underscore kind, rfl⟩
  · exact ⟨_, endsPlain_underscore (kind ++ "_" ++ Symbol.mangle hint), rfl⟩

/-- A constant is where its name says. -/
theorem yields_constant {term : Term} {name : Symbol}
    (yields : Yields (constant term) before name after) :
    before.Grows after ∧ after.Names name term := by
  unfold constant at yields
  obtain ⟨_, _, got, yields⟩ := yields_bind.mp yields
  obtain ⟨rfl, rfl⟩ := yields_get.mp got
  split at yields
  · rename_i index found
    obtain ⟨rfl, rfl⟩ := yields_pure.mp yields
    refine ⟨.refl before, index, rfl, ?_⟩
    obtain ⟨bound, same, _⟩ := List.findIdx?_eq_some_iff_getElem.mp found
    rw [List.getElem?_eq_getElem bound, of_decide_eq_true same]
  · obtain ⟨_, _, kept, yields⟩ := yields_bind.mp yields
    obtain rfl := yields_set.mp kept
    obtain ⟨rfl, rfl⟩ := yields_pure.mp yields
    refine ⟨⟨List.prefix_append _ _, fun _ listed => listed, fun _ _ found => found,
      fun _ _ found => found, fun _ _ found => found, Nat.le_refl _⟩, before.constants.length,
      rfl, ?_⟩
    exact List.getElem?_concat_length

theorem lookupIn_cons {κ : Type} [DecidableEq κ] (key other : κ) (name : Symbol)
    (entries : List (κ × Symbol)) :
    lookupIn key ((other, name) :: entries) =
      if other = key then some name else lookupIn key entries := by
  unfold lookupIn
  rw [List.find?_cons]
  by_cases same : other = key <;> simp [same]

/-- A new entry for a key without one keeps all others. -/
theorem lookupIn_cons_of_none {κ : Type} [DecidableEq κ] {key other : κ} {name found : Symbol}
    {entries : List (κ × Symbol)} (free : lookupIn other entries = none)
    (known : lookupIn key entries = some found) :
    lookupIn key ((other, name) :: entries) = some found := by
  rw [lookupIn_cons, if_neg, known]
  intro same
  rw [same, known] at free
  cases free

/-- The constant of the literal variables is reserved for the language. -/
theorem yields_mentionedConstant {language name : Symbol} {mentioned : SymbolSet}
    (yields : Yields (mentionedConstant language mentioned) before name after) :
    before.Grows after ∧ after.mentioned.find? language = some name := by
  unfold mentionedConstant at yields
  obtain ⟨_, _, got, yields⟩ := yields_bind.mp yields
  obtain ⟨rfl, rfl⟩ := yields_get.mp got
  split at yields
  · rename_i found
    obtain ⟨rfl, rfl⟩ := yields_pure.mp yields
    exact ⟨.refl before, found⟩
  · rename_i free
    obtain ⟨other, middle, made, yields⟩ := yields_bind.mp yields
    have same : middle.mentioned = before.mentioned := by
      unfold constant at made
      obtain ⟨_, _, got, made⟩ := yields_bind.mp made
      obtain ⟨rfl, rfl⟩ := yields_get.mp got
      split at made
      · obtain ⟨_, rfl⟩ := yields_pure.mp made
        rfl
      · obtain ⟨_, _, kept, made⟩ := yields_bind.mp made
        obtain rfl := yields_set.mp kept
        obtain ⟨_, rfl⟩ := yields_pure.mp made
        rfl
    obtain ⟨_, _, changed, yields⟩ := yields_bind.mp yields
    obtain rfl := yields_modify.mp changed
    obtain ⟨rfl, rfl⟩ := yields_pure.mp yields
    refine ⟨(yields_constant made).1.trans ⟨List.prefix_refl _, fun _ listed => listed,
      fun _ _ found => found, fun _ _ found => found, ?_, Nat.le_refl _⟩,
      Table.find?_insert_self _ _ _⟩
    intro key found known
    change (middle.mentioned.insert language other).find? key = some found
    rw [Table.find?_insert, if_neg, known]
    intro equal
    rw [← equal, same, free] at known
    cases known

/-- A step that only adds to a draft, and that succeeds on good drafts and keeps them good. -/
structure Steady (good : Draft → Prop) (action : Drafting α) : Prop where
  grows : ∀ before result after, Yields action before result after → before.Grows after
  succeeds : ∀ before, good before → ∃ result after, Yields action before result after ∧ good after

variable {good : Draft → Prop}

theorem Steady.pure (value : α) : Steady good (Pure.pure value : Drafting α) where
  grows := by
    intro before result after yields
    obtain ⟨_, rfl⟩ := yields_pure.mp yields
    exact .refl before
  succeeds before fine := ⟨value, before, rfl, fine⟩

/-- Steps are steady one after the other, if the second is for what the first may give. -/
theorem Steady.bindOf {first : Drafting α} {next : α → Drafting β} (one : Steady good first)
    (two : ∀ before value after, Yields first before value after → Steady good (next value)) :
    Steady good (first >>= next) where
  grows := by
    intro before result after yields
    obtain ⟨value, middle, here, there⟩ := yields_bind.mp yields
    exact (one.grows before value middle here).trans
      ((two before value middle here).grows middle result after there)
  succeeds := by
    intro before fine
    obtain ⟨value, middle, here, still⟩ := one.succeeds before fine
    obtain ⟨result, after, there, last⟩ := (two before value middle here).succeeds middle still
    exact ⟨result, after, yields_bind.mpr ⟨value, middle, here, there⟩, last⟩

theorem Steady.bind {first : Drafting α} {next : α → Drafting β} (one : Steady good first)
    (two : ∀ value, Steady good (next value)) : Steady good (first >>= next) :=
  one.bindOf fun _ value _ _ => two value

/-- Drafts stay good when local names are drawn and constants are added. -/
structure Stable (good : Draft → Prop) : Prop where
  locals : ∀ draft, good draft → good { draft with localCount := draft.localCount + 1 }
  constants : ∀ draft term, good draft → good { draft with constants := draft.constants ++ [term] }

theorem Stable.freshLocal (stable : Stable good) (hint : String) :
    Steady good (freshLocal hint) where
  grows := by
    intro before name after yields
    obtain ⟨_, rfl⟩ := yields_freshLocal.mp yields
    exact ⟨List.prefix_refl _, fun _ listed => listed, fun _ _ found => found,
      fun _ _ found => found, fun _ _ found => found, Nat.le_succ _⟩
  succeeds before fine := ⟨_, _, rfl, stable.locals before fine⟩

theorem Stable.constant (stable : Stable good) (term : Term) : Steady good (constant term) where
  grows _ _ _ yields := (yields_constant yields).1
  succeeds := by
    intro before fine
    cases found : before.constants.findIdx? fun known => known = term with
    | some index =>
      refine ⟨constantName index, before, ?_, fine⟩
      unfold Draft.constant
      refine yields_bind.mpr ⟨before, before, rfl, ?_⟩
      rw [found]
      rfl
    | none =>
      refine ⟨constantName before.constants.length, _, ?_, stable.constants before term fine⟩
      unfold Draft.constant
      refine yields_bind.mpr ⟨before, before, rfl, ?_⟩
      rw [found]
      rfl

end Actions

end Draft

end Reduct
