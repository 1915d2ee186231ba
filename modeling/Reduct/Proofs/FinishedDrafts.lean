import Mathlib.Data.List.Nodup
import Reduct.Proofs.Emission

/-!
# Finished drafts

The invariant of a compilation: every name that was given out is used once, and a matcher or
predicate that is reserved is either still compiled or finished. It holds of the empty draft and
is kept by every step, so that after a successful compilation nothing is left unfinished.
-/

namespace Reduct

namespace Draft

open Matcher

/-- The matcher of a pattern is finished: its body was compiled in an earlier draft. -/
def HasMatcher (language : Language) (draft : Draft) (pattern : Pattern) (name : Symbol) : Prop :=
  ∃ fuel before body after,
    Yields (bodyWith language (predicate language fuel) pattern) before body after ∧
      after.Grows draft ∧ .define name parameters body ∈ draft.functions

/-- The predicate of a rule is finished. -/
def HasPredicate (language : Language) (draft : Draft) (stem name : Symbol) : Prop :=
  ∃ rule fuel before tests after, language.rule? stem = some rule ∧
    Yields (alternativeTests (compileWith language (predicate language fuel)) env
      rule.alternatives) before tests after ∧
      after.Grows draft ∧ .define name [whole] (predicateBody tests) ∈ draft.functions

/-- The names of the finished functions. -/
def definitions (draft : Draft) : List Symbol :=
  draft.functions.filterMap fun statement =>
    match statement with
    | .define name .. => some name
    | _ => none

/-- The names of the matchers and predicates. -/
def reserved (draft : Draft) : List Symbol :=
  draft.matchers.map (·.2) ++ draft.predicates.map (·.2)

/-- The invariant of a compilation for some languages. The list holds the names that are reserved
and not finished. -/
structure Sound (languages : Language → Prop) (pending : List Symbol) (draft : Draft) : Prop where
  /-- A name is finished once, and not while it is pending. -/
  named : (pending ++ draft.definitions).Nodup
  /-- A name is reserved once. -/
  once : draft.reserved.Nodup
  numbered : ∀ name ∈ pending ++ draft.definitions ++ draft.reserved,
    ∃ number < draft.nameCount, Numbered name number
  matchers : ∀ language, languages language → ∀ pattern name,
    lookupIn (language.name, pattern) draft.matchers = some name →
    name ∈ pending ∨ HasMatcher language draft pattern name
  predicates : ∀ language, languages language → ∀ stem name,
    lookupIn (language.name, stem) draft.predicates = some name →
    name ∈ pending ∨ HasPredicate language draft stem name
  mentioned : ∀ language, languages language → ∀ name,
    draft.mentioned.find? language.name = some name →
    draft.Names name (.sequence (language.mentioned.members.map Term.symbol))

theorem sound_empty (languages : Language → Prop) : Sound languages [] .empty where
  named := List.nodup_nil
  once := List.nodup_nil
  numbered := nofun
  matchers _ _ _ _ found := nomatch found
  predicates _ _ _ _ found := nomatch found
  mentioned _ _ _ found := nomatch found

section Keeping

variable {languages : Language → Prop} {pending : List Symbol} {draft after : Draft}
  {language : Language}

theorem HasMatcher.grows {pattern : Pattern} {name : Symbol}
    (has : HasMatcher language draft pattern name) (grows : draft.Grows after) :
    HasMatcher language after pattern name := by
  obtain ⟨fuel, before, body, last, yields, earlier, listed⟩ := has
  exact ⟨fuel, before, body, last, yields, earlier.trans grows, grows.functions _ listed⟩

theorem HasPredicate.grows {stem name : Symbol} (has : HasPredicate language draft stem name)
    (grows : draft.Grows after) : HasPredicate language after stem name := by
  obtain ⟨rule, fuel, before, tests, last, found, yields, earlier, listed⟩ := has
  exact ⟨rule, fuel, before, tests, last, found, yields, earlier.trans grows,
    grows.functions _ listed⟩

/-- Names with different numbers differ. -/
theorem Numbered.ne {first second : Symbol} {left right : Nat} (one : Numbered first left)
    (two : Numbered second right) (differ : left ≠ right) : first ≠ second := by
  obtain ⟨base, plain, rfl⟩ := one
  obtain ⟨other, bare, rfl⟩ := two
  exact fun same => differ (append_toString_inj plain bare same).2

/-- A name with the next number is new. -/
theorem Sound.fresh (sound : Sound languages pending draft) {name : Symbol}
    (numbered : Numbered name draft.nameCount) :
    name ∉ pending ++ draft.definitions ++ draft.reserved := by
  intro listed
  obtain ⟨number, below, other⟩ := sound.numbered name listed
  exact numbered.ne other (Nat.ne_of_gt below) rfl

theorem Sound.unreserved (sound : Sound languages pending draft) {name : Symbol}
    (numbered : Numbered name draft.nameCount) : name ∉ draft.reserved :=
  fun listed => sound.fresh numbered (List.mem_append_right _ listed)

/-- A draft with other local names and constants, and possibly constants of literal variables, is
as sound. -/
theorem Sound.retain (sound : Sound languages pending draft) (grows : draft.Grows after)
    (functions : after.functions = draft.functions) (matchers : after.matchers = draft.matchers)
    (predicates : after.predicates = draft.predicates)
    (nameCount : after.nameCount = draft.nameCount)
    (mentioned : ∀ language, languages language → ∀ name,
      after.mentioned.find? language.name = some name →
      after.Names name (.sequence (language.mentioned.members.map Term.symbol))) :
    Sound languages pending after := by
  have definitions : after.definitions = draft.definitions := by
    unfold Draft.definitions
    rw [functions]
  have reserved : after.reserved = draft.reserved := by
    unfold Draft.reserved
    rw [matchers, predicates]
  refine ⟨?_, ?_, ?_, ?_, ?_, mentioned⟩
  · rw [definitions]
    exact sound.named
  · rw [reserved]
    exact sound.once
  · rw [definitions, reserved, nameCount]
    exact sound.numbered
  · intro language listed pattern name found
    rw [matchers] at found
    exact (sound.matchers language listed pattern name found).imp_right (·.grows grows)
  · intro language listed stem name found
    rw [predicates] at found
    exact (sound.predicates language listed stem name found).imp_right (·.grows grows)

theorem stable_sound (pending : List Symbol) : Stable (Sound languages pending) where
  locals := by
    intro draft sound
    have grows : draft.Grows { draft with localCount := draft.localCount + 1 } :=
      ⟨List.prefix_refl _, fun _ listed => listed, fun _ _ found => found, fun _ _ found => found,
        fun _ _ found => found, Nat.le_succ _⟩
    exact sound.retain grows rfl rfl rfl rfl fun language listed name found =>
      (sound.mentioned language listed name found).grows grows
  constants := by
    intro draft term sound
    have grows : draft.Grows { draft with constants := draft.constants ++ [term] } :=
      ⟨List.prefix_append _ _, fun _ listed => listed, fun _ _ found => found,
        fun _ _ found => found, fun _ _ found => found, Nat.le_refl _⟩
    exact sound.retain grows rfl rfl rfl rfl fun language listed name found =>
      (sound.mentioned language listed name found).grows grows

/-- The languages of a compilation are told apart by their names. -/
def Apart (languages : Language → Prop) : Prop :=
  ∀ first second, languages first → languages second → first.name = second.name → first = second

theorem constant_mentioned {term : Term} {name : Symbol}
    (yields : Yields (constant term) draft name after) :
    after.functions = draft.functions ∧ after.matchers = draft.matchers ∧
      after.predicates = draft.predicates ∧ after.nameCount = draft.nameCount ∧
      after.mentioned = draft.mentioned := by
  unfold constant at yields
  obtain ⟨_, _, got, yields⟩ := yields_bind.mp yields
  obtain ⟨rfl, rfl⟩ := yields_get.mp got
  split at yields
  · obtain ⟨_, rfl⟩ := yields_pure.mp yields
    exact ⟨rfl, rfl, rfl, rfl, rfl⟩
  · obtain ⟨_, _, kept, yields⟩ := yields_bind.mp yields
    obtain rfl := yields_set.mp kept
    obtain ⟨_, rfl⟩ := yields_pure.mp yields
    exact ⟨rfl, rfl, rfl, rfl, rfl⟩

/-- The constant of the literal variables of a language can be asked for. -/
theorem steady_mentionedConstant (apart : Apart languages) (listed : languages language)
    (pending : List Symbol) :
    Steady (Sound languages pending) (mentionedConstant language.name language.mentioned) where
  grows _ _ _ yields := (yields_mentionedConstant yields).1
  succeeds := by
    intro before sound
    cases found : before.mentioned.find? language.name with
    | some name =>
      refine ⟨name, before, ?_, sound⟩
      unfold mentionedConstant
      refine yields_bind.mpr ⟨before, before, yields_get.mpr ⟨rfl, rfl⟩, ?_⟩
      rw [found]
      exact yields_pure.mpr ⟨rfl, rfl⟩
    | none =>
      obtain ⟨name, middle, made, still⟩ := ((stable_sound pending).constant
        (.sequence (language.mentioned.members.map Term.symbol))).succeeds before sound
      obtain ⟨functions, matchers, predicates, nameCount, mentioned⟩ := constant_mentioned made
      have yields : Yields (mentionedConstant language.name language.mentioned) before name
          { middle with mentioned := middle.mentioned.insert language.name name } := by
        unfold mentionedConstant
        refine yields_bind.mpr ⟨before, before, yields_get.mpr ⟨rfl, rfl⟩, ?_⟩
        rw [found]
        exact yields_bind.mpr ⟨name, middle, made,
          yields_bind.mpr ⟨⟨⟩, _, yields_modify.mpr rfl, yields_pure.mpr ⟨rfl, rfl⟩⟩⟩
      obtain ⟨grows, _⟩ := yields_mentionedConstant yields
      refine ⟨name, _, yields, sound.retain grows functions matchers predicates nameCount ?_⟩
      intro other known word bound
      change (middle.mentioned.insert language.name name).find? other.name = some word at bound
      rw [Table.find?_insert] at bound
      split at bound
      · rename_i same
        cases bound
        rw [apart other language known listed same.symm]
        exact (yields_constant made).2
      · rw [mentioned] at bound
        exact (sound.mentioned other known word bound).grows grows

/-- The key of a name in a list where every name stands once. -/
theorem key_unique {κ : Type} [DecidableEq κ] {entries : List (κ × Symbol)}
    (once : (entries.map (·.2)).Nodup) {first second : κ} {name : Symbol}
    (one : lookupIn first entries = some name) (two : lookupIn second entries = some name) :
    first = second := by
  have listed : ∀ key, lookupIn key entries = some name → (key, name) ∈ entries := by
    intro key found
    obtain ⟨entry, there, same⟩ := Option.map_eq_some_iff.mp found
    have passed := List.find?_some there
    rw [decide_eq_true_eq] at passed
    rw [← passed, ← same]
    exact List.mem_of_find?_eq_some there
  have equal := List.inj_on_of_nodup_map once (listed first one) (listed second two) rfl
  exact congrArg Prod.fst equal

theorem mem_of_lookupIn {κ : Type} [DecidableEq κ] {entries : List (κ × Symbol)} {key : κ}
    {name : Symbol} (found : lookupIn key entries = some name) : name ∈ entries.map (·.2) := by
  obtain ⟨entry, there, rfl⟩ := Option.map_eq_some_iff.mp found
  exact List.mem_map_of_mem (List.mem_of_find?_eq_some there)

/-- A new name can be reserved. -/
theorem Sound.reserve (sound : Sound languages pending draft) {name : Symbol}
    (numbered : Numbered name draft.nameCount) (grows : draft.Grows after)
    (functions : after.functions = draft.functions)
    (nameCount : after.nameCount = draft.nameCount + 1)
    (once : after.reserved.Nodup)
    (reserved : ∀ other ∈ after.reserved, other = name ∨ other ∈ draft.reserved)
    (matchers : ∀ key found, lookupIn key after.matchers = some found →
      found = name ∨ lookupIn key draft.matchers = some found)
    (predicates : ∀ key found, lookupIn key after.predicates = some found →
      found = name ∨ lookupIn key draft.predicates = some found)
    (mentioned : after.mentioned = draft.mentioned) : Sound languages (name :: pending) after := by
  have unused : name ∉ pending ++ draft.definitions :=
    fun listed => sound.fresh numbered (List.mem_append_left _ listed)
  have definitions : after.definitions = draft.definitions := by
    unfold Draft.definitions
    rw [functions]
  refine ⟨?_, ?_, ?_, ?_, ?_, ?_⟩
  · rw [definitions]
    exact List.nodup_cons.mpr ⟨unused, sound.named⟩
  · exact once
  · intro other listed
    have split : other = name ∨ other ∈ pending ++ draft.definitions ++ draft.reserved := by
      have known := reserved other
      rw [definitions] at listed
      simp only [List.mem_append, List.mem_cons] at listed ⊢
      tauto
    rw [nameCount]
    rcases split with rfl | earlier
    · exact ⟨draft.nameCount, Nat.lt_succ_self _, numbered⟩
    · obtain ⟨number, below, known⟩ := sound.numbered other earlier
      exact ⟨number, Nat.lt_succ_of_lt below, known⟩
  · intro language listed pattern other found
    rcases matchers _ _ found with rfl | known
    · exact .inl List.mem_cons_self
    · exact (sound.matchers language listed pattern other known).imp
        (List.mem_cons_of_mem _) (·.grows grows)
  · intro language listed stem other found
    rcases predicates _ _ found with rfl | known
    · exact .inl List.mem_cons_self
    · exact (sound.predicates language listed stem other known).imp
        (List.mem_cons_of_mem _) (·.grows grows)
  · intro language listed other found
    rw [mentioned] at found
    exact (sound.mentioned language listed other found).grows grows

theorem lookupIn_cons_cases {κ : Type} [DecidableEq κ] {key other : κ} {name found : Symbol}
    {entries : List (κ × Symbol)} (known : lookupIn key ((other, name) :: entries) = some found) :
    found = name ∨ lookupIn key entries = some found := by
  rw [lookupIn_cons] at known
  split at known
  · cases known
    exact .inl rfl
  · exact .inr known

theorem Sound.reserveMatcher (sound : Sound languages pending draft) {key : Symbol × Pattern}
    (free : lookupIn key draft.matchers = none) {name : Symbol}
    (numbered : Numbered name draft.nameCount) :
    Sound languages (name :: pending) { draft with
      nameCount := draft.nameCount + 1
      matchers := (key, name) :: draft.matchers } :=
  sound.reserve numbered ⟨List.prefix_refl _, fun _ listed => listed,
    fun _ _ known => lookupIn_cons_of_none free known, fun _ _ found => found,
    fun _ _ found => found, Nat.le_refl _⟩ rfl rfl
    (List.nodup_cons.mpr ⟨sound.unreserved numbered, sound.once⟩)
    (fun _ listed => List.mem_cons.mp listed) (fun _ _ found => lookupIn_cons_cases found)
    (fun _ _ found => .inr found) rfl

theorem Sound.reservePredicate (sound : Sound languages pending draft) {key : Symbol × Symbol}
    (free : lookupIn key draft.predicates = none) {name : Symbol}
    (numbered : Numbered name draft.nameCount) :
    Sound languages (name :: pending) { draft with
      nameCount := draft.nameCount + 1
      predicates := (key, name) :: draft.predicates } :=
  sound.reserve numbered ⟨List.prefix_refl _, fun _ listed => listed, fun _ _ found => found,
    fun _ _ known => lookupIn_cons_of_none free known, fun _ _ found => found, Nat.le_refl _⟩
    rfl rfl (List.perm_middle.nodup_iff.mpr
      (List.nodup_cons.mpr ⟨sound.unreserved numbered, sound.once⟩))
    (fun _ listed => List.mem_cons.mp (List.perm_middle.mem_iff.mp listed))
    (fun _ _ found => .inr found) (fun _ _ found => lookupIn_cons_cases found) rfl

/-- A new name can be drawn for a function that is not shared. -/
theorem Sound.draw (sound : Sound languages pending draft) {name : Symbol}
    (numbered : Numbered name draft.nameCount) :
    Sound languages (name :: pending) { draft with nameCount := draft.nameCount + 1 } :=
  sound.reserve numbered ⟨List.prefix_refl _, fun _ listed => listed, fun _ _ found => found,
    fun _ _ found => found, fun _ _ found => found, Nat.le_refl _⟩ rfl rfl sound.once
    (fun _ listed => .inr listed) (fun _ _ found => .inr found) (fun _ _ found => .inr found) rfl

/-- A pending name is finished once its function is there. -/
theorem Sound.finish {name : Symbol} (sound : Sound languages (name :: pending) draft)
    {parameters : List Symbol} {body : List Statement}
    (finished : { draft with
      functions := draft.functions ++ [.define name parameters body] } = after)
    (matcher : ∀ language, languages language → ∀ pattern,
      lookupIn (language.name, pattern) draft.matchers = some name →
      HasMatcher language after pattern name)
    (predicate : ∀ language, languages language → ∀ stem,
      lookupIn (language.name, stem) draft.predicates = some name →
      HasPredicate language after stem name) : Sound languages pending after := by
  have grows : draft.Grows after := by
    rw [← finished]
    exact ⟨List.prefix_refl _, fun _ listed => List.mem_append_left _ listed,
      fun _ _ found => found, fun _ _ found => found, fun _ _ found => found, Nat.le_refl _⟩
  have definitions : after.definitions = draft.definitions ++ [name] := by
    rw [← finished]
    exact List.filterMap_append
  have moved : (pending ++ after.definitions).Perm (name :: pending ++ draft.definitions) := by
    rw [definitions, ← List.append_assoc]
    exact List.perm_append_singleton _ _
  refine ⟨?_, ?_, ?_, ?_, ?_, ?_⟩
  · exact moved.nodup_iff.mpr sound.named
  · rw [← finished]
    exact sound.once
  · intro other listed
    have known := sound.numbered other
    rw [← finished] at listed ⊢
    refine known ?_
    simp only [List.mem_append] at listed ⊢
    rcases listed with here | there
    · exact .inl (List.mem_append.mp (moved.mem_iff.mp (List.mem_append.mpr (finished ▸ here))))
    · exact .inr there
  · intro language listed pattern other found
    have known : lookupIn (language.name, pattern) draft.matchers = some other := by
      rw [← finished] at found
      exact found
    rcases sound.matchers language listed pattern other known with here | has
    · rcases List.mem_cons.mp here with rfl | later
      · exact .inr (matcher language listed pattern known)
      · exact .inl later
    · exact .inr (has.grows grows)
  · intro language listed stem other found
    have known : lookupIn (language.name, stem) draft.predicates = some other := by
      rw [← finished] at found
      exact found
    rcases sound.predicates language listed stem other known with here | has
    · rcases List.mem_cons.mp here with rfl | later
      · exact .inr (predicate language listed stem known)
      · exact .inl later
    · exact .inr (has.grows grows)
  · intro language listed other found
    refine (sound.mentioned language listed other ?_).grows grows
    rw [← finished] at found
    exact found

end Keeping

/-- The number of rules of a language without a predicate. -/
def unreserved (language : Language) (draft : Draft) : Nat :=
  (language.rules.filter fun rule =>
    (lookupIn (language.name, rule.name) draft.predicates).isNone).length

theorem unreserved_le {language : Language} {before after : Draft} (grows : before.Grows after) :
    unreserved language after ≤ unreserved language before := by
  refine List.Sublist.length_le (List.monotone_filter_right _ ?_)
  intro rule free
  cases found : lookupIn (language.name, rule.name) before.predicates with
  | none => rfl
  | some name =>
    rw [grows.predicates _ _ found] at free
    cases free

/-- A rule that is reserved is no longer counted. -/
theorem unreserved_lt {language : Language} {before after : Draft} (grows : before.Grows after)
    {rule : Rule} (listed : rule ∈ language.rules)
    (free : lookupIn (language.name, rule.name) before.predicates = none) {name : Symbol}
    (taken : lookupIn (language.name, rule.name) after.predicates = some name) :
    unreserved language after < unreserved language before := by
  have fewer : (language.rules.filter fun rule =>
      (lookupIn (language.name, rule.name) after.predicates).isNone).Sublist
      (language.rules.filter fun rule =>
        (lookupIn (language.name, rule.name) before.predicates).isNone) := by
    refine List.monotone_filter_right _ ?_
    intro other unknown
    cases found : lookupIn (language.name, other.name) before.predicates with
    | none => rfl
    | some name =>
      rw [grows.predicates _ _ found] at unknown
      cases unknown
  refine Nat.lt_of_le_of_ne fewer.length_le ?_
  intro equal
  have same := fewer.eq_of_length equal
  have here : rule ∈ language.rules.filter fun rule =>
      (lookupIn (language.name, rule.name) before.predicates).isNone :=
    List.mem_filter.mpr ⟨listed, by rw [free]; rfl⟩
  rw [← same] at here
  have gone := (List.mem_filter.mp here).2
  rw [taken] at gone
  cases gone

/-- A sound draft with fuel for the rules that have no predicate. -/
def Fueled (languages : Language → Prop) (language : Language) (fuel : Nat)
    (pending : List Symbol) (draft : Draft) : Prop :=
  Sound languages pending draft ∧ unreserved language draft ≤ fuel

section Compiling

variable {languages : Language → Prop} {language : Language}

theorem Fueled.steady {fuel : Nat} {pending : List Symbol} {α : Type} {action : Drafting α}
    (steady : Steady (Sound languages pending) action) :
    Steady (Fueled languages language fuel pending) action where
  grows := steady.grows
  succeeds := by
    rintro before ⟨sound, enough⟩
    obtain ⟨result, after, yields, still⟩ := steady.succeeds before sound
    exact ⟨result, after, yields, still,
      Nat.le_trans (unreserved_le (steady.grows _ _ _ yields)) enough⟩

theorem stable_fueled (fuel : Nat) (pending : List Symbol) :
    Stable (Fueled languages language fuel pending) where
  locals draft := fun ⟨sound, enough⟩ => ⟨(stable_sound pending).locals draft sound, enough⟩
  constants draft term := fun ⟨sound, enough⟩ =>
    ⟨(stable_sound pending).constants draft term sound, enough⟩

/-- What is compiled for a language keeps drafts sound, if its predicates do. -/
theorem admissible_fueled (apart : Apart languages) (listed : languages language) {fuel : Nat}
    (tests : ∀ pending stem, language.HasRule stem →
      Steady (Fueled languages language fuel pending) (predicate language fuel stem)) :
    Admissible language (predicate language fuel) language.HasRule
      (Fueled languages language fuel) where
  stable := stable_fueled fuel
  mentioned pending := Fueled.steady (steady_mentionedConstant apart listed pending)
  tests := tests
  reserve := by
    rintro pending draft pattern name ⟨sound, enough⟩ free numbered
    exact ⟨sound.reserveMatcher free numbered, enough⟩
  finish := by
    rintro pending before pattern name body after yields found ⟨sound, enough⟩
    refine ⟨sound.finish rfl ?_ ?_, enough⟩
    · intro other known shape same
      have key := key_unique (List.nodup_append.mp sound.once).1 same found
      cases apart other language known listed (congrArg Prod.fst key)
      cases congrArg Prod.snd key
      refine ⟨fuel, before, body, after, yields, ⟨List.prefix_refl _,
        fun _ listed => List.mem_append_left _ listed, fun _ _ found => found,
        fun _ _ found => found, fun _ _ found => found, Nat.le_refl _⟩, ?_⟩
      exact List.mem_append_right _ List.mem_cons_self
    · intro other known stem same
      have distinct := (List.nodup_append.mp sound.once).2.2
      exact absurd rfl (distinct _ (mem_of_lookupIn found) _ (mem_of_lookupIn same))

/-- The predicate of a rule can be compiled with fuel for the rules that have none. -/
theorem steady_predicate (apart : Apart languages) (listed : languages language)
    (closed : language.Closed) (fuel : Nat) :
    ∀ pending stem, language.HasRule stem →
      Steady (Fueled languages language fuel pending) (predicate language fuel stem) := by
  induction fuel with
  | zero =>
    intro pending stem ruled
    refine ⟨fun _ _ _ yields => (yields_predicate closed yields).1, ?_⟩
    rintro before ⟨sound, none⟩
    obtain ⟨rule, found⟩ := ruled
    obtain ⟨inside, named⟩ := Language.mem_rules found
    cases known : lookupIn (language.name, stem) before.predicates with
    | some name =>
      refine ⟨name, before, ?_, sound, none⟩
      rw [predicate]
      exact sharedPredicate_reserved _ known
    | none =>
      have here : rule ∈ language.rules.filter fun rule =>
          (lookupIn (language.name, rule.name) before.predicates).isNone :=
        List.mem_filter.mpr ⟨inside, by rw [named, known]; rfl⟩
      rw [List.eq_nil_of_length_eq_zero (Nat.le_zero.mp none)] at here
      cases here
  | succ fuel ih =>
    intro pending stem ruled
    refine ⟨fun _ _ _ yields => (yields_predicate closed yields).1, ?_⟩
    rintro before ⟨sound, enough⟩
    obtain ⟨rule, found⟩ := ruled
    obtain ⟨inside, named⟩ := Language.mem_rules found
    cases known : lookupIn (language.name, stem) before.predicates with
    | some name =>
      refine ⟨name, before, ?_, sound, enough⟩
      rw [predicate]
      exact sharedPredicate_reserved _ known
    | none =>
      obtain ⟨name, _, drawn⟩ : ∃ name named, Yields
          (freshFunction "isa" (language.name ++ "_" ++ stem)) before name named := ⟨_, _, rfl⟩
      obtain ⟨numbered, rfl⟩ := yields_freshFunction drawn
      have reserved := sound.reservePredicate known numbered
      have taken : lookupIn (language.name, rule.name)
          (((language.name, stem), name) :: before.predicates) = some name := by
        rw [named, lookupIn_cons, if_pos rfl]
      have growing : before.Grows { before with
          nameCount := before.nameCount + 1
          predicates := ((language.name, stem), name) :: before.predicates } :=
        ⟨List.prefix_refl _, fun _ listed => listed, fun _ _ found => found,
          fun _ _ old => lookupIn_cons_of_none known old, fun _ _ found => found, Nat.le_refl _⟩
      have fewer := unreserved_lt growing inside (by rw [named, known]) taken
      have admissible := admissible_fueled apart listed ih
      have tested := steady_alternativeTests (stable_fueled fuel (name :: pending))
        (fun alternative there => admissible.compileWith
          (Pattern.isItem_of_isPlaced (closed rule inside alternative there).1)
          (closed rule inside alternative there).2 (name :: pending)) env
      obtain ⟨tests, written, compiled, still, left⟩ := tested.succeeds _
        ⟨reserved, Nat.le_of_lt_succ (Nat.lt_of_lt_of_le fewer enough)⟩
      have kept := (tested.grows _ _ _ compiled).predicates _ _ taken
      rw [named] at kept
      refine ⟨name, { written with functions :=
        written.functions ++ [.define name [whole] (predicateBody tests)] }, ?_,
        still.finish rfl ?_ ?_, Nat.le_succ_of_le left⟩
      · rw [predicate]
        refine (sharedPredicate_new found known).mpr (yields_bind.mpr ⟨name, _, drawn, ?_⟩)
        refine yields_bind.mpr ⟨⟨⟩, _, yields_modify.mpr rfl, ?_⟩
        exact yields_bind.mpr ⟨tests, written, compiled, yields_bind.mpr
          ⟨⟨⟩, _, yields_modify.mpr rfl, yields_pure.mpr ⟨rfl, rfl⟩⟩⟩
      · intro other known shape same
        have distinct := (List.nodup_append.mp still.once).2.2
        exact absurd rfl (distinct _ (mem_of_lookupIn same) _ (mem_of_lookupIn kept))
      · intro other known word same
        have key := key_unique (List.nodup_append.mp still.once).2.1 same kept
        cases apart other language known listed (congrArg Prod.fst key)
        cases congrArg Prod.snd key
        refine ⟨rule, fuel, _, tests, written, found, compiled, ⟨List.prefix_refl _,
          fun _ listed => List.mem_append_left _ listed, fun _ _ found => found,
          fun _ _ found => found, fun _ _ found => found, Nat.le_refl _⟩, ?_⟩
        exact List.mem_append_right _ List.mem_cons_self

/-- Compiling an item whose non-terminals have rules succeeds and keeps drafts sound. -/
theorem steady_compile (apart : Apart languages) (listed : languages language)
    (closed : language.Closed) {pattern : Pattern} (item : pattern.isItem = true)
    (ruled : ∀ stem ∈ pattern.stems, language.HasRule stem) (pending : List Symbol) :
    Steady (Sound languages pending) (compile language pattern) := by
  have admissible := admissible_fueled apart listed
    (steady_predicate apart listed closed language.rules.length)
  have steady := admissible.compileWith item ruled pending
  refine ⟨steady.grows, ?_⟩
  intro before sound
  obtain ⟨name, after, yields, still, _⟩ :=
    steady.succeeds before ⟨sound, List.length_filter_le _ _⟩
  exact ⟨name, after, yields, still⟩

/-- The body of a top-level matcher, given the matcher of its pattern and its local names. -/
def topBody (synthetic : List Symbol) (inner results out entry position kept : Symbol) :
    List Statement :=
  [Statement.assignPrimitive terms .wrapTerm [.name whole],
    Statement.assignPrimitive env .newMatch [],
    callOnWhole results inner terms env,
    Statement.assignPrimitive out .newList [],
    .forEach [entry, position] results
      (Statement.assignPrimitive kept .matchCopy [.name entry] ::
        (synthetic.map fun symbol =>
          Statement.perform .matchRemove [.name kept, .string symbol]) ++
        [Statement.perform .listAppend [.name out, .name kept]]),
    .returns (.name out)]

/-- A prepared pattern whose non-terminals have rules gets a top-level matcher. -/
theorem exists_compileTop (apart : Apart languages) (listed : languages language)
    (closed : language.Closed) {prepared : Prepared} (placed : prepared.pattern.isPlaced = true)
    (ruled : ∀ stem ∈ prepared.pattern.stems, language.HasRule stem) {pending : List Symbol}
    {before : Draft} (sound : Sound languages pending before) :
    ∃ name after, Yields (compileTop language prepared) before name after ∧
      Sound languages pending after ∧ before.Grows after ∧ ∃ inner count,
        lookupIn (language.name, prepared.pattern) after.matchers = some inner ∧
        .define name [whole] (topBody prepared.synthetic inner ("rs" ++ toString count)
          ("out" ++ toString (count + 1)) ("m" ++ toString (count + 2))
          ("h" ++ toString (count + 3)) ("m" ++ toString (count + 4))) ∈ after.functions := by
  have steady := steady_compile apart listed closed (Pattern.isItem_of_isPlaced placed) ruled pending
  obtain ⟨inner, middle, compiled, still⟩ := steady.succeeds before sound
  have grown := steady.grows _ _ _ compiled
  obtain ⟨name, _, drawn⟩ : ∃ name named, Yields (freshFunction "matches" language.name) middle
      name named := ⟨_, _, rfl⟩
  obtain ⟨numbered, rfl⟩ := yields_freshFunction drawn
  have unreserved := still.unreserved numbered
  have ready : Sound languages (name :: pending) { middle with
      nameCount := middle.nameCount + 1
      localCount := middle.localCount + 1 + 1 + 1 + 1 + 1 } := by
    have stable : Stable (Sound languages (name :: pending)) := stable_sound (name :: pending)
    exact stable.locals _ (stable.locals _ (stable.locals _ (stable.locals _ (stable.locals _
      (still.draw numbered)))))
  refine ⟨name, { middle with
      functions := middle.functions ++ [.define name [whole] (topBody prepared.synthetic inner
        ("rs" ++ toString middle.localCount) ("out" ++ toString (middle.localCount + 1))
        ("m" ++ toString (middle.localCount + 2)) ("h" ++ toString (middle.localCount + 3))
        ("m" ++ toString (middle.localCount + 4)))]
      nameCount := middle.nameCount + 1
      localCount := middle.localCount + 1 + 1 + 1 + 1 + 1 }, ?_, ready.finish rfl ?_ ?_, ?_,
    inner, middle.localCount, ?_, ?_⟩
  · unfold compileTop
    refine yields_bind.mpr ⟨inner, middle, compiled, yields_bind.mpr ⟨name, _, drawn, ?_⟩⟩
    refine yields_bind.mpr ⟨_, _, yields_freshLocal.mpr ⟨rfl, rfl⟩, yields_bind.mpr ⟨_, _,
      yields_freshLocal.mpr ⟨rfl, rfl⟩, yields_bind.mpr ⟨_, _, yields_freshLocal.mpr ⟨rfl, rfl⟩,
      yields_bind.mpr ⟨_, _, yields_freshLocal.mpr ⟨rfl, rfl⟩, yields_bind.mpr ⟨_, _,
      yields_freshLocal.mpr ⟨rfl, rfl⟩, ?_⟩⟩⟩⟩⟩
    exact yields_bind.mpr ⟨⟨⟩, _, yields_modify.mpr rfl, yields_pure.mpr ⟨rfl, rfl⟩⟩
  · intro other known shape same
    exact absurd (List.mem_append_left _ (mem_of_lookupIn same)) unreserved
  · intro other known stem same
    exact absurd (List.mem_append_right _ (mem_of_lookupIn same)) unreserved
  · exact grown.trans ⟨List.prefix_refl _, fun _ listed => List.mem_append_left _ listed,
      fun _ _ found => found, fun _ _ found => found, fun _ _ found => found,
      Nat.le_add_right middle.localCount 5⟩
  · exact (yields_compileWith closed (Pattern.isItem_of_isPlaced placed) compiled).2
  · exact List.mem_append_right _ List.mem_cons_self

end Compiling

end Draft

end Reduct
