import Reduct.Language
import Reduct.Proofs.Plugging

/-!
# Terms that patterns describe

A pattern describes terms by its shape alone: its bound symbols impose no equality here, and the
modes of its repetitions and its checks play no part. A non-terminal derives the terms that one
of its alternatives describes, and only those that finitely many steps reach.

The skeleton of a pattern keeps just what this relation reads, so passes that rename symbols,
insert checks or choose modes describe the same terms.
-/

namespace Reduct

/-- Whether a term passes the test of a kind, where `mentioned` are the literal variables. -/
def BuiltIn.holdsOf (mentioned : SymbolSet) : BuiltIn → Term → Bool
  | .number, term => term.isNumber
  | .integer, term => decide (term.kind = .integer)
  | .natural, term => term.isNatural
  | .real, term => decide (term.kind = .float)
  | .string, term => decide (term.kind = .string)
  | .boolean, term => decide (term.kind = .boolean)
  | .hole, term => decide (term.kind = .hole)
  | .variableNotOtherwiseMentioned, .atom (.symbol name) => !mentioned.contains name
  | .variableExcept excluded, .atom (.symbol name) => !decide (name ∈ excluded)
  | _, _ => false

/-- What the leaves of patterns are read against. -/
structure Reading where
  /-- The alternatives of every non-terminal. -/
  alternatives : Symbol → List Pattern
  /-- The literal variables. -/
  mentioned : SymbolSet

mutual

/-- A non-terminal derives what one of its alternatives describes. -/
inductive Derives (reading : Reading) : Symbol → Term → Prop
  | rule {name : Symbol} {alternative : Pattern} {term : Term}
      (listed : alternative ∈ reading.alternatives name) (fits : Fits reading alternative term) :
      Derives reading name term

/-- A pattern that takes one term describes it. -/
inductive Fits (reading : Reading) : Pattern → Term → Prop
  | literal {value : Atom} : Fits reading (.literal value) (.atom value)
  | nonTerminal {stem symbol : Symbol} {term : Term} (derived : Derives reading stem term) :
      Fits reading (.nonTerminal stem symbol) term
  | builtIn {kind : BuiltIn} {symbol : Symbol} {term : Term}
      (passed : kind.holdsOf reading.mentioned term = true) :
      Fits reading (.builtIn kind symbol) term
  | sequence {items : List Pattern} {terms : List Term} (all : FitsAll reading items terms) :
      Fits reading (.sequence items) (.sequence terms)
  | inHole {context contents : Pattern} {checks : List Check} {outer inner term : Term}
      (around : Fits reading context outer) (within : Fits reading contents inner)
      (decomposed : term.Decomposes outer inner) :
      Fits reading (.inHole context contents checks) term

/-- Items describe consecutive terms: one for an item of fixed width, none for a check, and any
number for a repetition. -/
inductive FitsAll (reading : Reading) : List Pattern → List Term → Prop
  | nil : FitsAll reading [] []
  | check {test : Check} {rest : List Pattern} {terms : List Term}
      (others : FitsAll reading rest terms) : FitsAll reading (.check test :: rest) terms
  | item {first : Pattern} {rest : List Pattern} {term : Term} {terms : List Term}
      (fixed : first.isFixedWidth = true) (fits : Fits reading first term)
      (others : FitsAll reading rest terms) : FitsAll reading (first :: rest) (term :: terms)
  | repeated {inner : Pattern} {mode : RepeatMode} {rest : List Pattern}
      {taken terms : List Term} (each : ∀ term ∈ taken, Fits reading inner term)
      (others : FitsAll reading rest terms) :
      FitsAll reading (.repeated inner mode :: rest) (taken ++ terms)

end

section Inversion

variable {reading : Reading}

theorem derives_iff {name : Symbol} {term : Term} :
    Derives reading name term ↔
      ∃ alternative ∈ reading.alternatives name, Fits reading alternative term := by
  constructor
  · rintro ⟨listed, fits⟩
    exact ⟨_, listed, fits⟩
  · rintro ⟨alternative, listed, fits⟩
    exact .rule listed fits

theorem fits_literal {value : Atom} {term : Term} :
    Fits reading (.literal value) term ↔ term = .atom value := by
  constructor
  · rintro ⟨⟩
    rfl
  · rintro rfl
    exact .literal

theorem fits_nonTerminal {stem symbol : Symbol} {term : Term} :
    Fits reading (.nonTerminal stem symbol) term ↔ Derives reading stem term := by
  constructor
  · intro fits
    cases fits with
    | nonTerminal derived => exact derived
  · exact .nonTerminal

theorem fits_builtIn {kind : BuiltIn} {symbol : Symbol} {term : Term} :
    Fits reading (.builtIn kind symbol) term ↔ kind.holdsOf reading.mentioned term = true := by
  constructor
  · intro fits
    cases fits with
    | builtIn passed => exact passed
  · exact .builtIn

theorem fits_sequence {items : List Pattern} {term : Term} :
    Fits reading (.sequence items) term ↔
      ∃ terms, term = .sequence terms ∧ FitsAll reading items terms := by
  constructor
  · intro fits
    cases fits with
    | sequence all => exact ⟨_, rfl, all⟩
  · rintro ⟨terms, rfl, all⟩
    exact .sequence all

theorem fits_inHole {context contents : Pattern} {checks : List Check} {term : Term} :
    Fits reading (.inHole context contents checks) term ↔
      ∃ outer inner, Fits reading context outer ∧ Fits reading contents inner ∧
        term.Decomposes outer inner := by
  constructor
  · intro fits
    cases fits with
    | inHole around within decomposed => exact ⟨_, _, around, within, decomposed⟩
  · rintro ⟨outer, inner, around, within, decomposed⟩
    exact .inHole around within decomposed

theorem not_fits_repeated {inner : Pattern} {mode : RepeatMode} {term : Term} :
    ¬ Fits reading (.repeated inner mode) term := nofun

theorem not_fits_check {test : Check} {term : Term} : ¬ Fits reading (.check test) term := nofun

theorem not_fits_unresolved {symbol : Symbol} {term : Term} :
    ¬ Fits reading (.unresolved symbol) term := nofun

theorem fitsAll_nil {terms : List Term} : FitsAll reading [] terms ↔ terms = [] := by
  constructor
  · rintro ⟨⟩
    rfl
  · rintro rfl
    exact .nil

theorem fitsAll_check {test : Check} {rest : List Pattern} {terms : List Term} :
    FitsAll reading (.check test :: rest) terms ↔ FitsAll reading rest terms := by
  constructor
  · intro all
    cases all with
    | check others => exact others
    | item fixed _ _ => cases fixed
  · exact .check

theorem fitsAll_repeated {inner : Pattern} {mode : RepeatMode} {rest : List Pattern}
    {terms : List Term} :
    FitsAll reading (.repeated inner mode :: rest) terms ↔
      ∃ taken others, terms = taken ++ others ∧ (∀ term ∈ taken, Fits reading inner term) ∧
        FitsAll reading rest others := by
  constructor
  · intro all
    cases all with
    | item fixed _ _ => cases fixed
    | repeated each others => exact ⟨_, _, rfl, each, others⟩
  · rintro ⟨taken, others, rfl, each, fits⟩
    exact .repeated each fits

theorem fitsAll_item {first : Pattern} {rest : List Pattern} {terms : List Term}
    (fixed : first.isFixedWidth = true) :
    FitsAll reading (first :: rest) terms ↔
      ∃ term others, terms = term :: others ∧ Fits reading first term ∧
        FitsAll reading rest others := by
  constructor
  · intro all
    cases all with
    | check _ => cases fixed
    | item _ fits others => exact ⟨_, _, rfl, fits, others⟩
    | repeated _ _ => cases fixed
  · rintro ⟨term, others, rfl, fits, all⟩
    exact .item fixed fits all

end Inversion

namespace Pattern

/-- Induction over patterns, with hypotheses for every item of a sequence and for what its
repetitions repeat. -/
theorem induction {motive : Pattern → Prop} (literal : ∀ value, motive (.literal value))
    (nonTerminal : ∀ stem symbol, motive (.nonTerminal stem symbol))
    (builtIn : ∀ kind symbol, motive (.builtIn kind symbol))
    (sequence : ∀ items, (∀ item ∈ items, motive item) →
      (∀ inner mode, .repeated inner mode ∈ items → motive inner) → motive (.sequence items))
    (repeated : ∀ inner mode, motive inner → motive (.repeated inner mode))
    (inHole : ∀ context contents checks, motive context → motive contents →
      motive (.inHole context contents checks))
    (check : ∀ test, motive (.check test))
    (unresolved : ∀ symbol, motive (.unresolved symbol)) : ∀ pattern, motive pattern
  | .literal value => literal value
  | .nonTerminal stem symbol => nonTerminal stem symbol
  | .builtIn kind symbol => builtIn kind symbol
  | .sequence items =>
    sequence items
      (fun item _ => induction literal nonTerminal builtIn sequence repeated inHole check
        unresolved item)
      (fun inner _ _ => induction literal nonTerminal builtIn sequence repeated inHole check
        unresolved inner)
  | .repeated inner mode =>
    repeated inner mode
      (induction literal nonTerminal builtIn sequence repeated inHole check unresolved inner)
  | .inHole context contents checks =>
    inHole context contents checks
      (induction literal nonTerminal builtIn sequence repeated inHole check unresolved context)
      (induction literal nonTerminal builtIn sequence repeated inHole check unresolved contents)
  | .check test => check test
  | .unresolved symbol => unresolved symbol
decreasing_by
  all_goals
    first
    | decreasing_tactic
    | have smaller := List.sizeOf_lt_of_mem ‹_›
      simp only [Pattern.repeated.sizeOf_spec, Pattern.sequence.sizeOf_spec] at smaller ⊢
      omega

mutual

/-- Whether no bare symbol is left, and repetitions and checks stand only as items of
sequences. -/
def isPlaced : Pattern → Bool
  | .literal _ => true
  | .nonTerminal .. => true
  | .builtIn .. => true
  | .sequence items => arePlaced items
  | .inHole context contents _ => context.isPlaced && contents.isPlaced
  | _ => false

/-- Whether items are placed, or repeat what is placed, or are checks. -/
def arePlaced : List Pattern → Bool
  | [] => true
  | .repeated inner _ :: rest => inner.isPlaced && arePlaced rest
  | .check _ :: rest => arePlaced rest
  | item :: rest => item.isPlaced && arePlaced rest

end

/-- Items are placed exactly when each takes one term and is placed, is a repetition of a placed
pattern, or is a check. -/
theorem arePlaced_iff {items : List Pattern} : arePlaced items = true ↔
    (∀ item ∈ items, item.isFixedWidth = true → item.isPlaced = true) ∧
      ∀ inner mode, .repeated inner mode ∈ items → inner.isPlaced = true := by
  induction items with
  | nil => simp [arePlaced]
  | cons first rest ih =>
    cases first with
    | repeated inner mode =>
      simp only [arePlaced, Bool.and_eq_true, ih, List.mem_cons, forall_eq_or_imp]
      constructor
      · rintro ⟨placed, fixed, rounds⟩
        refine ⟨⟨nofun, fixed⟩, ?_⟩
        rintro other _ (same | later)
        · cases same
          exact placed
        · exact rounds other _ later
      · rintro ⟨⟨_, fixed⟩, rounds⟩
        exact ⟨rounds inner mode (.inl rfl), fixed, fun other _ later => rounds other _ (.inr later)⟩
    | check test =>
      simp only [arePlaced, ih, List.mem_cons, forall_eq_or_imp, reduceCtorEq, false_or]
      exact ⟨fun ⟨fixed, rounds⟩ => ⟨⟨nofun, fixed⟩, rounds⟩,
        fun ⟨⟨_, fixed⟩, rounds⟩ => ⟨fixed, rounds⟩⟩
    | literal _ | nonTerminal _ _ | builtIn _ _ | sequence _ | inHole _ _ _ | unresolved _ =>
      simp only [arePlaced, Bool.and_eq_true, ih, List.mem_cons, forall_eq_or_imp, reduceCtorEq,
        false_or]
      exact ⟨fun ⟨placed, fixed, rounds⟩ => ⟨⟨fun _ => placed, fixed⟩, rounds⟩,
        fun ⟨⟨placed, fixed⟩, rounds⟩ => ⟨placed rfl, fixed, rounds⟩⟩

/-- Induction over placed patterns, with hypotheses for the items of a sequence that take one
term and for what its repetitions repeat. -/
theorem placedInduction {motive : Pattern → Prop} (literal : ∀ value, motive (.literal value))
    (nonTerminal : ∀ stem symbol, motive (.nonTerminal stem symbol))
    (builtIn : ∀ kind symbol, motive (.builtIn kind symbol))
    (sequence : ∀ items, (∀ item ∈ items, item.isFixedWidth = true → motive item) →
      (∀ inner mode, .repeated inner mode ∈ items → motive inner) → motive (.sequence items))
    (inHole : ∀ context contents checks, motive context → motive contents →
      motive (.inHole context contents checks))
    (pattern : Pattern) (placed : pattern.isPlaced = true) : motive pattern := by
  induction pattern using Pattern.induction with
  | literal value => exact literal value
  | nonTerminal stem symbol => exact nonTerminal stem symbol
  | builtIn kind symbol => exact builtIn kind symbol
  | sequence items each rounds =>
    obtain ⟨fixed, inner⟩ := arePlaced_iff.mp placed
    exact sequence items (fun item listed wide => each item listed (fixed item listed wide))
      fun body mode listed => rounds body mode listed (inner body mode listed)
  | repeated inner mode _ => cases placed
  | inHole context contents checks outer within =>
    simp only [isPlaced, Bool.and_eq_true] at placed
    exact inHole context contents checks (outer placed.1) (within placed.2)
  | check test => cases placed
  | unresolved symbol => cases placed

mutual

/-- A pattern without what its description of terms does not depend on: symbols, modes and
checks. -/
def skeleton : Pattern → Pattern
  | .nonTerminal stem _ => .nonTerminal stem ""
  | .builtIn kind _ => .builtIn kind ""
  | .sequence items => .sequence (skeletonAll items)
  | .repeated inner _ => .repeated inner.skeleton .exhaustive
  | .inHole context contents _ => .inHole context.skeleton contents.skeleton []
  | .check test => .check test
  | .literal value => .literal value
  | .unresolved symbol => .unresolved symbol

/-- The skeletons of the items of a sequence, without its checks. -/
def skeletonAll : List Pattern → List Pattern
  | [] => []
  | .check _ :: rest => skeletonAll rest
  | item :: rest => item.skeleton :: skeletonAll rest

end

theorem isFixedWidth_skeleton (pattern : Pattern) :
    pattern.skeleton.isFixedWidth = pattern.isFixedWidth := by
  cases pattern <;> rfl

/-- An item other than a check keeps its place in the skeleton. -/
theorem skeletonAll_cons {item : Pattern} (kept : item.isCheck = false) (rest : List Pattern) :
    skeletonAll (item :: rest) = item.skeleton :: skeletonAll rest := by
  cases item <;> first | rfl | cases kept

mutual

/-- Choosing the modes of repetitions keeps the skeleton. -/
theorem skeleton_classify (closures : Closures) (mentioned : SymbolSet) : (pattern : Pattern) →
    (pattern.classify closures mentioned).skeleton = pattern.skeleton
  | .sequence items => by
    rw [classify, skeleton, skeleton, skeletonAll_chooseModes, skeletonAll_classifyAll]
  | .repeated inner mode => by rw [classify, skeleton, skeleton, skeleton_classify]
  | .inHole context contents checks => by
    rw [classify, skeleton, skeleton, skeleton_classify closures mentioned context,
      skeleton_classify closures mentioned contents]
  | .literal _ | .nonTerminal .. | .builtIn .. | .check _ | .unresolved _ => rfl

theorem skeletonAll_classifyAll (closures : Closures) (mentioned : SymbolSet) :
    (items : List Pattern) →
    skeletonAll (classifyAll closures mentioned items) = skeletonAll items
  | [] => rfl
  | item :: rest => by
    rw [classifyAll]
    by_cases test : item.isCheck = true
    · cases item with
      | check test =>
        exact skeletonAll_classifyAll closures mentioned rest
      | _ => cases test
    · have kept : item.isCheck = false := by simpa using test
      have still : (item.classify closures mentioned).isCheck = false := by
        cases item <;> first | rfl | cases kept
      rw [skeletonAll_cons still, skeletonAll_cons kept, skeleton_classify closures mentioned item,
        skeletonAll_classifyAll closures mentioned rest]

theorem skeletonAll_chooseModes (closures : Closures) (mentioned : SymbolSet) :
    (items : List Pattern) →
    skeletonAll (chooseModes closures mentioned items) = skeletonAll items
  | [] => rfl
  | .repeated inner mode :: rest => by
    rw [chooseModes, skeletonAll_cons rfl, skeletonAll_cons rfl, skeleton, skeleton,
      skeletonAll_chooseModes closures mentioned rest]
  | .check test :: rest => skeletonAll_chooseModes closures mentioned rest
  | .literal _ :: rest | .nonTerminal .. :: rest | .builtIn .. :: rest | .sequence _ :: rest
  | .inHole .. :: rest | .unresolved _ :: rest => by
    rw [chooseModes, skeletonAll_cons rfl, skeletonAll_cons rfl,
      skeletonAll_chooseModes closures mentioned rest]
    all_goals nofun

end

mutual

/-- Fresh names keep the skeleton. -/
theorem skeleton_anonymize : (pattern : Pattern) → (fresh : FreshNames) →
    (pattern.anonymize fresh).1.skeleton = pattern.skeleton
  | .literal _, _ | .nonTerminal .., _ | .check _, _ | .unresolved _, _ => rfl
  | .builtIn kind symbol, fresh => by
    rw [anonymize]
    split <;> rfl
  | .sequence items, fresh => by
    change Pattern.sequence (skeletonAll (anonymizeAll items fresh).1) = _
    rw [skeletonAll_anonymizeAll items fresh, skeleton]
  | .repeated inner mode, fresh => by
    change Pattern.repeated (inner.anonymize fresh).1.skeleton .exhaustive = _
    rw [skeleton_anonymize inner fresh, skeleton]
  | .inHole context contents checks, fresh => by
    change Pattern.inHole (context.anonymize fresh).1.skeleton
      (contents.anonymize (context.anonymize fresh).2).1.skeleton [] = _
    rw [skeleton_anonymize context fresh, skeleton_anonymize contents _, skeleton]

theorem skeletonAll_anonymizeAll : (items : List Pattern) → (fresh : FreshNames) →
    skeletonAll (anonymizeAll items fresh).1 = skeletonAll items
  | [], _ => rfl
  | item :: rest, fresh => by
    change skeletonAll ((item.anonymize fresh).1 ::
      (anonymizeAll rest (item.anonymize fresh).2).1) = _
    by_cases test : item.isCheck = true
    · cases item with
      | check test => exact skeletonAll_anonymizeAll rest fresh
      | _ => cases test
    · have kept : item.isCheck = false := by simpa using test
      have still : (item.anonymize fresh).1.isCheck = false := by
        cases item with
        | builtIn kind symbol =>
          rw [anonymize]
          split <;> rfl
        | check _ => cases kept
        | _ => rfl
      rw [skeletonAll_cons still, skeletonAll_cons kept, skeleton_anonymize item fresh,
        skeletonAll_anonymizeAll rest _]

end

/-- Checks in front of items leave their skeletons. -/
theorem skeletonAll_checks (checks : List PlacedCheck) (items : List Pattern) :
    skeletonAll ((checks.map fun placed => .check placed.test) ++ items) = skeletonAll items := by
  induction checks with
  | nil => rfl
  | cons placed rest ih => exact ih

theorem skeleton_withSymbol (name : Symbol) (pattern : Pattern) :
    (pattern.withSymbol name).skeleton = pattern.skeleton := by
  cases pattern <;> rfl

mutual

/-- New names and checks keep the skeleton. -/
theorem skeleton_rebuild (plan : CheckPlan) : (path : PatternPath) → (pattern : Pattern) →
    (pattern.rebuild plan path).skeleton = pattern.skeleton
  | path, .sequence items => by
    rw [rebuild, skeleton, skeleton, skeletonAll_rebuildFrom plan path 0 items]
  | path, .repeated inner mode => by rw [rebuild, skeleton, skeleton, skeleton_rebuild]
  | path, .inHole context contents checks => by
    rw [rebuild, skeleton, skeleton, skeleton_rebuild plan _ context,
      skeleton_rebuild plan _ contents]
  | path, .literal value => by
    simp only [rebuild]
    split
    · exact skeleton_withSymbol _ _
    · rfl
  | path, .nonTerminal stem symbol => by
    simp only [rebuild]
    split
    · exact skeleton_withSymbol _ _
    · rfl
  | path, .builtIn kind symbol => by
    simp only [rebuild]
    split
    · exact skeleton_withSymbol _ _
    · rfl
  | path, .check test => by
    simp only [rebuild]
    split
    · exact skeleton_withSymbol _ _
    · rfl
  | path, .unresolved symbol => by
    simp only [rebuild]
    split
    · exact skeleton_withSymbol _ _
    · rfl

theorem skeletonAll_rebuildFrom (plan : CheckPlan) : (path : PatternPath) → (index : Nat) →
    (items : List Pattern) → skeletonAll (rebuildFrom plan path index items) = skeletonAll items
  | _, _, [] => rfl
  | path, index, item :: rest => by
    rw [rebuildFrom]
    by_cases test : item.isCheck = true
    · cases item with
      | check tested =>
        have same : (Pattern.check tested).rebuild plan (path ++ [.item index]) =
            .check tested := by
          simp only [rebuild]
          split <;> rfl
        rw [same, List.cons_append, skeletonAll, skeletonAll_checks, skeletonAll,
          skeletonAll_rebuildFrom plan path (index + 1) rest]
      | _ => cases test
    · have kept : item.isCheck = false := by simpa using test
      have still : (item.rebuild plan (path ++ [.item index])).isCheck = false := by
        cases item with
        | check _ => cases kept
        | sequence _ | repeated _ _ | inHole _ _ _ => rfl
        | literal _ | nonTerminal _ _ | builtIn _ _ | unresolved _ =>
          simp only [rebuild]
          split <;> rfl
      rw [List.cons_append, skeletonAll_cons still, skeletonAll_cons kept, skeletonAll_checks,
        skeleton_rebuild plan _ item, skeletonAll_rebuildFrom plan path (index + 1) rest]

end

/-- Inserting checks keeps the skeleton. -/
theorem skeleton_insertChecks (pattern : Pattern) (fresh : FreshNames) :
    (pattern.insertChecks fresh).1.pattern.skeleton = pattern.skeleton :=
  skeleton_rebuild _ [] pattern

end Pattern

section Skeleton

variable {reading : Reading}

/-- Items describe the terms that their skeletons do, if every item does. -/
theorem fitsAll_skeletonAll {items : List Pattern}
    (each : ∀ item ∈ items, ∀ term, Fits reading item.skeleton term ↔ Fits reading item term)
    (rounds : ∀ inner mode, .repeated inner mode ∈ items →
      ∀ term, Fits reading inner.skeleton term ↔ Fits reading inner term) :
    ∀ terms, FitsAll reading (Pattern.skeletonAll items) terms ↔ FitsAll reading items terms := by
  induction items with
  | nil => exact fun _ => Iff.rfl
  | cons first rest ih =>
    have others := ih (fun item listed => each item (List.mem_cons_of_mem _ listed))
      fun inner mode listed => rounds inner mode (List.mem_cons_of_mem _ listed)
    intro terms
    by_cases fixed : first.isFixedWidth = true
    · have kept : first.isCheck = false := by
        cases first <;> first | rfl | cases fixed
      rw [Pattern.skeletonAll_cons kept, fitsAll_item fixed,
        fitsAll_item (by rw [Pattern.isFixedWidth_skeleton, fixed])]
      simp only [each first List.mem_cons_self, others]
    · cases first with
      | check test => rw [Pattern.skeletonAll, fitsAll_check, others]
      | repeated inner mode =>
        rw [Pattern.skeletonAll_cons rfl, Pattern.skeleton, fitsAll_repeated, fitsAll_repeated]
        simp only [rounds inner mode List.mem_cons_self, others]
      | _ => exact absurd rfl fixed

/-- A pattern describes the terms that its skeleton does. -/
theorem fits_skeleton (pattern : Pattern) :
    ∀ term, Fits reading pattern.skeleton term ↔ Fits reading pattern term := by
  induction pattern using Pattern.induction with
  | literal value => exact fun _ => Iff.rfl
  | nonTerminal stem symbol =>
    intro term
    rw [Pattern.skeleton, fits_nonTerminal, fits_nonTerminal]
  | builtIn kind symbol =>
    intro term
    rw [Pattern.skeleton, fits_builtIn, fits_builtIn]
  | sequence items each rounds =>
    intro term
    rw [Pattern.skeleton, fits_sequence, fits_sequence]
    simp only [fitsAll_skeletonAll each rounds]
  | repeated inner mode ih =>
    intro term
    rw [Pattern.skeleton]
    exact ⟨fun fits => absurd fits not_fits_repeated, fun fits => absurd fits not_fits_repeated⟩
  | inHole context contents checks around within =>
    intro term
    rw [Pattern.skeleton, fits_inHole, fits_inHole]
    simp only [around, within]
  | check test => exact fun _ => Iff.rfl
  | unresolved symbol => exact fun _ => Iff.rfl

/-- Patterns with one skeleton describe the same terms. -/
theorem Fits.of_skeleton {first second : Pattern} (same : first.skeleton = second.skeleton)
    {term : Term} (fits : Fits reading first term) : Fits reading second term := by
  rw [← fits_skeleton, ← same, fits_skeleton]
  exact fits

end Skeleton

/-- A kind that accepts a term still does so when fewer variables are mentioned. -/
theorem BuiltIn.holdsOf_mono {fewer more : SymbolSet}
    (subset : ∀ name, fewer.contains name = true → more.contains name = true) {kind : BuiltIn}
    {term : Term} (passed : kind.holdsOf more term = true) : kind.holdsOf fewer term = true := by
  cases kind with
  | variableNotOtherwiseMentioned =>
    cases term with
    | atom value =>
      cases value with
      | symbol name =>
        simp only [holdsOf, Bool.not_eq_true'] at passed ⊢
        cases listed : fewer.contains name with
        | false => rfl
        | true =>
          rw [subset name listed] at passed
          cases passed
      | _ => cases passed
    | _ => cases passed
  | variableExcept excluded =>
    cases term with
    | atom value => cases value <;> exact passed
    | _ => exact passed
  | _ => exact passed

/-- Readings where one covers the alternatives of the other and mentions no further variables. -/
structure Reading.Covers (larger smaller : Reading) : Prop where
  /-- Every alternative has one with the same skeleton. -/
  alternatives : ∀ name, ∀ alternative ∈ smaller.alternatives name,
    ∃ other ∈ larger.alternatives name, other.skeleton = alternative.skeleton
  /-- Every variable that is mentioned is mentioned in the other reading. -/
  mentioned : ∀ name, larger.mentioned.contains name = true →
    smaller.mentioned.contains name = true

mutual

/-- What is derived under a reading is derived under one that covers it. -/
theorem Derives.mono {smaller larger : Reading} (covers : larger.Covers smaller) {name : Symbol}
    {term : Term} : Derives smaller name term → Derives larger name term
  | .rule listed fits => by
    obtain ⟨other, there, same⟩ := covers.alternatives name _ listed
    exact .rule there ((Fits.mono covers fits).of_skeleton same.symm)

theorem Fits.mono {smaller larger : Reading} (covers : larger.Covers smaller) {pattern : Pattern}
    {term : Term} : Fits smaller pattern term → Fits larger pattern term
  | .literal => .literal
  | .nonTerminal derived => .nonTerminal (Derives.mono covers derived)
  | .builtIn passed => .builtIn (BuiltIn.holdsOf_mono covers.mentioned passed)
  | .sequence all => .sequence (FitsAll.mono covers all)
  | .inHole around within decomposed =>
    .inHole (Fits.mono covers around) (Fits.mono covers within) decomposed

theorem FitsAll.mono {smaller larger : Reading} (covers : larger.Covers smaller)
    {items : List Pattern} {terms : List Term} :
    FitsAll smaller items terms → FitsAll larger items terms
  | .nil => .nil
  | .check others => .check (FitsAll.mono covers others)
  | .item fixed fits others => .item fixed (Fits.mono covers fits) (FitsAll.mono covers others)
  | .repeated each others =>
    .repeated (fun term taken => Fits.mono covers (each term taken)) (FitsAll.mono covers others)

end

end Reduct
