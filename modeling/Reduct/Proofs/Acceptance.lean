import Reduct.Form.Read
import Reduct.Proofs.HoleTable

/-!
# Accepted languages

What a definition and the preparation of patterns go through when they are accepted. A written
pattern, as the reader gives it, resolves to one whose leaves name rules and kinds by their
stems. The rules of an accepted language have the skeletons of the resolved alternatives, its
ranges are the hole table of the grammar, and later patterns add literal variables and fresh
names and change nothing else.
-/

namespace Reduct

section Recording

variable {ε σ α β : Type}

/-- The rest of a recorded computation starts from what its first part leaves. -/
theorem run_bind_eq (first : ExceptT ε (StateM σ) α) (next : α → ExceptT ε (StateM σ) β)
    (before : σ) : (first >>= next).run before =
      match (first.run before).1 with
      | .ok value => (next value).run (first.run before).2
      | .error fault => (.error fault, (first.run before).2) := by
  rw [ExceptT.run_bind]
  change (match (first.run before).1 with
    | .ok value => (next value).run
    | .error fault => pure (.error fault) : StateM σ (Except ε β)) (first.run before).2 = _
  cases (first.run before).1 <;> rfl

/-- A recorded computation succeeds if its first part does and the rest does after it. -/
theorem run_bind_eq_ok {first : ExceptT ε (StateM σ) α} {next : α → ExceptT ε (StateM σ) β}
    {before after : σ} {result : β} :
    (first >>= next).run before = (.ok result, after) ↔
      ∃ value middle, first.run before = (.ok value, middle) ∧
        (next value).run middle = (.ok result, after) := by
  rw [run_bind_eq]
  rcases first.run before with ⟨fault | value, middle⟩
  · constructor
    · nofun
    · rintro ⟨_, _, same, _⟩
      cases same
  · constructor
    · exact fun rest => ⟨value, middle, rfl, rest⟩
    · rintro ⟨_, _, same, rest⟩
      cases same
      exact rest

theorem run_pure_eq_ok {value result : α} {before after : σ} :
    (pure value : ExceptT ε (StateM σ) α).run before = (.ok result, after) ↔
      value = result ∧ before = after := by
  change ((.ok value, before) : Except ε α × σ) = (.ok result, after) ↔ _
  simp

end Recording

theorem Except.bind_eq_ok {ε α β : Type} {first : Except ε α} {next : α → Except ε β}
    {result : β} : first.bind next = .ok result ↔
      ∃ value, first = .ok value ∧ next value = .ok result := by
  cases first with
  | error fault => exact ⟨nofun, nofun⟩
  | ok value =>
    constructor
    · exact fun rest => ⟨value, rfl, rest⟩
    · rintro ⟨_, same, rest⟩
      cases same
      exact rest

theorem Except.bind_eq_error {ε α β : Type} {first : Except ε α} {next : α → Except ε β}
    {fault : ε} : first.bind next = .error fault ↔
      first = .error fault ∨ ∃ value, first = .ok value ∧ next value = .error fault := by
  cases first with
  | error found =>
    constructor
    · intro failed
      cases failed
      exact .inl rfl
    · rintro (same | ⟨_, same, _⟩)
      · cases same
        rfl
      · cases same
  | ok value =>
    constructor
    · exact fun rest => .inr ⟨value, rfl, rest⟩
    · rintro (same | ⟨_, same, rest⟩)
      · cases same
      · cases same
        exact rest

namespace Pattern

mutual

/-- Whether the reader may give the pattern: its symbols are bare, its repetitions stand in
sequences, and nothing is checked. -/
def isWritten : Pattern → Bool
  | .literal _ => true
  | .unresolved _ => true
  | .builtIn kind _ => !kind.isBindable
  | .sequence items => areWritten items
  | .inHole context contents checks => checks.isEmpty && context.isWritten && contents.isWritten
  | _ => false

/-- Whether the reader may give the items of a sequence. -/
def areWritten : List Pattern → Bool
  | [] => true
  | .repeated inner _ :: rest => inner.isWritten && areWritten rest
  | item :: rest => item.isWritten && areWritten rest

end

mutual

/-- Whether resolution against rules of the given names may give the pattern: the stem of a
symbol tells the rule or the kind that it stands for. -/
def isResolved (names : SymbolSet) : Pattern → Bool
  | .literal _ => true
  | .nonTerminal stem symbol => names.contains stem && decide (stem = Symbol.stem symbol)
  | .builtIn kind symbol =>
    !kind.isBindable || (!names.contains (Symbol.stem symbol) &&
      decide (BuiltIn.ofKeyword? (Symbol.stem symbol) = some kind))
  | .sequence items => areResolved names items
  | .inHole context contents checks =>
    checks.isEmpty && context.isResolved names && contents.isResolved names
  | _ => false

/-- Whether resolution may give the items of a sequence. -/
def areResolved (names : SymbolSet) : List Pattern → Bool
  | [] => true
  | .repeated inner _ :: rest => inner.isResolved names && areResolved names rest
  | item :: rest => item.isResolved names && areResolved names rest

end

theorem areWritten_cons {item : Pattern} {rest : List Pattern} :
    areWritten (item :: rest) = true ↔
      (item.isWritten = true ∨ ∃ inner mode, item = .repeated inner mode ∧
        inner.isWritten = true) ∧ areWritten rest = true := by
  cases item <;> simp [areWritten, isWritten]

theorem areResolved_cons {names : SymbolSet} {item : Pattern} {rest : List Pattern} :
    areResolved names (item :: rest) = true ↔
      (item.isResolved names = true ∨ ∃ inner mode, item = .repeated inner mode ∧
        inner.isResolved names = true) ∧ areResolved names rest = true := by
  cases item <;> simp [areResolved, isResolved]

/-- A symbol that stands for a rule has its name as the stem. -/
theorem resolution_eq_nonTerminal {names : SymbolSet} {symbol : Symbol}
    (found : Symbol.resolution names symbol = .nonTerminal) :
    names.contains (Symbol.stem symbol) = true := by
  unfold Symbol.resolution at found
  grind

/-- A symbol that stands for a kind has its keyword as the stem, and no rule has that name. -/
theorem resolution_eq_builtIn {names : SymbolSet} {symbol : Symbol} {kind : BuiltIn}
    (found : Symbol.resolution names symbol = .builtIn kind) :
    names.contains (Symbol.stem symbol) = false ∧
      BuiltIn.ofKeyword? (Symbol.stem symbol) = some kind := by
  unfold Symbol.resolution at found
  grind

/-- A bare symbol resolves to a leaf that its stem tells. -/
theorem isResolved_ofSymbol {names before after : SymbolSet} {symbol : Symbol}
    {resolved : Pattern} (accepted : (ofSymbol names symbol).run before = (.ok resolved, after)) :
    resolved.isResolved names = true := by
  unfold ofSymbol at accepted
  split at accepted
  · rename_i found
    obtain ⟨rfl, rfl⟩ := run_pure_eq_ok.mp accepted
    have known := resolution_eq_nonTerminal found
    simp [isResolved, known]
  · rename_i kind found
    obtain ⟨rfl, rfl⟩ := run_pure_eq_ok.mp accepted
    obtain ⟨unknown, word⟩ := resolution_eq_builtIn found
    simp [isResolved, unknown, word]
  · cases accepted
  · cases accepted
    rfl

mutual

/-- A written pattern resolves to a resolved one. -/
theorem isResolved_resolve {names : SymbolSet} : (pattern : Pattern) → {resolved : Pattern} →
    {before after : SymbolSet} → pattern.isWritten = true →
    (pattern.resolve names).run before = (.ok resolved, after) → resolved.isResolved names = true
  | .unresolved symbol, resolved, before, after, _, accepted => isResolved_ofSymbol accepted
  | .literal value, resolved, before, after, _, accepted => by
    cases value <;> (cases accepted; rfl)
  | .builtIn kind symbol, resolved, before, after, written, accepted => by
    cases accepted
    simp only [isWritten, Bool.not_eq_true'] at written
    simp [isResolved, written]
  | .sequence items, resolved, before, after, written, accepted => by
    rw [resolve] at accepted
    obtain ⟨all, middle, first, last⟩ := run_bind_eq_ok.mp accepted
    obtain ⟨rfl, rfl⟩ := run_pure_eq_ok.mp last
    exact areResolved_resolveAll items written first
  | .inHole context contents checks, resolved, before, after, written, accepted => by
    rw [resolve] at accepted
    obtain ⟨outer, middle, first, rest⟩ := run_bind_eq_ok.mp accepted
    obtain ⟨inner, later, second, last⟩ := run_bind_eq_ok.mp rest
    obtain ⟨rfl, rfl⟩ := run_pure_eq_ok.mp last
    simp only [isWritten, Bool.and_eq_true] at written
    have around := isResolved_resolve context written.1.2 first
    have within := isResolved_resolve contents written.2 second
    simp only [isResolved, written.1.1, around, within, Bool.and_self]

theorem areResolved_resolveAll {names : SymbolSet} : (items : List Pattern) →
    {resolved : List Pattern} → {before after : SymbolSet} → areWritten items = true →
    (resolveAll names items).run before = (.ok resolved, after) →
    areResolved names resolved = true
  | [], resolved, before, after, _, accepted => by
    cases accepted
    rfl
  | .repeated inner mode :: rest, resolved, before, after, written, accepted => by
    rw [resolveAll, resolve] at accepted
    obtain ⟨item, middle, first, last⟩ := run_bind_eq_ok.mp accepted
    obtain ⟨body, between, here, made⟩ := run_bind_eq_ok.mp first
    obtain ⟨rfl, rfl⟩ := run_pure_eq_ok.mp made
    obtain ⟨others, later, second, all⟩ := run_bind_eq_ok.mp last
    obtain ⟨rfl, rfl⟩ := run_pure_eq_ok.mp all
    simp only [areWritten, Bool.and_eq_true] at written
    have inside := isResolved_resolve inner written.1 here
    exact areResolved_cons.mpr
      ⟨.inr ⟨_, _, rfl, inside⟩, areResolved_resolveAll rest written.2 second⟩
  | .literal _ :: rest, resolved, before, after, written, accepted
  | .nonTerminal .. :: rest, resolved, before, after, written, accepted
  | .builtIn .. :: rest, resolved, before, after, written, accepted
  | .sequence _ :: rest, resolved, before, after, written, accepted
  | .inHole .. :: rest, resolved, before, after, written, accepted
  | .check _ :: rest, resolved, before, after, written, accepted
  | .unresolved _ :: rest, resolved, before, after, written, accepted => by
    rw [resolveAll] at accepted
    obtain ⟨first, middle, here, last⟩ := run_bind_eq_ok.mp accepted
    obtain ⟨others, later, second, all⟩ := run_bind_eq_ok.mp last
    obtain ⟨rfl, rfl⟩ := run_pure_eq_ok.mp all
    simp only [areWritten, Bool.and_eq_true] at written
    exact areResolved_cons.mpr ⟨.inl (isResolved_resolve _ written.1 here),
      areResolved_resolveAll rest written.2 second⟩

end

/-- Written alternatives resolve to resolved ones. -/
theorem isResolved_of_resolveAll {names : SymbolSet} {patterns : List Pattern} :
    ∀ {resolved : List Pattern} {before after : SymbolSet}, patterns.all (·.isWritten) = true →
    (resolveAll names patterns).run before = (.ok resolved, after) →
    ∀ pattern ∈ resolved, pattern.isResolved names = true := by
  induction patterns with
  | nil =>
    intro resolved before after _ accepted
    cases accepted
    exact nofun
  | cons first rest ih =>
    intro resolved before after written accepted
    rw [resolveAll] at accepted
    obtain ⟨item, middle, here, last⟩ := run_bind_eq_ok.mp accepted
    obtain ⟨others, later, second, all⟩ := run_bind_eq_ok.mp last
    obtain ⟨rfl, rfl⟩ := run_pure_eq_ok.mp all
    simp only [List.all_cons, Bool.and_eq_true] at written
    intro pattern listed
    rcases List.mem_cons.mp listed with rfl | there
    · exact isResolved_resolve first written.1 here
    · exact ih written.2 second pattern there

/-- What was mentioned before a computation is mentioned after it. -/
def Grows {α : Type} (action : Resolving α) : Prop :=
  ∀ before : SymbolSet, before.Subset (action.run before).2

theorem grows_pure {α : Type} (value : α) : Grows (pure value) := fun before => .refl before

theorem Grows.bind {α β : Type} {first : Resolving α} {next : α → Resolving β}
    (start : Grows first) (rest : ∀ value, Grows (next value)) : Grows (first >>= next) := by
  intro before
  have here := start before
  rw [run_bind_eq]
  cases (first.run before).1 with
  | error fault => exact here
  | ok value => exact here.trans (rest value _)

theorem grows_mention (name : Symbol) : Grows (mention name) :=
  fun _ _ there => (SymbolSet.contains_insert _ _ _).mpr (.inr there)

theorem grows_ofSymbol (names : SymbolSet) (symbol : Symbol) : Grows (ofSymbol names symbol) := by
  unfold ofSymbol
  split
  · exact grows_pure _
  · exact grows_pure _
  · exact fun before => .refl before
  · exact (grows_mention _).bind fun _ => grows_pure _

mutual

/-- Resolution keeps what was mentioned, whether or not it succeeds. -/
theorem grows_resolve (names : SymbolSet) : (pattern : Pattern) → Grows (pattern.resolve names)
  | .unresolved symbol => by
    rw [resolve]
    exact grows_ofSymbol names symbol
  | .literal value => by
    cases value with
    | symbol name =>
      rw [resolve]
      exact (grows_mention _).bind fun _ => grows_pure _
    | _ => exact grows_pure _
  | .builtIn .. | .nonTerminal .. | .check _ => grows_pure _
  | .sequence items => by
    rw [resolve]
    exact (grows_resolveAll names items).bind fun _ => grows_pure _
  | .repeated inner mode => by
    rw [resolve]
    exact (grows_resolve names inner).bind fun _ => grows_pure _
  | .inHole context contents checks => by
    rw [resolve]
    exact (grows_resolve names context).bind fun _ =>
      (grows_resolve names contents).bind fun _ => grows_pure _

theorem grows_resolveAll (names : SymbolSet) : (items : List Pattern) →
    Grows (resolveAll names items)
  | [] => grows_pure _
  | item :: rest => by
    rw [resolveAll]
    exact (grows_resolve names item).bind fun _ =>
      (grows_resolveAll names rest).bind fun _ => grows_pure _

end

mutual

/-- A resolved pattern has its repetitions in sequences. -/
theorem isPlaced_of_isResolved {names : SymbolSet} : (pattern : Pattern) →
    pattern.isResolved names = true → pattern.isPlaced = true
  | .literal _, _ | .nonTerminal .., _ | .builtIn .., _ => rfl
  | .sequence items, resolved => arePlaced_of_areResolved items resolved
  | .inHole context contents checks, resolved => by
    simp only [isResolved, Bool.and_eq_true] at resolved
    rw [isPlaced, isPlaced_of_isResolved context resolved.1.2,
      isPlaced_of_isResolved contents resolved.2]
    rfl

theorem arePlaced_of_areResolved {names : SymbolSet} : (items : List Pattern) →
    areResolved names items = true → arePlaced items = true
  | [], _ => rfl
  | .repeated inner mode :: rest, resolved => by
    simp only [areResolved, Bool.and_eq_true] at resolved
    rw [arePlaced, isPlaced_of_isResolved inner resolved.1, arePlaced_of_areResolved rest resolved.2]
    rfl
  | .literal _ :: rest, resolved | .nonTerminal .. :: rest, resolved
  | .builtIn .. :: rest, resolved | .sequence _ :: rest, resolved
  | .inHole .. :: rest, resolved => by
    simp only [areResolved, Bool.and_eq_true] at resolved
    rw [arePlaced, isPlaced_of_isResolved _ resolved.1, arePlaced_of_areResolved rest resolved.2]
    · rfl
    all_goals nofun

end

end Pattern

namespace Sexp

mutual

/-- What the reader gives is written. -/
theorem isWritten_toPattern : (sexp : Sexp) → {pattern : Pattern} →
    sexp.toPattern = .ok pattern → pattern.isWritten = true
  | .atom value span, pattern, read => by
    cases value with
    | symbol name =>
      rw [toPattern] at read
      split at read
      · cases read
      · cases read
        rfl
    | _ =>
      cases read
      rfl
  | .list items span, pattern, read => by
    unfold toPattern at read
    split at read
    · split at read
      · rename_i context contents _
        obtain ⟨outer, first, rest⟩ := Except.bind_eq_ok.mp read
        obtain ⟨inner, second, last⟩ := Except.bind_eq_ok.mp rest
        cases last
        rw [Pattern.isWritten, isWritten_toPattern context first, isWritten_toPattern contents second]
        rfl
      · cases read
    · split at read
      · cases read
        rfl
      · cases read
    · obtain ⟨all, first, last⟩ := Except.bind_eq_ok.mp read
      cases last
      exact areWritten_toPatternsAfter items first
termination_by sexp => sizeOf sexp

theorem areWritten_toPatternsAfter {fault : EllipsisFault} : (items : List Sexp) →
    {patterns : List Pattern} → toPatternsAfter fault items = .ok patterns →
    Pattern.areWritten patterns = true
  | [], patterns, read => by
    cases read
    rfl
  | [item], patterns, read => by
    rw [toPatternsAfter] at read
    split at read
    · cases read
    · obtain ⟨first, here, last⟩ := Except.bind_eq_ok.mp read
      cases last
      exact Pattern.areWritten_cons.mpr ⟨.inl (isWritten_toPattern item here), rfl⟩
  | item :: next :: rest, patterns, read => by
    rw [toPatternsAfter] at read
    split at read
    · cases read
    · obtain ⟨first, here, last⟩ := Except.bind_eq_ok.mp read
      have written := isWritten_toPattern item here
      split at last
      · obtain ⟨others, there, all⟩ := Except.bind_eq_ok.mp last
        cases all
        exact Pattern.areWritten_cons.mpr
          ⟨.inr ⟨_, _, rfl, written⟩, areWritten_toPatternsAfter rest there⟩
      · obtain ⟨others, there, all⟩ := Except.bind_eq_ok.mp last
        cases all
        exact Pattern.areWritten_cons.mpr
          ⟨.inl written, areWritten_toPatternsAfter (next :: rest) there⟩
termination_by items => sizeOf items

end

end Sexp

/-- The patterns of a definition are written. -/
def LanguageDefinition.isWritten (definition : LanguageDefinition) : Bool :=
  definition.rules.all fun rule => rule.alternatives.all (·.isWritten)

/-- Locating a fault leaves a success. -/
theorem locate_eq_ok {α : Type} {span : Span} {message : String} {result : Except Fault α}
    {value : α} : Fault.locate span message result = .ok value ↔ result = .ok value := by
  cases result with
  | error fault => exact ⟨nofun, nofun⟩
  | ok found => exact Iff.rfl

/-- The alternatives of a grammar are those of its rules. -/
theorem Grammar.exists_of_mem_ofRules {rules : List (Symbol × List Pattern)} {name : Symbol}
    {alternative : Pattern} (listed : alternative ∈ (Grammar.ofRules rules).alternativesOf name) :
    ∃ entry ∈ rules, alternative ∈ entry.2 := by
  unfold Grammar.alternativesOf at listed
  cases bound : (Grammar.ofRules rules).alternatives.find? name with
  | none =>
    rw [bound] at listed
    cases listed
  | some found =>
    rw [bound] at listed
    exact ⟨(name, found), Table.mem_of_find?_ofList bound, listed⟩

namespace Language

/-- Rules that pass the check of names have distinct ones. -/
theorem nodup_of_checkNames {seen rules : List RuleDefinition}
    (passed : checkNames seen rules = .ok ()) :
    (rules.map (·.name)).Nodup ∧
      ∀ rule ∈ rules, ∀ earlier ∈ seen, earlier.name ≠ rule.name := by
  induction rules generalizing seen with
  | nil => exact ⟨List.nodup_nil, nofun⟩
  | cons first rest ih =>
    rw [checkNames] at passed
    obtain ⟨_, here, others⟩ := Except.bind_eq_ok.mp passed
    obtain ⟨distinct, apart⟩ := ih others
    have unseen : ∀ earlier ∈ seen, earlier.name ≠ first.name := by
      intro earlier listed same
      unfold checkName at here
      split at here
      · cases here
      · split at here
        · cases here
        · rename_i nowhere
          have absent := List.find?_eq_none.mp nowhere earlier listed
          simp [same] at absent
    refine ⟨?_, ?_⟩
    · rw [List.map_cons, List.nodup_cons]
      refine ⟨?_, distinct⟩
      intro listed
      obtain ⟨rule, there, same⟩ := List.mem_map.mp listed
      exact apart rule there first (List.mem_append_right _ List.mem_cons_self) same.symm
    · intro rule listed earlier there
      rcases List.mem_cons.mp listed with rfl | later
      · exact unseen earlier there
      · exact apart rule later earlier (List.mem_append_left _ there)

/-- The resolved rules have the names of the definitions and, if these are written, resolved
alternatives. -/
theorem resolveRules_eq_ok {names : SymbolSet} {rules : List RuleDefinition} :
    ∀ {before after : SymbolSet} {resolved : List (Symbol × List Pattern)},
      resolveRules names rules before = .ok (resolved, after) →
      resolved.map (·.1) = rules.map (·.name) ∧
        ((∀ rule ∈ rules, rule.alternatives.all (·.isWritten) = true) →
          ∀ entry ∈ resolved, ∀ alternative ∈ entry.2, alternative.isResolved names = true) := by
  induction rules with
  | nil =>
    intro before after resolved accepted
    cases accepted
    exact ⟨rfl, fun _ => nofun⟩
  | cons first rest ih =>
    intro before after resolved accepted
    rw [resolveRules] at accepted
    dsimp only at accepted
    obtain ⟨alternatives, here, last⟩ := Except.bind_eq_ok.mp accepted
    obtain ⟨⟨others, later⟩, there, made⟩ := Except.bind_eq_ok.mp last
    cases made
    obtain ⟨names', written⟩ := ih there
    refine ⟨by rw [List.map_cons, List.map_cons, names'], ?_⟩
    intro each entry listed
    rcases List.mem_cons.mp listed with rfl | later
    · have accepted : (Pattern.resolveAll names first.alternatives).run before =
          (.ok alternatives, ((Pattern.resolveAll names first.alternatives).run before).2) :=
        Prod.ext (locate_eq_ok.mp here) rfl
      exact Pattern.isResolved_of_resolveAll (each first List.mem_cons_self) accepted
    · exact written (fun rule there => each rule (List.mem_cons_of_mem _ there)) entry later

/-- The last passes accept a pattern whose depths and contexts they accept. -/
theorem finish_eq_ok {language : Language} {pattern : Pattern} {synthetic : List Symbol}
    {prepared : Prepared} : language.finish pattern synthetic = .ok prepared ↔
      pattern.depths = .ok prepared.depths ∧
        prepared.pattern = pattern.classify language.closures language.mentioned ∧
        checkContexts language.holes prepared.pattern = .ok () ∧
        prepared.synthetic = synthetic := by
  constructor
  · intro finished
    unfold finish at finished
    obtain ⟨depths, first, rest⟩ := Except.bind_eq_ok.mp finished
    obtain ⟨_, second, last⟩ := Except.bind_eq_ok.mp rest
    cases last
    exact ⟨first, rfl, second, rfl⟩
  · rintro ⟨first, same, second, rfl⟩
    obtain ⟨classified, depths, synthetic⟩ := prepared
    dsimp only at same second first
    subst same
    unfold finish
    rw [first]
    change (checkContexts _ _).bind _ = _
    rw [second]
    rfl

/-- The finished alternatives have the skeletons of the given ones, and each comes from one of
them under fresh names. -/
theorem finishAlternatives_eq_ok {language : Language} {alternatives : List Pattern} :
    ∀ {before after : FreshNames} {finished : List Prepared},
      language.finishAlternatives alternatives before = .ok (finished, after) →
      finished.map (·.pattern.skeleton) = alternatives.map (·.skeleton) ∧
        ∀ prepared ∈ finished, ∃ alternative ∈ alternatives, ∃ fresh,
          language.finish (alternative.anonymize fresh).1 [] = .ok prepared := by
  induction alternatives with
  | nil =>
    intro before after finished accepted
    cases accepted
    exact ⟨rfl, nofun⟩
  | cons first rest ih =>
    intro before after finished accepted
    rw [finishAlternatives] at accepted
    obtain ⟨head, here, last⟩ := Except.bind_eq_ok.mp accepted
    obtain ⟨⟨others, later⟩, there, made⟩ := Except.bind_eq_ok.mp last
    cases made
    obtain ⟨skeletons, sources⟩ := ih there
    refine ⟨?_, ?_⟩
    · have same : head.pattern.skeleton = first.skeleton := by
        rw [(finish_eq_ok.mp here).2.1, Pattern.skeleton_classify, Pattern.skeleton_anonymize]
      rw [List.map_cons, List.map_cons, same, skeletons]
    · intro prepared listed
      rcases List.mem_cons.mp listed with rfl | later
      · exact ⟨first, List.mem_cons_self, _, here⟩
      · obtain ⟨alternative, known, source⟩ := sources prepared later
        exact ⟨alternative, List.mem_cons_of_mem _ known, source⟩

/-- The finished rules have the names of the definitions, the ranges of the table, and the
finished alternatives of the grammar. -/
theorem finishRules_eq_ok {language : Language} {grammar : Grammar}
    {rules : List RuleDefinition} :
    ∀ {before after : FreshNames} {finished : List Rule},
      language.finishRules grammar rules before = .ok (finished, after) →
      finished.map (·.name) = rules.map (·.name) ∧
        ∀ rule ∈ finished, rule.holes = HoleTable.range language.holes rule.name ∧
          ∃ start stop, language.finishAlternatives (grammar.alternativesOf rule.name) start =
            .ok (rule.alternatives, stop) := by
  induction rules with
  | nil =>
    intro before after finished accepted
    cases accepted
    exact ⟨rfl, nofun⟩
  | cons first rest ih =>
    intro before after finished accepted
    rw [finishRules] at accepted
    obtain ⟨⟨alternatives, middle⟩, here, last⟩ := Except.bind_eq_ok.mp accepted
    obtain ⟨⟨others, later⟩, there, made⟩ := Except.bind_eq_ok.mp last
    cases made
    obtain ⟨names, each⟩ := ih there
    refine ⟨by rw [List.map_cons, List.map_cons, names], ?_⟩
    intro rule listed
    rcases List.mem_cons.mp listed with rfl | later
    · exact ⟨rfl, before, middle, locate_eq_ok.mp here⟩
    · exact each rule later

/-- A language that is defined by a grammar. Its literal variables and fresh names may have
grown since. -/
structure Defined (language : Language) (grammar : Grammar) : Prop where
  /-- The rules stand in the order of the grammar. -/
  order : language.rules.map (·.name) = grammar.order
  distinct : grammar.order.Nodup
  names : ∀ name, language.names.contains name = true ↔ name ∈ grammar.order
  /-- A name without a rule has no alternatives. -/
  absent : ∀ name, name ∉ grammar.order → grammar.alternativesOf name = []
  present : ∀ name ∈ grammar.order, name ∈ grammar.alternatives.keys
  acyclic : grammar.aliasCycle? = none
  closures : language.closures = .ofGrammar grammar
  table : language.holes = grammar.holeTable
  resolved : ∀ name, ∀ alternative ∈ grammar.alternativesOf name,
    alternative.isResolved language.names = true
  holes : ∀ rule ∈ language.rules, rule.holes = HoleTable.range language.holes rule.name
  skeletons : ∀ rule ∈ language.rules,
    rule.alternatives.map (·.pattern.skeleton) =
      (grammar.alternativesOf rule.name).map (·.skeleton)
  /-- Every alternative was finished under fresh names, with no more literal variables than
  there are now. -/
  finished : ∀ rule ∈ language.rules, ∀ prepared ∈ rule.alternatives,
    ∃ alternative ∈ grammar.alternativesOf rule.name, ∃ fresh mentioned,
      mentioned.Subset language.mentioned ∧
        { language with mentioned := mentioned }.finish (alternative.anonymize fresh).1 [] =
          .ok prepared

/-- A written definition that is accepted gives a language that a grammar defines. -/
theorem defined_of_define {definition : LanguageDefinition} {span : Span} {language : Language}
    (written : definition.isWritten = true) (accepted : define definition span = .ok language) :
    ∃ grammar, language.Defined grammar := by
  unfold define at accepted
  obtain ⟨_, names, rest⟩ := Except.bind_eq_ok.mp accepted
  obtain ⟨⟨resolved, mentioned⟩, found, last⟩ := Except.bind_eq_ok.mp rest
  dsimp only at last
  cases cycle : (Grammar.ofRules resolved).aliasCycle? with
  | some way =>
    rw [cycle] at last
    cases last
  | none =>
    rw [cycle] at last
    obtain ⟨⟨rules, fresh⟩, finished, made⟩ := Except.bind_eq_ok.mp last
    cases made
    obtain ⟨distinct, _⟩ := nodup_of_checkNames names
    obtain ⟨same, each⟩ := resolveRules_eq_ok found
    obtain ⟨listed, all⟩ := finishRules_eq_ok finished
    have order : (Grammar.ofRules resolved).order = definition.rules.map (·.name) := same
    refine ⟨Grammar.ofRules resolved, ?_⟩
    refine
      { order := by rw [order, ← listed]
        distinct := by rw [order]; exact distinct
        names := by
          intro name
          rw [order]
          exact SymbolSet.contains_ofList _ name
        absent := ?_
        present := ?_
        acyclic := cycle
        closures := rfl
        table := rfl
        resolved := ?_
        holes := fun rule there => (all rule there).1
        skeletons := ?_
        finished := ?_ }
    · intro name nowhere
      unfold Grammar.alternativesOf
      rw [show (Grammar.ofRules resolved).alternatives.find? name = none from
        Table.find?_ofList_eq_none nowhere]
      rfl
    · intro name known
      obtain ⟨entry, listed, rfl⟩ := List.mem_map.mp known
      obtain ⟨found, bound⟩ := Table.exists_find?_ofList listed
      exact List.mem_map.mpr ⟨_, Table.mem_of_find? bound, rfl⟩
    · intro name alternative there
      obtain ⟨entry, known, inside⟩ := Grammar.exists_of_mem_ofRules there
      refine each ?_ entry known alternative inside
      exact fun rule there => List.all_eq_true.mp written rule there
    · intro rule there
      obtain ⟨_, _, _, source⟩ := all rule there
      exact (finishAlternatives_eq_ok source).1
    · intro rule there prepared inside
      obtain ⟨_, _, _, source⟩ := all rule there
      obtain ⟨alternative, known, fresh, made⟩ := (finishAlternatives_eq_ok source).2 prepared inside
      exact ⟨alternative, known, fresh, mentioned, .refl _, made⟩

/-- Preparing a pattern keeps all of a language but its literal variables and fresh names. -/
theorem prepare_snd (language : Language) (pattern : Pattern) :
    ∃ mentioned fresh, language.mentioned.Subset mentioned ∧
      (language.prepare pattern).2 = { language with mentioned := mentioned, fresh := fresh } := by
  have grows := Pattern.grows_resolve language.names pattern language.mentioned
  unfold prepare
  rcases run : (pattern.resolve language.names).run language.mentioned with
    ⟨fault | resolved, mentioned⟩
  · rw [run] at grows
    exact ⟨mentioned, _, grows, rfl⟩
  · rw [run] at grows
    cases depths : resolved.depths with
    | error fault =>
      simp only [depths]
      exact ⟨mentioned, _, grows, rfl⟩
    | ok found =>
      simp only [depths]
      exact ⟨mentioned, _, grows, rfl⟩

/-- A language stays defined by its grammar when its literal variables and fresh names grow. -/
theorem Defined.grow {language : Language} {grammar : Grammar} (defined : language.Defined grammar)
    {mentioned : SymbolSet} (grows : language.mentioned.Subset mentioned) (fresh : FreshNames) :
    { language with mentioned := mentioned, fresh := fresh }.Defined grammar where
  order := defined.order
  distinct := defined.distinct
  names := defined.names
  absent := defined.absent
  present := defined.present
  acyclic := defined.acyclic
  closures := defined.closures
  table := defined.table
  resolved := defined.resolved
  holes := defined.holes
  skeletons := defined.skeletons
  finished := by
    intro rule there prepared inside
    obtain ⟨alternative, known, names, earlier, fewer, made⟩ :=
      defined.finished rule there prepared inside
    exact ⟨alternative, known, names, earlier, fewer.trans grows, made⟩

/-- The states of a language: as it is defined, and after patterns were prepared against it. -/
inductive Stage (definition : LanguageDefinition) (span : Span) : Language → Prop
  | define {language : Language} (accepted : define definition span = .ok language) :
      Stage definition span language
  | prepare {language : Language} (stage : Stage definition span language) (pattern : Pattern) :
      Stage definition span (language.prepare pattern).2

/-- Every stage of a language is defined by one grammar. -/
theorem Stage.defined {definition : LanguageDefinition} {span : Span} {language : Language}
    (written : definition.isWritten = true) (stage : Stage definition span language) :
    ∃ grammar, language.Defined grammar := by
  induction stage with
  | define accepted => exact defined_of_define written accepted
  | prepare earlier pattern ih =>
    rename_i before
    obtain ⟨grammar, defined⟩ := ih
    obtain ⟨mentioned, fresh, grows, same⟩ := prepare_snd before pattern
    rw [same]
    exact ⟨grammar, defined.grow grows fresh⟩

end Language

end Reduct
