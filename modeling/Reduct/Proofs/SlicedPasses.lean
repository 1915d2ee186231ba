import Reduct.Proofs.ContextAcceptance
import Reduct.Proofs.Nesting
import Reduct.Proofs.SlicedExpressions

/-!
# Passes over patterns by position

The rules of a language are found by their positions, a cycle of aliases is the end of the way that
was searched, the follower of a repetition is sliced off behind it, and the place of a check is the
start of a path. All of these positions are in range. Preparing a pattern takes for granted that the
checks leave the depths of a pattern as they are, and they do.
-/

namespace Reduct

namespace Slicing

open Reduct.Language

/-! ## The rules of a language -/

/-- The positions of the rules by name, refusing names with an underscore and names that were
defined before. -/
def indexFrom (rules : List RuleDefinition) :
    Table Nat → List (RuleDefinition × Nat) → Slicing (Table Nat)
  | index, [] => pure index
  | index, (rule, position) :: rest =>
    if Symbol.hasSuffix rule.name then
      throw (.located (.underscoreName rule.name) rule.span "defined here")
    else
      match index.find? rule.name with
      | some first => do
        let earlier ← cut rules[first]?
        throw (.related (.duplicateNonTerminal rule.name) rule.span "redefined here" earlier.span
          "first defined here")
      | none => indexFrom rules (index.insert rule.name position) rest

/-- The span of the rule of a name. -/
def spanOf (rules : List RuleDefinition) (index : Table Nat) (span : Span) (name : Symbol) :
    Slicing Span :=
  match index.find? name with
  | some position => do
    let rule ← cut rules[position]?
    pure rule.span
  | none => pure span

/-- Search from every name in turn. -/
def searchEach (search : List Symbol → Symbol → Option Grammar.CycleSearch) :
    List Symbol → List Symbol → Option Grammar.CycleSearch
  | done, [] => some (.clear done)
  | done, name :: rest => do
    match ← search done name with
    | .found cycle => some (.found cycle)
    | .clear done => searchEach search done rest

/-- Search from a rule on; `stack` holds the rules on the way, the first first. A cycle is what is
on the stack from the rule on. -/
def searchCycle (grammar : Grammar) :
    Nat → List Symbol → List Symbol → Symbol → Option Grammar.CycleSearch
  | 0, _, done, _ => some (.clear done)
  | fuel + 1, stack, done, name =>
    if name ∈ stack then
      (suffix? stack (stack.idxOf name)).map fun cycle => .found (cycle ++ [name])
    else if name ∈ done then some (.clear done)
    else do
      match ← searchEach (searchCycle grammar fuel (stack ++ [name])) done
        (grammar.aliases name) with
      | .found cycle => some (.found cycle)
      | .clear done => some (.clear (name :: done))

/-- Refuse a cycle of aliases at the rule that it starts with. -/
def checkAliases (grammar : Grammar) (rules : List RuleDefinition) (index : Table Nat)
    (span : Span) : Slicing Unit := do
  match ← cut (searchEach (searchCycle grammar (grammar.order.length + 1) []) [] grammar.order) with
  | .found cycle => do
    let first ← cut cycle[0]?
    let place ← spanOf rules index span first
    throw (.located (.aliasCycle cycle) place "cycle starts here")
  | .clear _ => pure ()

/-- The language of a definition. -/
def define (definition : LanguageDefinition) (span : Span) : Slicing Language := do
  let index ← indexFrom definition.rules .empty definition.rules.zipIdx
  let names := SymbolSet.ofList (definition.rules.map (·.name))
  let (rules, mentioned) ← read (resolveRules names definition.rules .empty)
  let grammar := Grammar.ofRules rules
  checkAliases grammar definition.rules index span
  let bare : Language :=
    { name := definition.name
      rules := []
      names := names
      mentioned := mentioned
      closures := .ofGrammar grammar
      holes := grammar.holeTable
      fresh := .empty }
  let (rules, fresh) ← read (bare.finishRules grammar definition.rules .empty)
  pure { bare with rules := rules, fresh := fresh }

/-- An index finds the rules that were seen. -/
structure Indexes (rules seen : List RuleDefinition) (index : Table Nat) : Prop where
  found : ∀ name position, index.find? name = some position → ∃ rule,
    rules[position]? = some rule ∧ (seen.find? fun other => other.name = name) = some rule
  missing : ∀ name, index.find? name = none → (seen.find? fun other => other.name = name) = none

theorem indexes_nil (rules : List RuleDefinition) : Indexes rules [] .empty := ⟨nofun, fun _ _ => rfl⟩

/-- The next rule is added under a name that was not defined before. -/
theorem Indexes.insert {rules seen : List RuleDefinition} {index : Table Nat}
    (indexes : Indexes rules seen index) {rule : RuleDefinition} (new : index.find? rule.name = none)
    (here : rules[seen.length]? = some rule) :
    Indexes rules (seen ++ [rule]) (index.insert rule.name seen.length) where
  found name position at_ := by
    rw [Table.find?_insert] at at_
    split at at_
    · rename_i same
      subst same
      cases at_
      refine ⟨rule, here, ?_⟩
      rw [List.find?_append, indexes.missing _ new]
      simp
    · obtain ⟨earlier, there, first⟩ := indexes.found name position at_
      exact ⟨earlier, there, by rw [List.find?_append, first]; rfl⟩
  missing name absent := by
    rw [Table.find?_insert] at absent
    split at absent
    · cases absent
    · rename_i apart
      rw [List.find?_append, indexes.missing name absent]
      simp [apart]

/-- The positions of the rules are those that the names were given in, and a name that was defined
before is found at its position. -/
theorem run_indexFrom {rules : List RuleDefinition} : ∀ {rest seen : List RuleDefinition}
    {index : Table Nat}, rules = seen ++ rest → Indexes rules seen index → ∃ last,
      Gives (indexFrom rules index (rest.zipIdx seen.length))
        ((checkNames seen rest).map fun _ => last) ∧
      (checkNames seen rest = .ok () → Indexes rules rules last) := by
  intro rest
  induction rest with
  | nil =>
    intro seen index whole indexes
    rw [List.append_nil] at whole
    exact ⟨index, gives_pure index, fun _ => whole ▸ indexes⟩
  | cons rule rest ih =>
    intro seen index whole indexes
    have here : rules[seen.length]? = some rule := by
      rw [whole, List.getElem?_append_right (Nat.le_refl _), Nat.sub_self]
      rfl
    rw [List.zipIdx_cons, indexFrom, checkNames, checkName]
    by_cases suffixed : Symbol.hasSuffix rule.name = true
    · rw [if_pos suffixed, if_pos suffixed]
      exact ⟨index, gives_throw _, fun accepted => by cases accepted⟩
    · rw [if_neg suffixed, if_neg suffixed]
      cases before : index.find? rule.name with
      | some first =>
        obtain ⟨earlier, there, known⟩ := indexes.found rule.name first before
        rw [known]
        exact ⟨index, .cut there (gives_throw _), fun accepted => by cases accepted⟩
      | none =>
        rw [indexes.missing rule.name before]
        have later := @ih (seen ++ [rule]) _ (by simp [whole]) (indexes.insert before here)
        rw [List.length_append] at later
        exact later

theorem gives_spanOf {definition : LanguageDefinition} {index : Table Nat}
    (indexes : Indexes definition.rules definition.rules index) (span : Span) (name : Symbol) :
    Gives (spanOf definition.rules index span name) (.ok (ruleSpan definition span name)) := by
  unfold spanOf ruleSpan
  cases listed : index.find? name with
  | some position =>
    obtain ⟨rule, there, known⟩ := indexes.found name position listed
    rw [known]
    exact .cut there (gives_pure _)
  | none =>
    rw [indexes.missing name listed]
    exact gives_pure _

theorem searchEach_eq {sliced : List Symbol → Symbol → Option Grammar.CycleSearch}
    {search : List Symbol → Symbol → Grammar.CycleSearch}
    (each : ∀ done name, sliced done name = some (search done name)) :
    ∀ (names done : List Symbol),
      searchEach sliced done names = some (Grammar.searchEach search done names) := by
  intro names
  induction names with
  | nil => exact fun _ => rfl
  | cons name rest ih =>
    intro done
    rw [searchEach, Grammar.searchEach, each]
    cases search done name with
    | found cycle => rfl
    | clear done => exact ih done

/-- The rules on a way are distinct, so the place of a rule parts the way at that rule. -/
theorem suffix?_idxOf {way : List Symbol} (distinct : way.Nodup) {name : Symbol}
    (among : name ∈ way) : (suffix? way.reverse (way.reverse.idxOf name)).map (· ++ [name]) =
      some ((name :: way.takeWhile (· ≠ name) ++ [name]).reverse) := by
  obtain ⟨front, back, rfl⟩ := List.append_of_mem among
  have apart : name ∉ front := by
    intro listed
    exact (List.nodup_append.mp distinct).2.2 name listed name List.mem_cons_self rfl
  have before : name ∉ back := by
    exact (List.nodup_cons.mp (List.nodup_append.mp distinct).2.1).1
  have start : (front ++ name :: back).takeWhile (· ≠ name) = front := by
    have kept : ∀ other ∈ front, decide (other ≠ name) = true := by
      intro other listed
      rw [decide_eq_true_iff]
      rintro rfl
      exact apart listed
    rw [List.takeWhile_append_of_pos kept]
    simp
  have turned : (front ++ name :: back).reverse = back.reverse ++ name :: front.reverse := by simp
  have place : (back.reverse ++ name :: front.reverse).idxOf name = back.reverse.length := by
    rw [List.idxOf_append_of_notMem (by simpa using before)]
    simp
  rw [start, turned, place, suffix?, if_pos (by simp), List.drop_left]
  simp

theorem searchCycle_eq (grammar : Grammar) : ∀ (fuel : Nat) {way : List Symbol}, way.Nodup →
    ∀ done name, searchCycle grammar fuel way.reverse done name =
      some (grammar.searchCycle fuel way done name) := by
  intro fuel
  induction fuel with
  | zero => exact fun _ _ _ => rfl
  | succ fuel ih =>
    intro way distinct done name
    rw [searchCycle, Grammar.searchCycle]
    by_cases known : name ∈ way
    · rw [if_pos known, if_pos (List.mem_reverse.mpr known)]
      have part := congrArg (Option.map Grammar.CycleSearch.found) (suffix?_idxOf distinct known)
      rw [Option.map_map] at part
      exact part
    · rw [if_neg known, if_neg (fun listed => known (List.mem_reverse.mp listed))]
      by_cases clear : name ∈ done
      · rw [if_pos clear, if_pos clear]
      · rw [if_neg clear, if_neg clear, ← List.reverse_cons,
          searchEach_eq (ih (List.nodup_cons.mpr ⟨known, distinct⟩))]
        cases Grammar.searchEach (grammar.searchCycle fuel (name :: way)) done
          (grammar.aliases name) <;> rfl

/-- What is found from one of several names is found from a name. -/
theorem exists_of_searchEach {search : List Symbol → Symbol → Grammar.CycleSearch}
    {cycle : List Symbol} : ∀ {names done : List Symbol},
    Grammar.searchEach search done names = .found cycle →
      ∃ done name, search done name = .found cycle := by
  intro names
  induction names with
  | nil => exact fun run => nomatch run
  | cons name rest ih =>
    intro done run
    rw [Grammar.searchEach] at run
    cases first : search done name with
    | found other =>
      rw [first] at run
      exact ⟨done, name, first.trans run⟩
    | clear done =>
      rw [first] at run
      exact ih run

/-- A cycle that is found has a first rule. -/
theorem ne_nil_of_searchCycle {grammar : Grammar} {cycle : List Symbol} :
    ∀ {fuel : Nat} {way done : List Symbol} {name : Symbol},
      grammar.searchCycle fuel way done name = .found cycle → cycle ≠ [] := by
  intro fuel
  induction fuel with
  | zero => exact fun run => nomatch run
  | succ fuel ih =>
    intro way done name run
    rw [Grammar.searchCycle] at run
    split at run
    · cases run
      simp
    · split at run
      · cases run
      · split at run
        · rename_i other search
          cases run
          obtain ⟨done, name, found⟩ := exists_of_searchEach search
          exact ih found
        · cases run

/-- A cycle of aliases is refused at its first rule. -/
theorem gives_checkAliases {definition : LanguageDefinition} {index : Table Nat}
    (indexes : Indexes definition.rules definition.rules index) (grammar : Grammar) (span : Span) :
    Gives (checkAliases grammar definition.rules index span)
      (match grammar.aliasCycle? with
      | some cycle =>
        .error (.located (.aliasCycle cycle) (ruleSpan definition span (cycle.headD ""))
          "cycle starts here")
      | none => .ok ()) := by
  refine .cut (searchEach_eq (searchCycle_eq grammar _ List.nodup_nil) _ _) ?_
  unfold Grammar.aliasCycle?
  cases search : Grammar.searchEach (grammar.searchCycle (grammar.order.length + 1) []) []
      grammar.order with
  | clear done => exact gives_pure _
  | found cycle =>
    obtain ⟨done, name, found⟩ := exists_of_searchEach search
    obtain ⟨first, rest, rfl⟩ := List.exists_cons_of_ne_nil (ne_nil_of_searchCycle found)
    exact .cut rfl ((gives_spanOf indexes span first).andThen (gives_throw _))

/-- Every language is defined in range. -/
theorem gives_define (definition : LanguageDefinition) (span : Span) :
    Gives (define definition span) (Language.define definition span) := by
  obtain ⟨index, indexed, indexes⟩ :=
    @run_indexFrom definition.rules definition.rules [] .empty rfl (indexes_nil definition.rules)
  unfold Language.define
  cases names : checkNames [] definition.rules with
  | error fault =>
    rw [names] at indexed
    exact indexed.stop _
  | ok _ =>
    rw [names] at indexed
    refine indexed.andThen ?_
    refine (gives_read _).bind fun resolved _ => ?_
    have aliases := gives_checkAliases (indexes names) (Grammar.ofRules resolved.1) span
    dsimp only
    cases cycle : (Grammar.ofRules resolved.1).aliasCycle? with
    | some way =>
      rw [cycle] at aliases
      exact aliases.stop _
    | none =>
      rw [cycle] at aliases
      exact aliases.andThen ((gives_read _).bind fun _ _ => gives_pure _)

/-! ## Repetitions and checks -/

/-- How a repetition explores before the given items; no way for another pattern. -/
def modeBefore (closures : Closures) (mentioned : SymbolSet) (later : List Pattern) :
    Pattern → Option RepeatMode
  | .repeated inner _ => some (Pattern.repeatMode closures mentioned inner later)
  | _ => none

/-- How the repetition at a position explores. -/
def modeAt (closures : Closures) (mentioned : SymbolSet) (items : List Pattern) (index : Nat) :
    Option (Option RepeatMode) := do
  let item ← items[index]?
  let later ← suffix? items (index + 1)
  some (modeBefore closures mentioned later item)

/-- A repetition explores as chosen. -/
def withMode : Pattern → Option RepeatMode → Pattern
  | .repeated inner _, some mode => .repeated inner mode
  | item, _ => item

/-- The items with the mode of every repetition chosen. -/
def chooseModes (closures : Closures) (mentioned : SymbolSet) (items : List Pattern) :
    Option (List Pattern) := do
  let modes ← (List.range items.length).mapM (modeAt closures mentioned items)
  some (items.zipWith withMode modes)

/-- The place of the check between an occurrence and a later one. -/
def checkPlace (earlier later : PatternPath) (test : Check) : Option Pattern.PlacedCheck := do
  let shared := ((earlier.zip later).takeWhile fun steps => steps.1 = steps.2).length
  let node ← between? later 0 shared
  let after :=
    match later[shared]? with
    | some (.item index) => some index
    | _ => none
  some ⟨node, after, test⟩

theorem modeAt_length (closures : Closures) (mentioned : SymbolSet) (front : List Pattern)
    (item : Pattern) (rest : List Pattern) :
    modeAt closures mentioned (front ++ item :: rest) front.length =
      some (modeBefore closures mentioned rest item) := by
  have later : suffix? (front ++ item :: rest) (front.length + 1) = some rest := by
    rw [suffix?, if_pos (by simp)]
    simp
  rw [modeAt, List.getElem?_append_right (Nat.le_refl _), Nat.sub_self, later]
  rfl

/-- The modes of the items from a position on. -/
theorem mapM_modeAt (closures : Closures) (mentioned : SymbolSet) :
    ∀ (rest front : List Pattern), ∃ modes,
      (List.range' front.length rest.length).mapM (modeAt closures mentioned (front ++ rest)) =
        some modes ∧
      rest.zipWith withMode modes = Pattern.chooseModes closures mentioned rest := by
  intro rest
  induction rest with
  | nil => exact fun front => ⟨[], rfl, rfl⟩
  | cons item rest ih =>
    intro front
    obtain ⟨modes, others, same⟩ := ih (front ++ [item])
    rw [List.length_append, List.append_assoc] at others
    refine ⟨modeBefore closures mentioned rest item :: modes, ?_, ?_⟩
    · rw [List.length_cons, List.range'_succ, List.mapM_cons, modeAt_length]
      exact congrArg (· >>= fun modes => some (modeBefore closures mentioned rest item :: modes))
        others
    · rw [List.zipWith_cons_cons, same]
      cases item <;> rfl

theorem chooseModes_eq (closures : Closures) (mentioned : SymbolSet) (items : List Pattern) :
    chooseModes closures mentioned items = some (Pattern.chooseModes closures mentioned items) := by
  obtain ⟨modes, found, same⟩ := mapM_modeAt closures mentioned items []
  rw [chooseModes, List.range_eq_range']
  exact (congrArg (· >>= fun modes => some (items.zipWith withMode modes)) found).trans
    (congrArg some same)

/-- The steps that two paths share are those up to the first that differs. -/
theorem length_takeWhile_zip (earlier later : PatternPath) :
    ((earlier.zip later).takeWhile fun steps => steps.1 = steps.2).length =
      (Pattern.sharedSteps earlier later).length := by
  induction earlier generalizing later with
  | nil => rfl
  | cons step earlier ih =>
    cases later with
    | nil => rfl
    | cons other later =>
      rw [List.zip_cons_cons, List.takeWhile_cons, Pattern.sharedSteps]
      by_cases same : step = other
      · rw [if_pos same, if_pos (decide_eq_true same), List.length_cons, List.length_cons, ih]
      · rw [if_neg same, if_neg (by simpa using same)]
        rfl

theorem checkPlace_eq (earlier later : PatternPath) (test : Check) :
    checkPlace earlier later test = some (Pattern.checkPlace earlier later test) := by
  have start := (Pattern.sharedSteps_prefix earlier later).2
  have node : between? later 0 (Pattern.sharedSteps earlier later).length =
      some (Pattern.sharedSteps earlier later) := by
    rw [between?, if_pos ⟨Nat.zero_le _, start.length_le⟩, List.drop_zero]
    exact congrArg some (List.prefix_iff_eq_take.mp start).symm
  unfold checkPlace Pattern.checkPlace
  dsimp only
  rw [length_takeWhile_zip, node, ← List.head?_drop]
  match later.drop (Pattern.sharedSteps earlier later).length with
  | [] | .item _ :: _ | .inner :: _ | .context :: _ | .contents :: _ => rfl

/-! ## What a preparation takes for granted -/

/-- Every depth that a pattern has before its checks is its depth after them. -/
def KeepsDepths (language : Language) (pattern : Pattern) : Prop :=
  ∀ {resolved mentioned depths prepared},
    (pattern.resolve language.names).run language.mentioned = (.ok resolved, mentioned) →
    resolved.depths = .ok depths → (language.prepare pattern).1 = .ok prepared →
    ∀ symbol depth, depths.find? symbol = some depth → prepared.depths.find? symbol = some depth

theorem keepsDepths (language : Language) (pattern : Pattern) : KeepsDepths language pattern := by
  intro resolved mentioned depths prepared resolves known prepares symbol depth found
  rw [prepare_fst resolves known] at prepares
  have finished := (finish_eq_ok.mp prepares).1
  have listed := (Pattern.find?_depths known).mp found
  exact (Pattern.find?_depths finished).mpr
    (Pattern.mem_nestings_insertChecks_of_mem language.fresh known listed)

/-- The rules of a language keep the positions of their definitions. -/
theorem map_name_of_define {definition : LanguageDefinition} {span : Span} {language : Language}
    (accepted : Language.define definition span = .ok language) :
    language.rules.map (·.name) = definition.rules.map (·.name) := by
  unfold Language.define at accepted
  obtain ⟨_, _, rest⟩ := Except.bind_eq_ok.mp accepted
  obtain ⟨⟨resolved, mentioned⟩, _, last⟩ := Except.bind_eq_ok.mp rest
  dsimp only at last
  cases cycle : (Grammar.ofRules resolved).aliasCycle? with
  | some way =>
    rw [cycle] at last
    cases last
  | none =>
    rw [cycle] at last
    obtain ⟨⟨rules, fresh⟩, finished, made⟩ := Except.bind_eq_ok.mp last
    cases made
    exact (finishRules_eq_ok finished).1

end Slicing

end Reduct
