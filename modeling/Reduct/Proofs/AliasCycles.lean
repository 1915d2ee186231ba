import Mathlib.Data.List.Chain
import Reduct.Proofs.LiteralVariables
import Reduct.Proofs.PreparationFaults
import Reduct.Proofs.ShapeComparison

/-!
# Cycles of aliases

A definition whose names are in order and whose productions resolve is refused for a cycle of
aliases exactly if it has one. What the search follows are the aliases as they are written, and the
rules on its way are linked one to the next, so what it reports is a cycle; a search that reports
none ranks the rules, and no rule on a cycle has a rank.
-/

namespace Reduct

/-- A path along edges that ends where it starts, and passes nothing else twice. -/
def IsCycle (edge : Symbol → Symbol → Prop) (path : List Symbol) : Prop :=
  ∃ first inner, path = first :: (inner ++ [first]) ∧ (first :: inner).Nodup ∧ path.IsChain edge

theorem transGen_of_isChain {edge : Symbol → Symbol → Prop} {last : Symbol} (inner : List Symbol) :
    ∀ {first : Symbol}, (first :: (inner ++ [last])).IsChain edge →
      Relation.TransGen edge first last := by
  induction inner with
  | nil => exact fun chain => .single (List.isChain_cons_cons.mp chain).1
  | cons next rest ih =>
    intro first chain
    obtain ⟨step, others⟩ := List.isChain_cons_cons.mp chain
    exact .head step (ih others)

theorem IsCycle.transGen {edge : Symbol → Symbol → Prop} {path : List Symbol}
    (cycle : IsCycle edge path) : ∃ name, Relation.TransGen edge name name := by
  obtain ⟨first, inner, rfl, _, chain⟩ := cycle
  exact ⟨first, transGen_of_isChain inner chain⟩

namespace Grammar

variable {grammar : Grammar}

theorem searchEach_found {search : List Symbol → Symbol → CycleSearch} {cycle names : List Symbol} :
    ∀ {before : List Symbol}, searchEach search before names = .found cycle →
      ∃ name ∈ names, ∃ done, search done name = .found cycle := by
  induction names with
  | nil => nofun
  | cons name rest ih =>
    intro before run
    rw [searchEach] at run
    cases first : search before name with
    | found other =>
      rw [first] at run
      cases run
      exact ⟨name, List.mem_cons_self, before, first⟩
    | clear done =>
      rw [first] at run
      obtain ⟨other, listed, middle, found⟩ := ih run
      exact ⟨other, List.mem_cons_of_mem _ listed, middle, found⟩

/-- A rule that is on the way already closes a cycle. -/
theorem isCycle_of_mem {way : List Symbol} {name : Symbol} (listed : name ∈ way)
    (distinct : way.Nodup)
    (chain : (name :: way).IsChain fun other before => grammar.Leads before other) :
    IsCycle grammar.Leads (name :: way.takeWhile (· ≠ name) ++ [name]).reverse := by
  obtain ⟨front, rest, rfl, outside⟩ := List.eq_append_cons_of_mem listed
  have taken : (front ++ name :: rest).takeWhile (· ≠ name) = front := by
    rw [List.takeWhile_append_of_pos, List.takeWhile_cons_of_neg, List.append_nil]
    · simp
    · exact fun other inside => by
        simpa using fun same : other = name => outside (same ▸ inside)
  rw [taken]
  refine ⟨name, front.reverse, by simp, ?_, ?_⟩
  · refine List.nodup_cons.mpr ⟨fun inside => outside (List.mem_reverse.mp inside), ?_⟩
    exact List.nodup_reverse.mpr (List.Nodup.of_append_left distinct)
  · have split : name :: (front ++ name :: rest) = (name :: front ++ [name]) ++ rest := by simp
    rw [split] at chain
    exact List.isChain_reverse.mpr chain.left_of_append

/-- What a search finds is a cycle, since every rule on the way leads to the next. -/
theorem searchCycle_found {cycle : List Symbol} (fuel : Nat) :
    ∀ {way done : List Symbol} {name : Symbol}, way.Nodup →
      ((name :: way).IsChain fun other before => grammar.Leads before other) →
      grammar.searchCycle fuel way done name = .found cycle → IsCycle grammar.Leads cycle := by
  induction fuel with
  | zero => nofun
  | succ fuel ih =>
    intro way done name distinct chain run
    rw [searchCycle] at run
    split at run
    · rename_i listed
      cases run
      exact isCycle_of_mem listed distinct chain
    · rename_i new
      split at run
      · cases run
      · cases search : searchEach (grammar.searchCycle fuel (name :: way)) done
            (grammar.aliases name) with
        | clear after =>
          rw [search] at run
          cases run
        | found other =>
          rw [search] at run
          cases run
          obtain ⟨stem, leads, before, found⟩ := searchEach_found search
          exact ih (List.nodup_cons.mpr ⟨new, distinct⟩) (List.isChain_cons_cons.mpr ⟨leads, chain⟩)
            found

theorem isCycle_of_aliasCycle? {cycle : List Symbol} (found : grammar.aliasCycle? = some cycle) :
    IsCycle grammar.Leads cycle := by
  unfold aliasCycle? at found
  split at found
  · rename_i search
    cases found
    obtain ⟨name, _, before, run⟩ := searchEach_found search
    exact searchCycle_found _ List.nodup_nil (.singleton name) run
  · cases found

/-- Where no cycle is found there is none, since the rules have ranks. -/
theorem acyclic_of_aliasCycle? (none : grammar.aliasCycle? = none)
    (closed : ∀ name, ∀ stem ∈ grammar.aliases name, stem ∈ grammar.order)
    (absent : ∀ name, name ∉ grammar.order → grammar.aliases name = []) : grammar.Acyclic := by
  obtain ⟨rank, _, lower⟩ := exists_rank none closed absent
  exact acyclic_of_rank lower

/-- With distinct names, a rule has the alternatives that are given for it. -/
theorem mem_alternativesOf_ofRules {rules : List (Symbol × List Pattern)}
    (distinct : (rules.map (·.1)).Nodup) {name : Symbol} {alternative : Pattern} :
    alternative ∈ (ofRules rules).alternativesOf name ↔
      ∃ alternatives, (name, alternatives) ∈ rules ∧ alternative ∈ alternatives := by
  unfold alternativesOf
  constructor
  · intro listed
    cases found : (ofRules rules).alternatives.find? name with
    | none =>
      rw [found] at listed
      cases listed
    | some alternatives =>
      rw [found] at listed
      exact ⟨alternatives, Table.mem_of_find?_ofList found, listed⟩
  · rintro ⟨alternatives, listed, inside⟩
    have found : (ofRules rules).alternatives.find? name = some alternatives :=
      Table.find?_ofList_of_mem distinct listed
    rw [found]
    exact inside

theorem mem_aliases {name stem : Symbol} : stem ∈ grammar.aliases name ↔
    ∃ symbol, .nonTerminal stem symbol ∈ grammar.alternativesOf name := by
  rw [aliases, List.mem_filterMap]
  constructor
  · rintro ⟨alternative, listed, same⟩
    cases alternative with
    | nonTerminal found symbol =>
      cases same
      exact ⟨symbol, listed⟩
    | _ => cases same
  · rintro ⟨symbol, listed⟩
    exact ⟨_, listed, rfl⟩

end Grammar

/-- A rule of a definition has a symbol among its alternatives that stands for a rule. -/
def LanguageDefinition.Aliases (definition : LanguageDefinition) (name other : Symbol) : Prop :=
  ∃ rule ∈ definition.rules, rule.name = name ∧
    ∃ symbol, .unresolved symbol ∈ rule.alternatives ∧ Symbol.stem symbol = other ∧
      ∃ target ∈ definition.rules, target.name = other

namespace Pattern

variable {names before after : SymbolSet} {stem symbol : Symbol}

/-- Only a bare symbol whose stem is the name of a rule resolves to a non-terminal. -/
theorem resolve_eq_nonTerminal {pattern resolved : Pattern} (written : pattern.isWritten = true)
    (accepted : (pattern.resolve names).run before = (.ok resolved, after)) :
    .nonTerminal stem symbol = resolved ↔
      .unresolved symbol = pattern ∧ Symbol.stem symbol = stem ∧ names.contains stem = true := by
  cases pattern with
  | unresolved other =>
    rw [resolve, ofSymbol] at accepted
    have known : names.contains (Symbol.stem other) = true ↔
        Symbol.resolution names other = .nonTerminal := by
      refine ⟨fun listed => ?_, resolution_eq_nonTerminal⟩
      unfold Symbol.resolution
      exact if_pos listed
    split at accepted
    · rename_i found
      obtain ⟨rfl, rfl⟩ := run_pure_eq_ok.mp accepted
      constructor
      · rintro ⟨rfl, rfl⟩
        exact ⟨rfl, rfl, known.mpr found⟩
      · rintro ⟨⟨rfl⟩, rfl, _⟩
        rfl
    · rename_i found
      obtain ⟨rfl, rfl⟩ := run_pure_eq_ok.mp accepted
      refine ⟨by simp, ?_⟩
      rintro ⟨⟨rfl⟩, rfl, listed⟩
      rw [known.mp listed] at found
      cases found
    · cases accepted
    · rename_i found
      cases accepted
      refine ⟨by simp, ?_⟩
      rintro ⟨⟨rfl⟩, rfl, listed⟩
      rw [known.mp listed] at found
      cases found
  | literal value =>
    cases value <;> (cases accepted; simp)
  | builtIn kind other =>
    cases accepted
    simp
  | sequence items =>
    rw [resolve] at accepted
    obtain ⟨_, _, _, last⟩ := run_bind_eq_ok.mp accepted
    obtain ⟨rfl, rfl⟩ := run_pure_eq_ok.mp last
    simp
  | inHole context contents checks =>
    rw [resolve] at accepted
    obtain ⟨_, _, _, rest⟩ := run_bind_eq_ok.mp accepted
    obtain ⟨_, _, _, last⟩ := run_bind_eq_ok.mp rest
    obtain ⟨rfl, rfl⟩ := run_pure_eq_ok.mp last
    simp
  | nonTerminal | repeated | check => cases written

theorem nonTerminal_mem_resolveAll {patterns : List Pattern} :
    ∀ {before after : SymbolSet} {resolved : List Pattern}, patterns.all (·.isWritten) = true →
      (resolveAll names patterns).run before = (.ok resolved, after) →
      (.nonTerminal stem symbol ∈ resolved ↔ .unresolved symbol ∈ patterns ∧
        Symbol.stem symbol = stem ∧ names.contains stem = true) := by
  induction patterns with
  | nil =>
    intro before after resolved _ accepted
    cases accepted
    exact ⟨nofun, fun given => nomatch given.1⟩
  | cons first rest ih =>
    intro before after resolved written accepted
    rw [resolveAll] at accepted
    obtain ⟨item, middle, here, last⟩ := run_bind_eq_ok.mp accepted
    obtain ⟨others, later, second, all⟩ := run_bind_eq_ok.mp last
    obtain ⟨rfl, rfl⟩ := run_pure_eq_ok.mp all
    simp only [List.all_cons, Bool.and_eq_true] at written
    rw [List.mem_cons, List.mem_cons, resolve_eq_nonTerminal written.1 here, ih written.2 second,
      or_and_right]

end Pattern

theorem Fault.Late.code {fault : Fault} (late : fault.Late) :
    fault.cause.code = .inconsistentDepth ∨ fault.cause.code = .contextHoles := by
  cases late with
  | depth => exact .inl rfl
  | context => exact .inr rfl

namespace Language

theorem nonTerminal_mem_resolveRules {names : SymbolSet} {name stem symbol : Symbol}
    {rules : List RuleDefinition} :
    ∀ {before after : SymbolSet} {resolved : List (Symbol × List Pattern)},
      (∀ rule ∈ rules, rule.alternatives.all (·.isWritten) = true) →
      resolveRules names rules before = .ok (resolved, after) →
      ((∃ alternatives, (name, alternatives) ∈ resolved ∧ .nonTerminal stem symbol ∈ alternatives) ↔
        (∃ rule ∈ rules, rule.name = name ∧ .unresolved symbol ∈ rule.alternatives) ∧
          Symbol.stem symbol = stem ∧ names.contains stem = true) := by
  induction rules with
  | nil =>
    intro before after resolved _ accepted
    cases accepted
    simp
  | cons first rest ih =>
    intro before after resolved written accepted
    obtain ⟨one, others⟩ := List.forall_mem_cons.mp written
    rw [resolveRules] at accepted
    dsimp only at accepted
    obtain ⟨alternatives, here, last⟩ := Except.bind_eq_ok.mp accepted
    obtain ⟨⟨remaining, later⟩, there, made⟩ := Except.bind_eq_ok.mp last
    cases made
    have accepted : (Pattern.resolveAll names first.alternatives).run before =
        (.ok alternatives, ((Pattern.resolveAll names first.alternatives).run before).2) :=
      Prod.ext (locate_eq_ok.mp here) rfl
    have head : .nonTerminal stem symbol ∈ alternatives ↔ _ :=
      Pattern.nonTerminal_mem_resolveAll one accepted
    have tail := ih others there
    constructor
    · rintro ⟨listed, among, inside⟩
      rcases List.mem_cons.mp among with same | later
      · cases same
        obtain ⟨bare, known⟩ := head.mp inside
        exact ⟨⟨first, List.mem_cons_self, rfl, bare⟩, known⟩
      · obtain ⟨⟨rule, known, found⟩, rest⟩ := tail.mp ⟨listed, later, inside⟩
        exact ⟨⟨rule, List.mem_cons_of_mem _ known, found⟩, rest⟩
    · rintro ⟨⟨rule, known, rfl, bare⟩, rest⟩
      rcases List.mem_cons.mp known with rfl | later
      · exact ⟨alternatives, List.mem_cons_self, head.mpr ⟨bare, rest⟩⟩
      · obtain ⟨listed, among, inside⟩ := tail.mpr ⟨⟨rule, later, rfl, bare⟩, rest⟩
        exact ⟨listed, List.mem_cons_of_mem _ among, inside⟩

/-- Distinct names without underscores pass. -/
theorem checkNames_eq_ok {rules : List RuleDefinition} :
    ∀ {seen : List RuleDefinition}, ((seen ++ rules).map (·.name)).Nodup →
      (∀ rule ∈ rules, Symbol.hasSuffix rule.name = false) → checkNames seen rules = .ok () := by
  induction rules with
  | nil => exact fun _ _ => rfl
  | cons first rest ih =>
    intro seen distinct plain
    obtain ⟨here, others⟩ := List.forall_mem_cons.mp plain
    have new : seen.find? (fun earlier => earlier.name = first.name) = none := by
      refine List.find?_eq_none.mpr fun earlier listed same => ?_
      rw [List.map_append, List.nodup_append] at distinct
      exact distinct.2.2 _ (List.mem_map_of_mem listed) _ List.mem_cons_self
        (of_decide_eq_true same)
    have passed : checkName seen first = .ok () := by
      unfold checkName
      rw [here, new]
      rfl
    rw [checkNames, passed]
    refine ih ?_ others
    rw [List.append_assoc]
    exact distinct

/-- The last passes find faults of their own only. -/
theorem code_finishRules {language : Language} {grammar : Grammar} {rules : List RuleDefinition} :
    ∀ {fresh : FreshNames} {fault : Fault},
      language.finishRules grammar rules fresh = .error fault →
      fault.cause.code ≠ .aliasCycle := by
  induction rules with
  | nil =>
    intro fresh fault failed
    cases failed
  | cons rule rest ih =>
    intro fresh fault failed
    rw [finishRules] at failed
    rcases Except.bind_eq_error.mp failed with first | ⟨_, _, later⟩
    · have meets := language.meets_finishAlternatives (grammar.alternativesOf rule.name) fresh
      cases finished : language.finishAlternatives (grammar.alternativesOf rule.name) fresh with
      | ok _ =>
        rw [finished] at first
        cases first
      | error inner =>
        rw [finished] at first meets
        cases first
        change inner.cause.code ≠ .aliasCycle
        rcases Fault.Late.code meets with same | same <;> (rw [same]; simp)
    · rcases Except.bind_eq_error.mp later with second | ⟨_, _, made⟩
      · exact ih second
      · cases made

/-- A definition is refused for what the search finds, once its names and productions pass. -/
theorem code_define_iff {definition : LanguageDefinition} {span : Span}
    {resolved : List (Symbol × List Pattern)} {mentioned : SymbolSet}
    (distinct : (definition.rules.map (·.name)).Nodup)
    (plain : ∀ rule ∈ definition.rules, Symbol.hasSuffix rule.name = false)
    (resolves : resolveRules definition.names definition.rules .empty = .ok (resolved, mentioned))
    {fault : Fault} :
    (define definition span = .error fault ∧ fault.cause.code = .aliasCycle) ↔
      ∃ cycle, (Grammar.ofRules resolved).aliasCycle? = some cycle ∧
        fault = .located (.aliasCycle cycle) (ruleSpan definition span (cycle.headD ""))
          "cycle starts here" := by
  have names : checkNames [] definition.rules = .ok () := checkNames_eq_ok distinct plain
  change resolveRules (SymbolSet.ofList (definition.rules.map (·.name))) _ _ = _ at resolves
  unfold define
  rw [names]
  simp only [resolves, bind, Except.bind]
  cases search : (Grammar.ofRules resolved).aliasCycle? with
  | some cycle =>
    constructor
    · rintro ⟨⟨⟩, _⟩
      exact ⟨cycle, rfl, rfl⟩
    · rintro ⟨_, ⟨⟩, rfl⟩
      exact ⟨rfl, rfl⟩
  | none =>
    refine ⟨?_, fun ⟨_, found, _⟩ => nomatch found⟩
    rintro ⟨failed, same⟩
    rcases Except.bind_eq_error.mp failed with first | ⟨_, _, made⟩
    · exact absurd same (code_finishRules first)
    · cases made

/-- The edges that the search follows are the aliases of the definition. -/
theorem leads_iff {definition : LanguageDefinition} {resolved : List (Symbol × List Pattern)}
    {mentioned : SymbolSet} (written : definition.isWritten = true)
    (distinct : (definition.rules.map (·.name)).Nodup)
    (resolves : resolveRules definition.names definition.rules .empty = .ok (resolved, mentioned))
    {name other : Symbol} :
    (Grammar.ofRules resolved).Leads name other ↔ definition.Aliases name other := by
  have each : ∀ rule ∈ definition.rules, rule.alternatives.all (·.isWritten) = true :=
    List.all_eq_true.mp written
  have keys : (resolved.map (·.1)).Nodup := by
    rw [(resolveRules_eq_ok resolves).1]
    exact distinct
  have known : definition.names.contains other = true ↔
      ∃ target ∈ definition.rules, target.name = other := by
    rw [LanguageDefinition.names, SymbolSet.contains_ofList, List.mem_map]
  unfold Grammar.Leads LanguageDefinition.Aliases
  rw [Grammar.mem_aliases]
  constructor
  · rintro ⟨symbol, listed⟩
    obtain ⟨⟨rule, there, same, bare⟩, stem, target⟩ := (nonTerminal_mem_resolveRules each
      resolves).mp ((Grammar.mem_alternativesOf_ofRules keys).mp listed)
    exact ⟨rule, there, same, symbol, bare, stem, known.mp target⟩
  · rintro ⟨rule, there, same, symbol, bare, stem, target⟩
    exact ⟨symbol, (Grammar.mem_alternativesOf_ofRules keys).mpr ((nonTerminal_mem_resolveRules each
      resolves).mpr ⟨⟨rule, there, same, bare⟩, stem, known.mpr target⟩)⟩

/-- A definition whose names are distinct and without underscores, and whose productions resolve,
is refused for a cycle of aliases exactly if it has one; the path in the message is then such a
cycle. -/
theorem aliasCycle_iff_cyclic {definition : LanguageDefinition} (span : Span)
    (written : definition.isWritten = true) (distinct : (definition.rules.map (·.name)).Nodup)
    (plain : ∀ rule ∈ definition.rules, Symbol.hasSuffix rule.name = false)
    (resolves : ∃ resolved,
      resolveRules definition.names definition.rules .empty = .ok resolved) :
    ((∃ fault, define definition span = .error fault ∧ fault.diagnostic.code = .aliasCycle) ↔
      ∃ name, Relation.TransGen definition.Aliases name name) ∧
    ∀ fault, define definition span = .error fault → fault.diagnostic.code = .aliasCycle →
      ∃ path, fault.diagnostic.message = "non-terminal cycle: " ++ Text.join " -> " path ∧
        IsCycle definition.Aliases path := by
  obtain ⟨⟨resolved, mentioned⟩, resolves⟩ := resolves
  have edges : (Grammar.ofRules resolved).Leads = definition.Aliases := by
    funext name other
    exact propext (leads_iff written distinct resolves)
  have refused : ∀ fault, define definition span = .error fault →
      fault.diagnostic.code = .aliasCycle →
      ∃ path, fault.diagnostic.message = "non-terminal cycle: " ++ Text.join " -> " path ∧
        IsCycle definition.Aliases path := by
    intro fault failed same
    obtain ⟨cycle, found, rfl⟩ := (code_define_iff distinct plain resolves).mp ⟨failed, same⟩
    have real := Grammar.isCycle_of_aliasCycle? found
    rw [edges] at real
    exact ⟨cycle, rfl, real⟩
  refine ⟨⟨?_, ?_⟩, refused⟩
  · rintro ⟨fault, failed, same⟩
    obtain ⟨path, _, real⟩ := refused fault failed same
    exact real.transGen
  · rintro ⟨name, cycle⟩
    cases search : (Grammar.ofRules resolved).aliasCycle? with
    | some path =>
      obtain ⟨failed, same⟩ := (code_define_iff distinct plain resolves).mpr ⟨path, search, rfl⟩
      exact ⟨_, failed, same⟩
    | none =>
      have order : (Grammar.ofRules resolved).order = definition.rules.map (·.name) :=
        (resolveRules_eq_ok resolves).1
      rw [← edges] at cycle
      refine absurd cycle (Grammar.acyclic_of_aliasCycle? search ?_ ?_ name)
      · intro name stem leads
        obtain ⟨_, _, _, _, _, _, target, there, same⟩ :=
          (leads_iff written distinct resolves).mp leads
        rw [order]
        exact List.mem_map.mpr ⟨target, there, same⟩
      · intro name outside
        refine List.eq_nil_iff_forall_not_mem.mpr fun stem leads => outside ?_
        obtain ⟨rule, there, same, _⟩ := (leads_iff written distinct resolves).mp leads
        rw [order]
        exact List.mem_map.mpr ⟨rule, there, same⟩

/-- `B` and `C` are aliases of each other, and `A` is one of `B`. -/
def aliased : LanguageDefinition := ⟨"L", [
  ⟨"A", [.unresolved "B", .sequence [.literal (.symbol "f"), .unresolved "A"]], default⟩,
  ⟨"B", [.unresolved "C_1", .unresolved "x"], default⟩,
  ⟨"C", [.sequence [.unresolved "C"], .unresolved "B"], default⟩]⟩

theorem aliased_refused : (match define aliased default with
    | .error fault => decide (fault.diagnostic.code = .aliasCycle)
    | .ok _ => false) = true := by
  decide +kernel

theorem aliased_cyclic : ∃ name, Relation.TransGen aliased.Aliases name name := by
  have resolves : (resolveRules aliased.names aliased.rules .empty).isOk = true := by
    decide +kernel
  refine (aliasCycle_iff_cyclic default (by decide +kernel) (by decide +kernel)
    (by decide +kernel) ?_).1.mp ?_
  · cases resolved : resolveRules aliased.names aliased.rules .empty with
    | ok found => exact ⟨found, rfl⟩
    | error fault =>
      rw [resolved] at resolves
      cases resolves
  · have refused := aliased_refused
    split at refused
    · rename_i fault failed
      exact ⟨fault, failed, of_decide_eq_true refused⟩
    · cases refused

end Language

end Reduct
