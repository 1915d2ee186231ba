import Reduct.Form
import Reduct.Language.Check
import Reduct.Language.Depth
import Reduct.Language.Greedy
import Reduct.Language.Holes
import Reduct.Language.Resolve

/-!
# Languages

A language is a checked grammar together with what every later pattern is prepared against: the
literal variables met so far, the shapes and hole ranges of the rules, and the fresh names given
out. Preparing a pattern resolves its symbols, checks its depths, makes equalities explicit,
chooses repetition modes, and checks that every context has exactly one hole.
-/

namespace Reduct

/-- A pattern after every pass. -/
structure Prepared where
  pattern : Pattern
  /-- The depth of every bound symbol, fresh names included. -/
  depths : Depths
  /-- The fresh names, to be dropped from a finished match. -/
  synthetic : List Symbol

/-- A rule with its prepared alternatives. -/
structure Rule where
  name : Symbol
  alternatives : List Prepared
  /-- How many holes its terms have, none if it derives no finite term. -/
  holes : Option HoleRange
  span : Span

/-- A checked grammar and the state of preparation. -/
structure Language where
  name : Symbol
  rules : List Rule
  /-- The names of the rules. -/
  names : SymbolSet
  /-- The literal variables met so far. -/
  mentioned : SymbolSet
  closures : Closures
  holes : HoleTable
  fresh : FreshNames

namespace Grammar

/-- The non-terminals that are by themselves an alternative of a rule. -/
def aliases (grammar : Grammar) (name : Symbol) : List Symbol :=
  (grammar.alternativesOf name).filterMap fun alternative =>
    match alternative with
    | .nonTerminal stem _ => some stem
    | _ => none

/-- What a search for cycles has found: a cycle, or the rules known to lead to none. -/
inductive CycleSearch where
  | found (cycle : List Symbol)
  | clear (done : List Symbol)

/-- Search from every name in turn, each with the rules that are known to lead to none. -/
def searchEach (search : List Symbol → Symbol → CycleSearch) :
    (done : List Symbol) → List Symbol → CycleSearch
  | done, [] => .clear done
  | done, name :: rest =>
    match search done name with
    | .found cycle => .found cycle
    | .clear done => searchEach search done rest

/-- Search from a rule on. `way` holds the rules on the way, the last first, `done` the rules that
lead to no cycle, and `fuel` bounds the length of the way. -/
def searchCycle (grammar : Grammar) :
    (fuel : Nat) → (way done : List Symbol) → Symbol → CycleSearch
  | 0, _, done, _ => .clear done
  | fuel + 1, way, done, name =>
    if name ∈ way then
      .found ((name :: way.takeWhile (· ≠ name) ++ [name]).reverse)
    else if name ∈ done then .clear done
    else
      match searchEach (grammar.searchCycle fuel (name :: way)) done (grammar.aliases name) with
      | .found cycle => .found cycle
      | .clear done => .clear (name :: done)

/-- The first cycle of aliases, as a path that ends where it starts. The rules on a way are
distinct, so it is no longer than there are rules, and one step more closes a cycle. -/
def aliasCycle? (grammar : Grammar) : Option (List Symbol) :=
  match searchEach (grammar.searchCycle (grammar.order.length + 1) []) [] grammar.order with
  | .found cycle => some cycle
  | .clear _ => none

end Grammar

namespace Language

/-- The first rule of a name. -/
def rule? (language : Language) (name : Symbol) : Option Rule :=
  language.rules.find? fun rule => rule.name = name

/-- Refuse a rule name with an underscore or a name that was defined before. -/
def checkName (seen : List RuleDefinition) (rule : RuleDefinition) : Except Fault Unit :=
  if Symbol.hasSuffix rule.name then
    .error (.located (.underscoreName rule.name) rule.span "defined here")
  else
    match seen.find? fun earlier => earlier.name = rule.name with
    | some earlier =>
      .error (.related (.duplicateNonTerminal rule.name) rule.span "redefined here" earlier.span
        "first defined here")
    | none => .ok ()

/-- Check the names of the rules in order; `seen` holds the rules before. -/
def checkNames (seen : List RuleDefinition) : List RuleDefinition → Except Fault Unit
  | [] => .ok ()
  | rule :: rest => do
    checkName seen rule
    checkNames (seen ++ [rule]) rest

/-- The rules with their alternatives resolved, in order, and the literal variables met. -/
def resolveRules (names : SymbolSet) :
    List RuleDefinition → SymbolSet → Except Fault (List (Symbol × List Pattern) × SymbolSet)
  | [], mentioned => .ok ([], mentioned)
  | rule :: rest, mentioned => do
    let (resolved, mentioned) := (Pattern.resolveAll names rule.alternatives).run mentioned
    let alternatives ← Fault.locate rule.span "in this non-terminal" resolved
    let (others, mentioned) ← resolveRules names rest mentioned
    .ok ((rule.name, alternatives) :: others, mentioned)

mutual

/-- Every context of an `in-hole` has to match terms with exactly one hole. -/
def checkContexts (holes : HoleTable) : Pattern → Except Fault Unit
  | .sequence items => checkContextsAll holes items
  | .repeated inner _ => checkContexts holes inner
  | .inHole context contents _ =>
    let range := context.holes holes
    if range = some .one then do
      checkContexts holes context
      checkContexts holes contents
    else .error (.unlocated (.contextHoles context range))
  | _ => .ok ()

/-- Every context in the patterns has to match terms with exactly one hole. -/
def checkContextsAll (holes : HoleTable) : List Pattern → Except Fault Unit
  | [] => .ok ()
  | item :: rest => do
    checkContexts holes item
    checkContextsAll holes rest

end

/-- The last passes: depths, repetition modes and contexts. -/
def finish (language : Language) (pattern : Pattern) (synthetic : List Symbol) :
    Except Fault Prepared := do
  let depths ← pattern.depths
  let classified := pattern.classify language.closures language.mentioned
  checkContexts language.holes classified
  .ok ⟨classified, depths, synthetic⟩

/-- The alternatives of a rule, prepared without names that a reader sees. -/
def finishAlternatives (language : Language) :
    List Pattern → FreshNames → Except Fault (List Prepared × FreshNames)
  | [], fresh => .ok ([], fresh)
  | alternative :: rest, fresh => do
    let (anonymous, fresh) := alternative.anonymize fresh
    let first ← language.finish anonymous []
    let (others, fresh) ← language.finishAlternatives rest fresh
    .ok (first :: others, fresh)

/-- The rules of a grammar, prepared in order. -/
def finishRules (language : Language) (grammar : Grammar) :
    List RuleDefinition → FreshNames → Except Fault (List Rule × FreshNames)
  | [], fresh => .ok ([], fresh)
  | rule :: rest, fresh => do
    let finished := language.finishAlternatives (grammar.alternativesOf rule.name) fresh
    let (alternatives, fresh) ← Fault.locate rule.span "in this non-terminal" finished
    let (others, fresh) ← language.finishRules grammar rest fresh
    let holes := (language.holes.find? rule.name).join
    .ok (⟨rule.name, alternatives, holes, rule.span⟩ :: others, fresh)

/-- The span of the rule of a name. -/
def ruleSpan (definition : LanguageDefinition) (span : Span) (name : Symbol) : Span :=
  ((definition.rules.find? fun rule => rule.name = name).map (·.span)).getD span

/-- The language of a definition that stands at a span. -/
def define (definition : LanguageDefinition) (span : Span) : Except Fault Language := do
  checkNames [] definition.rules
  let names := SymbolSet.ofList (definition.rules.map (·.name))
  let (rules, mentioned) ← resolveRules names definition.rules .empty
  let grammar := Grammar.ofRules rules
  match grammar.aliasCycle? with
  | some cycle =>
    .error (.located (.aliasCycle cycle) (ruleSpan definition span (cycle.headD ""))
      "cycle starts here")
  | none =>
    let bare : Language :=
      { name := definition.name
        rules := []
        names := names
        mentioned := mentioned
        closures := .ofGrammar grammar
        holes := grammar.holeTable
        fresh := .empty }
    let (rules, fresh) ← bare.finishRules grammar definition.rules .empty
    .ok { bare with rules := rules, fresh := fresh }

/-- Prepare a pattern. The literal variables and fresh names of the attempt stay with the
language, whether or not the pattern is accepted. -/
def prepare (language : Language) (pattern : Pattern) : Except Fault Prepared × Language :=
  let (resolved, mentioned) := (pattern.resolve language.names).run language.mentioned
  let language := { language with mentioned := mentioned }
  match resolved with
  | .error fault => (.error fault, language)
  | .ok resolved =>
    match resolved.depths with
    | .error fault => (.error fault, language)
    | .ok _ =>
      let (constrained, fresh) := resolved.insertChecks language.fresh
      let language := { language with fresh := fresh }
      (language.finish constrained.pattern (constrained.synthetic.map (·.1)), language)

end Language

end Reduct
