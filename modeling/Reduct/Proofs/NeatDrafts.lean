import Mathlib.Logic.Relation
import Reduct.Proofs.FinishedDrafts
import Reduct.Proofs.Introductions
import Reduct.Proofs.LocalNames

/-!
# Neat drafts

What a compilation shares is a matcher of a pattern or a predicate of a non-terminal, here called a
use. In a neat draft every use is shared once, what it needs is shared as well, and the code of
every function sets local names that were drawn for it. A step of a compilation works if it keeps
drafts neat, and if the places that set a name, in its result and in the functions that it adds,
are no more than the calls that have drawn the name.
-/

namespace Reduct

/-- What compiled code is shared for. -/
inductive Use where
  /-- The matcher of a pattern of a language. -/
  | matcher (language : Symbol) (pattern : Pattern)
  /-- The predicate of a non-terminal of a language. -/
  | predicate (language stem : Symbol)

/-- The parts of a pattern with matchers of their own. -/
def Pattern.parts : Pattern → List Pattern
  | .sequence items => items.filter fun item => !item.isCheck
  | .repeated inner _ => [inner]
  | .inHole context contents _ => [context, contents]
  | _ => []

/-- The non-terminals that a leaf tests for. -/
def Pattern.tested : Pattern → List Symbol
  | .nonTerminal stem _ => [stem]
  | _ => []

/-- What the code for a use calls: the matchers of the parts and the predicate of a pattern, and the
matchers of the alternatives of a non-terminal. -/
def Use.needs (languages : Table Language) : Use → List Use
  | .matcher language pattern =>
    pattern.parts.map (.matcher language) ++ pattern.tested.map (.predicate language)
  | .predicate language stem =>
    match (languages.find? language).bind (·.rule? stem) with
    | some rule => rule.alternatives.map fun alternative => .matcher language alternative.pattern
    | none => []

/-- Uses that a compilation may share, with all that they need. -/
structure Demand where
  languages : Table Language
  allowed : Use → Prop
  closed : ∀ use, allowed use → ∀ other ∈ use.needs languages, allowed other

/-- Names with consecutive numbers go on with the next number. -/
theorem Slots.append {names others : List Symbol} : ∀ {start : Nat}, Slots start names →
    Slots (start + names.length) others → Slots start (names ++ others) := by
  induction names with
  | nil => exact fun _ slots => slots
  | cons name rest ih =>
    intro start slots more
    refine ⟨slots.1, ih slots.2 ?_⟩
    rwa [List.length_cons, ← Nat.add_assoc, Nat.add_right_comm] at more

/-- No word is a local name. -/
theorem Slots.not_mem_of_endsPlain {start : Nat} {names : List Symbol} (slots : Slots start names)
    {word : Symbol} (plain : EndsPlain word.toList) : word ∉ names := by
  intro listed
  obtain ⟨number, _, hint, _, _, rfl⟩ := slots.exists_slot listed
  exact not_endsPlain_append_toString hint number plain

/-- A use that some code asks for, or that the code for such a use needs, and so on. -/
def Use.Reached (languages : Table Language) (asked : List Use) (use : Use) : Prop :=
  ∃ first ∈ asked,
    Relation.ReflTransGen (fun caller callee => callee ∈ caller.needs languages) first use

/-- The demand of code that asks for some uses. -/
def Demand.of (languages : Table Language) (asked : List Use) : Demand where
  languages := languages
  allowed := Use.Reached languages asked
  closed := by
    rintro use ⟨first, listed, chain⟩ other needed
    exact ⟨first, listed, chain.tail needed⟩

namespace Draft

/-- The functions that are shared, with what they are shared for. -/
def memo (draft : Draft) : List (Use × Symbol) :=
  (draft.matchers.map fun entry => (.matcher entry.1.1 entry.1.2, entry.2)) ++
    draft.predicates.map fun entry => (.predicate entry.1.1 entry.1.2, entry.2)

/-- What functions are shared for. -/
def uses (draft : Draft) : List Use := draft.memo.map (·.1)

theorem mem_uses {draft : Draft} {use : Use} {name : Symbol} (shared : (use, name) ∈ draft.memo) :
    use ∈ draft.uses := List.mem_map_of_mem shared

theorem uses_subset {before after : Draft} (keeps : before.memo ⊆ after.memo) :
    before.uses ⊆ after.uses := List.map_subset _ keeps

/-- The names of what is shared are those that are reserved. -/
theorem reserved_eq (draft : Draft) : draft.reserved = draft.memo.map (·.2) := by
  rw [reserved, memo, List.map_append, List.map_map, List.map_map]
  rfl

theorem mem_of_lookupIn_eq_some {κ : Type} [DecidableEq κ] {key : κ} {name : Symbol}
    {entries : List (κ × Symbol)} (found : lookupIn key entries = some name) :
    (key, name) ∈ entries := by
  obtain ⟨entry, there, rfl⟩ := Option.map_eq_some_iff.mp found
  have passed := List.find?_some there
  rw [decide_eq_true_eq] at passed
  rw [← passed]
  exact List.mem_of_find?_eq_some there

theorem not_mem_of_lookupIn_eq_none {κ : Type} [DecidableEq κ] {key : κ}
    {entries : List (κ × Symbol)} (free : lookupIn key entries = none) (name : Symbol) :
    (key, name) ∉ entries := by
  intro listed
  have passed := List.find?_eq_none.mp (Option.map_eq_none_iff.mp free) _ listed
  exact passed (decide_eq_true rfl)

theorem mem_memo_matcher {draft : Draft} {language name : Symbol} {pattern : Pattern} :
    (.matcher language pattern, name) ∈ draft.memo ↔
      ((language, pattern), name) ∈ draft.matchers := by
  simp [memo]

theorem mem_memo_predicate {draft : Draft} {language stem name : Symbol} :
    (.predicate language stem, name) ∈ draft.memo ↔
      ((language, stem), name) ∈ draft.predicates := by
  simp [memo]

/-- How often the functions of a draft set a local name. Words that are no local names are left out:
they are the parameters and the variables that predicates have for themselves. -/
def drawn (draft : Draft) (wanted : Symbol) : Nat :=
  if EndsPlain wanted.toList then 0 else (draft.functions.map (Statement.introduced wanted)).sum

/-- A function is defined as it should be: it sets no word but the variables of a predicate, and no
parameter. Only matchers have the parameters of matchers, and only predicates return false. -/
structure Orderly (memo : List (Use × Symbol)) (name : Symbol) (parameters : List Symbol)
    (body : List Statement) : Prop where
  plain : ∀ parameter ∈ parameters, EndsPlain parameter.toList
  words : ∀ word, EndsPlain word.toList →
    Statement.introductions body word ≤ [Matcher.terms, Matcher.env].count word
  once : ∀ word, EndsPlain word.toList →
    parameters.count word + Statement.introductions body word ≤ 1
  matcher : parameters = Matcher.parameters →
    ∃ language pattern, (.matcher language pattern, name) ∈ memo
  predicate : parameters = [Matcher.whole] → body.getLast? = some (.returns (.bool false)) →
    ∃ language stem, (.predicate language stem, name) ∈ memo

theorem Orderly.mono {memo more : List (Use × Symbol)} {name : Symbol} {parameters : List Symbol}
    {body : List Statement} (orderly : Orderly memo name parameters body) (within : memo ⊆ more) :
    Orderly more name parameters body where
  plain := orderly.plain
  words := orderly.words
  once := orderly.once
  matcher same := by
    obtain ⟨language, pattern, listed⟩ := orderly.matcher same
    exact ⟨language, pattern, within listed⟩
  predicate same last := by
    obtain ⟨language, stem, listed⟩ := orderly.predicate same last
    exact ⟨language, stem, within listed⟩

/-- The invariant of sharing. The list holds the uses whose code is not finished. -/
structure Neat (demand : Demand) (pending : List Use) (draft : Draft) : Prop where
  once : draft.uses.Nodup
  allowed : ∀ use ∈ draft.uses, demand.allowed use
  served : ∀ use ∈ draft.uses, use ∈ pending ∨ ∀ other ∈ use.needs demand.languages,
    other ∈ draft.uses
  orderly : ∀ name parameters body, .define name parameters body ∈ draft.functions →
    Orderly draft.memo name parameters body

/-- When nothing is left unfinished, what is reached from shared uses is shared. -/
theorem Neat.shares {demand : Demand} {draft : Draft} (neat : Neat demand [] draft)
    {asked : List Use} (serves : ∀ use ∈ asked, use ∈ draft.uses) {use : Use}
    (reached : use.Reached demand.languages asked) : use ∈ draft.uses := by
  obtain ⟨first, listed, chain⟩ := reached
  induction chain with
  | refl => exact serves first listed
  | tail _ needed ih => exact (neat.served _ ih).resolve_left nofun _ needed

/-- The names that the calls of a run draw for local variables, in their order. A call that draws a
name adds to the number of names, so no call of the run can be left out. -/
inductive Logs : {α : Type} → Drafting α → Draft → List Symbol → α → Draft → Prop
  /-- A step that draws no name, as it leaves their number as it is. -/
  | quiet {α : Type} {action : Drafting α} {before after : Draft} {result : α}
      (yields : Yields action before result after) (same : after.localCount = before.localCount) :
      Logs action before [] result after
  /-- A call that draws the next name. The hint ends like a word, and is not that of constants. -/
  | draw {hint : String} (plain : EndsPlain hint.toList) (other : hint ≠ "lit") {before : Draft} :
      Logs (freshLocal hint) before [hint ++ toString before.localCount]
        (hint ++ toString before.localCount) { before with localCount := before.localCount + 1 }
  | bind {α β : Type} {first : Drafting α} {next : α → Drafting β} {before middle after : Draft}
      {names others : List Symbol} {value : α} {result : β}
      (begun : Logs first before names value middle)
      (ended : Logs (next value) middle others result after) :
      Logs (first >>= next) before (names ++ others) result after
  /-- A run without a fault to catch. -/
  | tryCatch {α : Type} {action : Drafting α} {handle : Fault → Drafting α} {before after : Draft}
      {names : List Symbol} {result : α} (run : Logs action before names result after) :
      Logs (MonadExcept.tryCatch action handle) before names result after

section Logging

variable {α : Type} {action : Drafting α} {before after : Draft} {names : List Symbol} {result : α}

/-- What is logged happens. -/
theorem Logs.yields (logs : Logs action before names result after) :
    Yields action before result after := by
  induction logs with
  | quiet yields _ => exact yields
  | draw _ _ => exact yields_freshLocal.mpr ⟨rfl, rfl⟩
  | bind _ _ one two => exact yields_bind.mpr ⟨_, _, one, two⟩
  | @tryCatch _ action handle before after _ result _ ran =>
    change StateT.bind action (fun result => _) before = _
    have ran : (action : StateM Draft _) before = (.ok result, after) := ran
    simp only [StateT.bind, ran]
    rfl

/-- A first step that draws no name. -/
theorem Logs.skip {β : Type} {first : Drafting β} {next : β → Drafting α} {middle : Draft}
    {value : β} (yields : Yields first before value middle)
    (same : middle.localCount = before.localCount)
    (logs : Logs (next value) middle names result after) :
    Logs (first >>= next) before names result after := .bind (.quiet yields same) logs

/-- A last step that draws no name. -/
theorem Logs.close {β : Type} {first : Drafting β} {next : β → Drafting α} {middle : Draft}
    {value : β} (logs : Logs first before names value middle)
    (yields : Yields (next value) middle result after)
    (same : after.localCount = middle.localCount) :
    Logs (first >>= next) before names result after := by
  rw [← List.append_nil names]
  exact logs.bind (.quiet yields same)

theorem Logs.localCount (logs : Logs action before names result after) :
    after.localCount = before.localCount + names.length := by
  induction logs with
  | quiet _ same => exact same
  | draw _ _ => rfl
  | bind _ _ one two => rw [two, one, List.length_append, Nat.add_assoc]
  | tryCatch _ ran => exact ran

/-- The names that are drawn have consecutive numbers. -/
theorem Logs.slots (logs : Logs action before names result after) :
    Slots before.localCount names := by
  induction logs with
  | quiet _ _ => trivial
  | draw plain other => exact ⟨⟨_, plain, other, rfl⟩, trivial⟩
  | bind begun _ one two =>
    rw [begun.localCount] at two
    exact one.append two
  | tryCatch _ ran => exact ran

end Logging

/-- The names in hand are local names: no word is among them. -/
def OnlyNumbered (given : Symbol → Nat) : Prop := ∀ word, EndsPlain word.toList → given word = 0

/-- How a step of a compilation goes that was given names to use, has drawn names, and gives a
result that uses names. -/
structure Course {α : Type} (demand : Demand) (pending wanted : List Use) (given : Symbol → Nat)
    (cost : α → Symbol → Nat) (action : Drafting α) (before : Draft) (names : List Symbol)
    (result : α) (after : Draft) : Prop where
  logged : Logs action before names result after
  neat : Neat demand pending after
  keeps : before.memo ⊆ after.memo
  serves : ∀ use ∈ wanted, use ∈ after.uses
  bounded : ∀ name, after.drawn name + cost result name ≤
    before.drawn name + given name + names.count name

/-- A step of a compilation keeps drafts neat and leaves behind what is wanted. The places that set
a name, in its result and in the functions that it adds, are no more than what was given and the
calls that draw the name. -/
def Works {α : Type} (demand : Demand) (wanted : List Use) (given : Symbol → Nat)
    (cost : α → Symbol → Nat) (action : Drafting α) : Prop :=
  OnlyNumbered given → ∀ pending before result after, Yields action before result after →
    Neat demand pending before →
    ∃ names, Course demand pending wanted given cost action before names result after

/-- A step that uses no names. -/
abbrev Serves {α : Type} (demand : Demand) (wanted : List Use) (action : Drafting α) : Prop :=
  Works demand wanted (fun _ => 0) (fun _ _ => 0) action

/-- A step that gives code. -/
abbrev Codes (demand : Demand) (wanted : List Use) (given : Symbol → Nat)
    (action : Drafting (List Statement)) : Prop :=
  Works demand wanted given Statement.introductions action

/-- A step that gives code and something else. -/
abbrev CodesFirst {α : Type} (demand : Demand) (wanted : List Use)
    (action : Drafting (List Statement × α)) : Prop :=
  Works demand wanted (fun _ => 0) (fun result => Statement.introductions result.1) action

section Steps

variable {α β : Type} {demand : Demand} {pending wanted asked others : List Use}
  {given part rest : Symbol → Nat} {cost : α → Symbol → Nat} {fine : β → Symbol → Nat}

theorem drawn_of_endsPlain (draft : Draft) {word : Symbol} (plain : EndsPlain word.toList) :
    draft.drawn word = 0 := if_pos plain

/-- A result uses local names only. -/
theorem Course.onlyNumbered {action : Drafting α} {before after : Draft} {names : List Symbol}
    {result : α}
    (course : Course demand pending wanted given cost action before names result after)
    (numbered : OnlyNumbered given) : OnlyNumbered (cost result) := by
  intro word plain
  have bounded := course.bounded word
  have undrawn := List.count_eq_zero.mpr (course.logged.slots.not_mem_of_endsPlain plain)
  rw [drawn_of_endsPlain after plain, drawn_of_endsPlain before plain, numbered word plain,
    undrawn] at bounded
  omega

/-- A step that leaves the draft as it is. -/
theorem Neat.course {action : Drafting α} {draft : Draft} {result : α}
    (neat : Neat demand pending draft) (yields : Yields action draft result draft)
    (serves : ∀ use ∈ wanted, use ∈ draft.uses) (enough : ∀ name, cost result name ≤ given name) :
    Course demand pending wanted given cost action draft [] result draft where
  logged := .quiet yields rfl
  neat := neat
  keeps _ listed := listed
  serves := serves
  bounded name := by
    have covered := enough name
    rw [List.count_nil]
    omega

/-- Another step that draws the same names and goes the same way. -/
theorem Course.relog {action other : Drafting α} {before after : Draft} {names : List Symbol}
    {result : α}
    (course : Course demand pending wanted given cost action before names result after)
    (logged : Logs other before names result after) :
    Course demand pending wanted given cost other before names result after :=
  ⟨logged, course.neat, course.keeps, course.serves, course.bounded⟩

theorem works_pure {value : α} (enough : ∀ name, cost value name ≤ given name) :
    Works demand [] given cost (pure value : Drafting α) := by
  intro numbered pending before result after yields neat
  obtain ⟨rfl, rfl⟩ := yields_pure.mp yields
  exact ⟨[], neat.course yields nofun enough⟩

theorem works_throw (fault : Fault) :
    Works demand wanted given cost (throw fault : Drafting α) := nofun

/-- Steps one after the other. The first is given a part of the names in hand. -/
theorem Works.bindOf {first : Drafting α} {next : α → Drafting β}
    (one : Works demand asked part cost first)
    (two : ∀ value, Works demand others (fun name => rest name + cost value name) fine (next value))
    (enough : ∀ name, part name + rest name ≤ given name)
    (all : ∀ use ∈ wanted, use ∈ asked ∨ use ∈ others) :
    Works demand wanted given fine (first >>= next) := by
  intro numbered pending before result after yields neat
  obtain ⟨value, middle, begun, ended⟩ := yields_bind.mp yields
  have spent : OnlyNumbered part := by
    intro word plain
    have none := numbered word plain
    have covered := enough word
    omega
  obtain ⟨names, here⟩ := one spent pending before value middle begun neat
  have left : OnlyNumbered fun name => rest name + cost value name := by
    intro word plain
    have none := numbered word plain
    have covered := enough word
    have used : cost value word = 0 := here.onlyNumbered spent word plain
    change rest word + cost value word = 0
    omega
  obtain ⟨more, there⟩ := two value left pending middle result after ended here.neat
  refine ⟨names ++ more, ?_⟩
  exact
    { logged := .bind here.logged there.logged
      neat := there.neat
      keeps := fun _ listed => there.keeps (here.keeps listed)
      serves := fun use listed => (all use listed).elim
        (fun early => uses_subset there.keeps (here.serves use early)) (there.serves use)
      bounded := fun name => by
        have covered := enough name
        have sooner := here.bounded name
        have later := there.bounded name
        rw [List.count_append]
        omega }

/-- A first step that uses none of the names in hand. -/
theorem Works.bind {first : Drafting α} {next : α → Drafting β}
    (one : Works demand [] (fun _ => 0) cost first)
    (two : ∀ value, Works demand wanted (fun name => given name + cost value name) fine
      (next value)) : Works demand wanted given fine (first >>= next) :=
  one.bindOf two (fun _ => Nat.le_of_eq (Nat.zero_add _)) fun _ => .inr

/-- A first step that leaves behind some of what is wanted. -/
theorem Works.ask {first : Drafting α} {next : α → Drafting β}
    (one : Works demand asked (fun _ => 0) cost first)
    (two : ∀ value, Works demand others (fun name => given name + cost value name) fine
      (next value)) : Works demand (asked ++ others) given fine (first >>= next) :=
  one.bindOf two (fun _ => Nat.le_of_eq (Nat.zero_add _)) fun _ => List.mem_append.mp

/-- A first step that leaves behind all that is wanted. -/
theorem Works.serve {first : Drafting α} {next : α → Drafting β}
    (one : Works demand wanted (fun _ => 0) cost first)
    (two : ∀ value, Works demand [] (fun name => given name + cost value name) fine (next value)) :
    Works demand wanted given fine (first >>= next) :=
  one.bindOf two (fun _ => Nat.le_of_eq (Nat.zero_add _)) fun _ => .inl

/-- A first step that leaves behind all that is wanted, and uses names in hand. The rest of them is
for the second. -/
theorem Works.spend (rest : Symbol → Nat) {first : Drafting α} {next : α → Drafting β}
    (one : Works demand wanted part cost first)
    (enough : ∀ name, part name + rest name ≤ given name)
    (two : ∀ value, Works demand [] (fun name => rest name + cost value name) fine (next value)) :
    Works demand wanted given fine (first >>= next) :=
  one.bindOf two enough fun _ => .inl

/-- A step may be asked for less, and be given more. -/
theorem Works.mono {action : Drafting α} {fewer : List Use} {more : Symbol → Nat}
    (works : Works demand wanted given cost action) (within : fewer ⊆ wanted)
    (enough : ∀ name, given name ≤ more name) : Works demand fewer more cost action := by
  intro numbered pending before result after yields neat
  have spent : OnlyNumbered given := by
    intro word plain
    have none := numbered word plain
    have covered := enough word
    omega
  obtain ⟨names, course⟩ := works spent pending before result after yields neat
  refine ⟨names, ?_⟩
  exact
    { logged := course.logged
      neat := course.neat
      keeps := course.keeps
      serves := fun use listed => course.serves use (within listed)
      bounded := fun name => by
        have covered := enough name
        have bounded := course.bounded name
        omega }

/-- A hint that ends in no digit and is not that of the literals. -/
def isPlainHint (hint : String) : Bool := decide (EndsPlain hint.toList ∧ hint ≠ "lit")

theorem isPlainHint_iff {hint : String} :
    isPlainHint hint = true ↔ EndsPlain hint.toList ∧ hint ≠ "lit" := decide_eq_true_iff

theorem OnlyNumbered.zero : OnlyNumbered fun _ => 0 := fun _ _ => rfl

/-- A local name is drawn, and then it is in hand. -/
theorem Works.withLocal {hint : String} {next : Symbol → Drafting β}
    (hinted : isPlainHint hint = true)
    (later : ∀ drawn, Works demand wanted (fun name => given name + tally name drawn) fine
      (next drawn)) : Works demand wanted given fine (freshLocal hint >>= next) := by
  obtain ⟨plain, other⟩ := isPlainHint_iff.mp hinted
  have drawing : Works demand [] (fun _ => 0) (fun drawn name => tally name drawn)
      (freshLocal hint) := by
    intro _ pending before result after yields neat
    obtain ⟨rfl, rfl⟩ := yields_freshLocal.mp yields
    refine ⟨[hint ++ toString before.localCount], ?_⟩
    exact
      { logged := .draw plain other
        neat := ⟨neat.once, neat.allowed, neat.served, neat.orderly⟩
        keeps := fun _ listed => listed
        serves := nofun
        bounded := fun name => by
          rw [count_cons_tally, List.count_nil]
          exact Nat.le_of_eq (by rfl) }
  exact drawing.bind later

/-- A step that draws no local name, shares nothing and adds no function. -/
theorem works_quiet {action : Drafting α}
    (same : ∀ before result after, Yields action before result after →
      after.functions = before.functions ∧ after.memo = before.memo ∧
        after.localCount = before.localCount) :
    Serves demand [] action := by
  intro _ pending before result after yields neat
  obtain ⟨functions, memo, localCount⟩ := same before result after yields
  have uses : after.uses = before.uses := congrArg (List.map Prod.fst) memo
  refine ⟨[], ?_⟩
  exact
    { logged := .quiet yields localCount
      neat :=
        { once := uses ▸ neat.once
          allowed := uses ▸ neat.allowed
          served := uses ▸ neat.served
          orderly := by
            rw [functions, memo]
            exact neat.orderly }
      keeps := by
        rw [memo]
        exact List.Subset.refl _
      serves := nofun
      bounded := fun name => by
        rw [drawn, drawn, functions]
        exact Nat.le_refl _ }

theorem works_freshFunction (kind hint : String) :
    Serves demand [] (freshFunction kind hint) := by
  refine works_quiet fun before name after yields => ?_
  obtain ⟨_, rfl⟩ := yields_freshFunction yields
  exact ⟨rfl, rfl, rfl⟩

/-- Asking for a constant changes the constants only. -/
theorem exists_constants {term : Term} {before after : Draft} {name : Symbol}
    (yields : Yields (constant term) before name after) :
    ∃ constants, after = { before with constants := constants } := by
  unfold constant at yields
  obtain ⟨_, _, got, yields⟩ := yields_bind.mp yields
  obtain ⟨rfl, rfl⟩ := yields_get.mp got
  split at yields
  · obtain ⟨_, rfl⟩ := yields_pure.mp yields
    exact ⟨before.constants, rfl⟩
  · obtain ⟨_, _, kept, yields⟩ := yields_bind.mp yields
    obtain rfl := yields_set.mp kept
    obtain ⟨_, rfl⟩ := yields_pure.mp yields
    exact ⟨_, rfl⟩

theorem works_constant (term : Term) : Serves demand [] (constant term) := by
  refine works_quiet fun before name after yields => ?_
  obtain ⟨_, rfl⟩ := exists_constants yields
  exact ⟨rfl, rfl, rfl⟩

theorem works_mentionedConstant (language : Symbol) (mentioned : SymbolSet) :
    Serves demand [] (mentionedConstant language mentioned) := by
  refine works_quiet fun before name after yields => ?_
  unfold mentionedConstant at yields
  obtain ⟨_, _, got, yields⟩ := yields_bind.mp yields
  obtain ⟨rfl, rfl⟩ := yields_get.mp got
  split at yields
  · obtain ⟨_, rfl⟩ := yields_pure.mp yields
    exact ⟨rfl, rfl, rfl⟩
  · obtain ⟨_, _, made, yields⟩ := yields_bind.mp yields
    obtain ⟨_, rfl⟩ := exists_constants made
    obtain ⟨_, _, changed, yields⟩ := yields_bind.mp yields
    obtain rfl := yields_modify.mp changed
    obtain ⟨_, rfl⟩ := yields_pure.mp yields
    exact ⟨rfl, rfl, rfl⟩

/-- One step for every item of a list. -/
theorem Works.mapM {step : α → Drafting β} {asks : α → List Use} :
    ∀ {items : List α}, (∀ item ∈ items, Works demand (asks item) (fun _ => 0) fine (step item)) →
      Works demand (items.flatMap asks) (fun _ => 0)
        (fun results name => (results.map (fine · name)).sum) (items.mapM step)
  | [], _ => by
    rw [List.mapM_nil]
    exact works_pure fun _ => Nat.le_refl _
  | item :: items, each => by
    obtain ⟨here, later⟩ := List.forall_mem_cons.mp each
    rw [List.mapM_cons, List.flatMap_cons]
    refine here.ask fun result => ?_
    rw [← List.append_nil (items.flatMap asks)]
    refine (Works.mapM later).ask fun results => works_pure fun name => ?_
    rw [List.map_cons, List.sum_cons]
    omega

/-- One step for every item of a list, each with one use that it leaves behind. -/
theorem Works.mapMOne {step : α → Drafting β} {ask : α → Use} {items : List α}
    (each : ∀ item ∈ items, Works demand [ask item] (fun _ => 0) fine (step item)) :
    Works demand (items.map ask) (fun _ => 0)
      (fun results name => (results.map (fine · name)).sum) (items.mapM step) := by
  rw [List.map_eq_flatMap]
  exact .mapM each

/-- One step for every item of a list, with nothing that is wanted. -/
theorem Works.mapMNone {step : α → Drafting β} (each : ∀ item,
    Works demand [] (fun _ => 0) fine (step item)) (items : List α) :
    Works demand [] (fun _ => 0)
      (fun results name => (results.map (fine · name)).sum) (items.mapM step) :=
  Works.mono (.mapM fun item _ => each item) (List.nil_subset _) fun _ => Nat.le_refl _

/-- A function is added. -/
theorem Neat.define {draft : Draft} (neat : Neat demand pending draft) {name : Symbol}
    {parameters : List Symbol} {body : List Statement}
    (orderly : Orderly draft.memo name parameters body) :
    Neat demand pending
      { draft with functions := draft.functions ++ [.define name parameters body] } where
  once := neat.once
  allowed := neat.allowed
  served := neat.served
  orderly earlier others code listed := by
    rcases List.mem_append.mp listed with known | new
    · exact neat.orderly earlier others code known
    · cases List.mem_singleton.mp new
      exact orderly

theorem drawn_define_le (draft : Draft) (name : Symbol) (parameters : List Symbol)
    (body : List Statement) (wanted : Symbol) :
    drawn { draft with functions := draft.functions ++ [.define name parameters body] } wanted ≤
      draft.drawn wanted + Statement.introductions body wanted := by
  unfold drawn
  split
  · exact Nat.zero_le _
  · rw [List.map_append, List.sum_append]
    exact Nat.le_of_eq rfl

/-- The body of a function sets the names in hand, and maybe the variables of a predicate. -/
structure Spends (given : Symbol → Nat) (parameters own : List Symbol) (body : List Statement) :
    Prop where
  enough : ∀ name, Statement.introductions body name ≤ given name + own.count name
  plain : ∀ parameter ∈ parameters, EndsPlain parameter.toList
  once : (parameters ++ own).Nodup
  fixed : own.Sublist [Matcher.terms, Matcher.env]

theorem Spends.orderly {parameters own : List Symbol} {body : List Statement}
    (spends : Spends given parameters own body) (numbered : OnlyNumbered given)
    {memo : List (Use × Symbol)} {name : Symbol}
    (matcher : parameters = Matcher.parameters →
      ∃ language pattern, (.matcher language pattern, name) ∈ memo)
    (predicate : parameters = [Matcher.whole] → body.getLast? = some (.returns (.bool false)) →
      ∃ language stem, (.predicate language stem, name) ∈ memo) :
    Orderly memo name parameters body where
  plain := spends.plain
  words word plain := by
    have enough := spends.enough word
    have fixed := spends.fixed.count_le word
    rw [numbered word plain] at enough
    omega
  once word plain := by
    have enough := spends.enough word
    have once := List.nodup_iff_count_le_one.mp spends.once word
    rw [List.count_append] at once
    rw [numbered word plain] at enough
    omega
  matcher := matcher
  predicate := predicate

/-- A local name is no parameter and no variable of a predicate. -/
theorem Spends.drawn_le {parameters own : List Symbol} {body : List Statement}
    (spends : Spends given parameters own body) (draft : Draft) (name wanted : Symbol) :
    drawn { draft with functions := draft.functions ++ [.define name parameters body] } wanted ≤
      draft.drawn wanted + given wanted := by
  by_cases plain : EndsPlain wanted.toList
  · rw [drawn_of_endsPlain _ plain]
    exact Nat.zero_le _
  · have added := drawn_define_le draft name parameters body wanted
    have enough := spends.enough wanted
    have free : own.count wanted = 0 := by
      refine List.count_eq_zero.mpr fun listed => plain ?_
      have fixed := spends.fixed.subset listed
      revert fixed
      simp only [List.mem_cons, List.not_mem_nil, or_false]
      rintro (rfl | rfl) <;> decide
    omega

/-- A function is added that is neither a matcher nor a predicate. -/
theorem works_addFunction {name : Symbol} {parameters own : List Symbol} {body : List Statement}
    (spends : Spends given parameters own body) (matcher : parameters ≠ Matcher.parameters)
    (predicate : parameters = [Matcher.whole] →
      body.getLast? ≠ some (.returns (.bool false))) :
    Works demand [] given (fun _ _ => 0) (addFunction name parameters body) := by
  intro numbered pending before result after yields neat
  obtain rfl := yields_modify.mp yields
  refine ⟨[], ?_⟩
  exact
    { logged := .quiet yields rfl
      neat := neat.define (spends.orderly numbered (fun same => absurd same matcher)
        fun same last => absurd last (predicate same))
      keeps := fun _ listed => listed
      serves := nofun
      bounded := spends.drawn_le before name }

/-- Uses are reserved: a new use is added, and its code is not finished. -/
theorem Neat.reserve {draft reserved : Draft} (neat : Neat demand pending draft) {use : Use}
    {name : Symbol} (free : use ∉ draft.uses) (allowed : demand.allowed use)
    (added : reserved.memo.Perm ((use, name) :: draft.memo))
    (functions : reserved.functions = draft.functions) : Neat demand (use :: pending) reserved := by
  have uses : reserved.uses.Perm (use :: draft.uses) := added.map Prod.fst
  exact
    { once := uses.nodup_iff.mpr (List.nodup_cons.mpr ⟨free, neat.once⟩)
      allowed := by
        intro other listed
        rcases List.mem_cons.mp (uses.mem_iff.mp listed) with rfl | known
        · exact allowed
        · exact neat.allowed other known
      served := by
        intro other listed
        rcases List.mem_cons.mp (uses.mem_iff.mp listed) with rfl | known
        · exact .inl List.mem_cons_self
        · refine (neat.served other known).imp (List.mem_cons_of_mem _) fun served need needed => ?_
          exact uses.mem_iff.mpr (List.mem_cons_of_mem _ (served need needed))
      orderly := by
        intro earlier parameters body listed
        rw [functions] at listed
        refine (neat.orderly earlier parameters body listed).mono fun entry known => ?_
        exact added.mem_iff.mpr (List.mem_cons_of_mem _ known) }

/-- The code for a use is finished when what it needs is shared. -/
theorem Neat.finish {draft : Draft} {use : Use} (neat : Neat demand (use :: pending) draft)
    (serves : ∀ other ∈ use.needs demand.languages, other ∈ draft.uses) :
    Neat demand pending draft where
  once := neat.once
  allowed := neat.allowed
  served other listed := by
    rcases neat.served other listed with waiting | served
    · rcases List.mem_cons.mp waiting with rfl | later
      · exact .inr serves
      · exact .inl later
    · exact .inr served
  orderly := neat.orderly

/-- A function that is shared for the first time: its name is reserved, its code is compiled, and it
is added. -/
def shareNew (kind hint : String) (reserve : Symbol → Draft → Draft) (parameters : List Symbol)
    (whole : List Statement → List Statement) (body : Drafting (List Statement)) :
    Drafting Symbol := do
  let name ← freshFunction kind hint
  modify (reserve name)
  let code ← body
  addFunction name parameters (whole code)
  pure name

/-- How a name is reserved for a use. -/
structure Reserving (use : Use) (reserve : Symbol → Draft → Draft) : Prop where
  added : ∀ name draft, (reserve name draft).memo.Perm ((use, name) :: draft.memo)
  functions : ∀ name draft, (reserve name draft).functions = draft.functions
  localCount : ∀ name draft, (reserve name draft).localCount = draft.localCount

/-- The code of a function that is shared sets the names that its compilation draws, and the
variables that the function has for itself. -/
theorem course_shareNew {use : Use} {kind hint : String} {reserve : Symbol → Draft → Draft}
    {parameters own : List Symbol} {whole : List Statement → List Statement}
    {body : Drafting (List Statement)} {before after : Draft} {result : Symbol}
    (yields : Yields (shareNew kind hint reserve parameters whole body) before result after)
    (neat : Neat demand pending before) (free : use ∉ before.uses) (allowed : demand.allowed use)
    (reserving : Reserving use reserve)
    (works : Codes demand (use.needs demand.languages) (fun _ => 0) body)
    (spends : ∀ code, Spends (Statement.introductions code) parameters own (whole code))
    (matcher : parameters = Matcher.parameters →
      ∃ language pattern, use = .matcher language pattern)
    (predicate : parameters = [Matcher.whole] → ∃ language stem, use = .predicate language stem) :
    ∃ names, Course demand pending [use] (fun _ => 0) (fun _ _ => 0)
      (shareNew kind hint reserve parameters whole body) before names result after := by
  obtain ⟨name, named, drawn, yields⟩ := yields_bind.mp yields
  obtain ⟨_, rfl⟩ := yields_freshFunction drawn
  obtain ⟨_, reserved, changed, yields⟩ := yields_bind.mp yields
  have change := yields_modify.mp changed
  obtain ⟨code, compiled, filled, ended⟩ := yields_bind.mp yields
  obtain ⟨_, _, extended, yields⟩ := yields_bind.mp ended
  obtain rfl := yields_modify.mp extended
  obtain ⟨rfl, rfl⟩ := yields_pure.mp yields
  have begun : Neat demand pending { before with nameCount := before.nameCount + 1 } :=
    ⟨neat.once, neat.allowed, neat.served, neat.orderly⟩
  have added : reserved.memo.Perm ((use, name) :: before.memo) := change ▸ reserving.added _ _
  have functions : reserved.functions = before.functions := change ▸ reserving.functions _ _
  have localCount : reserved.localCount = before.localCount := change ▸ reserving.localCount _ _
  have ready : Neat demand (use :: pending) reserved :=
    begun.reserve free allowed added functions
  obtain ⟨names, course⟩ := works .zero _ _ _ _ filled ready
  have numbered := course.onlyNumbered .zero
  have shared : (use, name) ∈ compiled.memo :=
    course.keeps (added.mem_iff.mpr List.mem_cons_self)
  have orderly : Orderly compiled.memo name parameters (whole code) := by
    refine (spends code).orderly numbered (fun same => ?_) fun same _ => ?_
    · obtain ⟨language, pattern, rfl⟩ := matcher same
      exact ⟨language, pattern, shared⟩
    · obtain ⟨language, stem, rfl⟩ := predicate same
      exact ⟨language, stem, shared⟩
  refine ⟨names, ?_⟩
  exact
    { logged := .skip drawn rfl (.skip changed localCount (course.logged.close ended rfl))
      neat := (course.neat.finish course.serves).define orderly
      keeps := fun _ listed => course.keeps (added.mem_iff.mpr (List.mem_cons_of_mem _ listed))
      serves := fun other listed => by
        obtain rfl := List.mem_singleton.mp listed
        exact mem_uses shared
      bounded := fun wanted => by
        have bounded := course.bounded wanted
        have last := (spends code).drawn_le compiled name wanted
        have first : reserved.drawn wanted = before.drawn wanted := by
          rw [Draft.drawn, Draft.drawn, functions]
        omega }

/-- The matcher of a pattern is shared. -/
theorem works_sharedMatcher {language : Symbol} {pattern : Pattern} {kind hint : String}
    {body : Drafting (List Statement)} (allowed : demand.allowed (.matcher language pattern))
    (works : Codes demand ((Use.matcher language pattern).needs demand.languages) (fun _ => 0)
      body) :
    Serves demand [.matcher language pattern]
      (sharedMatcher language pattern kind hint Matcher.parameters body) := by
  intro _ pending before name after yields neat
  have taken := yields
  unfold sharedMatcher at yields
  obtain ⟨_, _, got, yields⟩ := yields_bind.mp yields
  obtain ⟨rfl, rfl⟩ := yields_get.mp got
  split at yields
  · rename_i found
    obtain ⟨rfl, rfl⟩ := yields_pure.mp yields
    have shared := mem_uses (mem_memo_matcher.mpr (mem_of_lookupIn_eq_some found))
    exact ⟨[], neat.course taken (List.forall_mem_singleton.mpr shared) fun _ => Nat.le_refl _⟩
  · rename_i free
    have new : Use.matcher language pattern ∉ before.uses := by
      intro listed
      obtain ⟨⟨_, name⟩, shared, rfl⟩ := List.mem_map.mp listed
      exact not_mem_of_lookupIn_eq_none free name (mem_memo_matcher.mp shared)
    have reserving : Reserving (.matcher language pattern) fun name draft =>
        { draft with matchers := ((language, pattern), name) :: draft.matchers } :=
      ⟨fun _ _ => .refl _, fun _ _ => rfl, fun _ _ => rfl⟩
    have spends : ∀ code, Spends (Statement.introductions code)
        Matcher.parameters [] code := fun code =>
      ⟨fun _ => Nat.le_refl _, by decide, by decide, by decide⟩
    obtain ⟨names, course⟩ := course_shareNew yields neat new allowed reserving works spends
      (fun _ => ⟨_, _, rfl⟩) fun same => absurd same (by decide)
    refine ⟨names, course.relog (.skip got rfl ?_)⟩
    rw [free]
    exact course.logged

end Steps

end Draft

end Reduct
