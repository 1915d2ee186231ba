import Reduct.Pattern

/-!
# Equality checks

A symbol that occurs more than once makes its occurrences match equal terms. Every occurrence
after the first gets a fresh name, and a check compares it with the occurrence before it. The
check stands at the lowest node that contains both: after the later child in a sequence, or on
the `in-hole` whose sides they are on. Names chain, so the third occurrence is compared with the
second.

The patterns of a grammar bind nothing that a reader sees; there every occurrence gets a fresh
name and nothing is compared.
-/

namespace Reduct

/-- How often each base was given out as a fresh name. -/
structure FreshNames where
  counters : Table Nat

namespace FreshNames

/-- No name was given out. -/
def empty : FreshNames := ⟨.empty⟩

/-- The number of names given out for a base. -/
def count (fresh : FreshNames) (base : Symbol) : Nat := (fresh.counters.find? base).getD 0

/-- The next name of a base. -/
def next (fresh : FreshNames) (base : Symbol) : Symbol × FreshNames :=
  (Symbol.numbered base (fresh.count base), ⟨fresh.counters.insert base (fresh.count base + 1)⟩)

end FreshNames

/-- One step from a pattern to a part of it. -/
inductive PatternStep where
  | item (index : Nat)
  | inner
  | context
  | contents
deriving DecidableEq

/-- Steps from a pattern down to one of its parts. -/
abbrev PatternPath := List PatternStep

namespace Pattern

mutual

/-- The occurrences of bound symbols with their places, from left to right. -/
def places : Pattern → List (Symbol × PatternPath)
  | .sequence items => placesFrom 0 items
  | .repeated inner _ => inner.places.map fun found => (found.1, .inner :: found.2)
  | .inHole context contents _ =>
    (context.places.map fun found => (found.1, .context :: found.2)) ++
      contents.places.map fun found => (found.1, .contents :: found.2)
  | leaf => leaf.bindingSymbol?.toList.map fun symbol => (symbol, [])

/-- The occurrences of bound symbols of consecutive items, the first at the given position. -/
def placesFrom (index : Nat) : List Pattern → List (Symbol × PatternPath)
  | [] => []
  | item :: rest =>
    (item.places.map fun found => (found.1, .item index :: found.2)) ++ placesFrom (index + 1) rest

end

/-- A check and the place it is put at: a node, and in a sequence the item it follows. -/
structure PlacedCheck where
  node : PatternPath
  after : Option Nat
  test : Check

/-- New names for occurrences, and checks between them. -/
structure CheckPlan where
  /-- The new name of every renamed occurrence. -/
  renames : List (PatternPath × Symbol)
  /-- The checks, in the order in which they are put at one place. -/
  checks : List PlacedCheck
  /-- The new names with the symbols they stand for. -/
  synthetic : List (Symbol × Symbol)

/-- The steps that two paths share from the start. -/
def sharedSteps : PatternPath → PatternPath → PatternPath
  | first :: left, second :: right => if first = second then first :: sharedSteps left right else []
  | _, _ => []

/-- The place of the check between an occurrence and a later one. -/
def checkPlace (earlier later : PatternPath) (test : Check) : PlacedCheck :=
  let node := sharedSteps earlier later
  let after :=
    match later.drop node.length with
    | .item index :: _ => some index
    | _ => none
  ⟨node, after, test⟩

/-- Rename the occurrences of one symbol at `later` places. The occurrence before them is at
`earlier` and has the name `previous`. -/
def planSymbol (symbol previous : Symbol) (earlier : PatternPath) :
    List PatternPath → CheckPlan → FreshNames → CheckPlan × FreshNames
  | [], plan, fresh => (plan, fresh)
  | later :: rest, plan, fresh =>
    let (name, fresh) := fresh.next symbol
    let extended : CheckPlan :=
      { renames := plan.renames ++ [(later, name)]
        checks := plan.checks ++ [checkPlace earlier later ⟨previous, name⟩]
        synthetic := plan.synthetic ++ [(name, symbol)] }
    planSymbol symbol name later rest extended fresh

/-- The places of one symbol among all occurrences. -/
def placesOf (symbol : Symbol) (occurrences : List (Symbol × PatternPath)) : List PatternPath :=
  (occurrences.filter fun found => found.1 = symbol).map (·.2)

/-- Plan the symbols one after another. -/
def planSymbols (occurrences : List (Symbol × PatternPath)) :
    List Symbol → CheckPlan → FreshNames → CheckPlan × FreshNames
  | [], plan, fresh => (plan, fresh)
  | symbol :: rest, plan, fresh =>
    match placesOf symbol occurrences with
    | [] => planSymbols occurrences rest plan fresh
    | first :: later =>
      let (plan, fresh) := planSymbol symbol symbol first later plan fresh
      planSymbols occurrences rest plan fresh

/-- The new names and checks of a pattern, symbols in the order of their first occurrences. -/
def checkPlan (pattern : Pattern) (fresh : FreshNames) : CheckPlan × FreshNames :=
  planSymbols pattern.places pattern.boundSymbols ⟨[], [], []⟩ fresh

/-- The new name planned for the occurrence at a place. -/
def CheckPlan.rename? (plan : CheckPlan) (path : PatternPath) : Option Symbol :=
  (plan.renames.find? fun planned => planned.1 = path).map (·.2)

/-- The checks planned at a node. -/
def CheckPlan.checksAt (plan : CheckPlan) (node : PatternPath) : List PlacedCheck :=
  plan.checks.filter fun placed => placed.node = node

/-- A leaf bound to another symbol. -/
def withSymbol (name : Symbol) : Pattern → Pattern
  | .nonTerminal stem _ => .nonTerminal stem name
  | .builtIn kind _ => .builtIn kind name
  | other => other

mutual

/-- The part of a pattern at a place, with its new names and checks. -/
def rebuild (plan : CheckPlan) (path : PatternPath) : Pattern → Pattern
  | .sequence items => .sequence (rebuildFrom plan path 0 items)
  | .repeated inner mode => .repeated (inner.rebuild plan (path ++ [.inner])) mode
  | .inHole context contents checks =>
    .inHole (context.rebuild plan (path ++ [.context]))
      (contents.rebuild plan (path ++ [.contents]))
      (checks ++ (plan.checksAt path).map (·.test))
  | leaf =>
    match plan.rename? path with
    | some name => leaf.withSymbol name
    | none => leaf

/-- Consecutive items of the sequence at a place, each followed by its checks. -/
def rebuildFrom (plan : CheckPlan) (path : PatternPath) (index : Nat) :
    List Pattern → List Pattern
  | [] => []
  | item :: rest =>
    let checks := (plan.checksAt path).filter fun placed => placed.after = some index
    item.rebuild plan (path ++ [.item index]) ::
      (checks.map fun placed => .check placed.test) ++ rebuildFrom plan path (index + 1) rest

end

/-- A pattern with its checks, and every new name with the symbol it stands for. -/
structure Constrained where
  pattern : Pattern
  synthetic : List (Symbol × Symbol)

/-- The pattern with repeated occurrences renamed and compared. -/
def insertChecks (pattern : Pattern) (fresh : FreshNames) : Constrained × FreshNames :=
  let (plan, fresh) := pattern.checkPlan fresh
  (⟨pattern.rebuild plan [], plan.synthetic⟩, fresh)

mutual

/-- The pattern with every bound occurrence under a fresh name of its own. -/
def anonymize : Pattern → FreshNames → Pattern × FreshNames
  | .nonTerminal stem symbol, fresh =>
    let (name, fresh) := fresh.next symbol
    (.nonTerminal stem name, fresh)
  | .builtIn kind symbol, fresh =>
    if kind.isBindable then
      let (name, fresh) := fresh.next symbol
      (.builtIn kind name, fresh)
    else (.builtIn kind symbol, fresh)
  | .sequence items, fresh =>
    let (items, fresh) := anonymizeAll items fresh
    (.sequence items, fresh)
  | .repeated inner mode, fresh =>
    let (inner, fresh) := inner.anonymize fresh
    (.repeated inner mode, fresh)
  | .inHole context contents checks, fresh =>
    let (context, fresh) := context.anonymize fresh
    let (contents, fresh) := contents.anonymize fresh
    (.inHole context contents checks, fresh)
  | .literal value, fresh => (.literal value, fresh)
  | .check test, fresh => (.check test, fresh)
  | .unresolved symbol, fresh => (.unresolved symbol, fresh)

/-- The patterns with every bound occurrence under a fresh name, from left to right. -/
def anonymizeAll : List Pattern → FreshNames → List Pattern × FreshNames
  | [], fresh => ([], fresh)
  | item :: rest, fresh =>
    let (item, fresh) := item.anonymize fresh
    let (rest, fresh) := anonymizeAll rest fresh
    (item :: rest, fresh)

end

end Pattern

end Reduct
