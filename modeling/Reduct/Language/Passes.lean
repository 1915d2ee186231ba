import Reduct.Language.Check
import Reduct.Language.Depth
import Reduct.Language.Greedy
import Reduct.Language.Holes
import Reduct.Language.Resolve
import Reduct.Sexp

/-!
# The passes one by one

The passes over patterns on a grammar that is given as source text, without the checks that
define a language: alias cycles are not rejected. The literal variables and the fresh names are
shared by all patterns, in the order in which these come.
-/

namespace Reduct

/-- A pattern after each of the passes. -/
structure PassedPattern where
  resolved : Pattern
  depths : Depths
  /-- The resolved pattern with its checks. -/
  checked : Pattern.Constrained
  /-- The resolved pattern under fresh names. -/
  anonymous : Pattern
  /-- The checked pattern with the modes of its repetitions. -/
  classified : Pattern
  holes : Option HoleRange

/-- A resolved grammar and what the passes share. -/
structure Passes where
  /-- The rules with their resolved alternatives, in order. Rules of one name all have the
  alternatives of the last of them. -/
  rules : List (Symbol × List Pattern)
  names : SymbolSet
  closures : Closures
  table : HoleTable
  mentioned : SymbolSet
  fresh : FreshNames

namespace Passes

/-- Read and resolve a pattern. -/
def resolveSource (names : SymbolSet) (source : String) : Resolving Pattern := do
  match Pattern.read source with
  | .ok pattern => pattern.resolve names
  | .error fault => throw fault

/-- Read and resolve the alternatives of all rules, in order. -/
def resolveRules (names : SymbolSet) (rules : List (Symbol × List String)) :
    Resolving (List (Symbol × List Pattern)) :=
  rules.mapM fun (name, sources) => do
    let alternatives ← sources.mapM (resolveSource names)
    pure (name, alternatives)

/-- The grammar of rules that are given as source text. -/
def ofRules (rules : List (Symbol × List String)) : Except Fault Passes := do
  let names := SymbolSet.ofList (rules.map (·.1))
  let (result, mentioned) := (resolveRules names rules).run .empty
  let resolved ← result
  let grammar := Grammar.ofRules resolved
  let merged := resolved.map fun (name, _) => (name, grammar.alternativesOf name)
  .ok ⟨merged, names, .ofGrammar grammar, grammar.holeTable, mentioned, .empty⟩

/-- Read and resolve a pattern, and keep the literal variables that it mentions. -/
def resolve (passes : Passes) (source : String) : Except Fault Pattern × Passes :=
  let (result, mentioned) := (resolveSource passes.names source).run passes.mentioned
  (result, { passes with mentioned := mentioned })

/-- Take a pattern through all passes. -/
def run (passes : Passes) (source : String) : Except Fault PassedPattern × Passes :=
  match passes.resolve source with
  | (.error fault, passes) => (.error fault, passes)
  | (.ok resolved, passes) =>
    match resolved.depths with
    | .error fault => (.error fault, passes)
    | .ok depths =>
      let (checked, fresh) := resolved.insertChecks passes.fresh
      let (anonymous, fresh) := resolved.anonymize fresh
      let classified := checked.pattern.classify passes.closures passes.mentioned
      (.ok ⟨resolved, depths, checked, anonymous, classified, classified.holes passes.table⟩,
        { passes with fresh := fresh })

/-- Whether two patterns are told apart by the sorts of terms they match. -/
def different (passes : Passes) (left right : String) : Except Fault Bool × Passes :=
  match passes.resolve left with
  | (.error fault, passes) => (.error fault, passes)
  | (.ok first, passes) =>
    match passes.resolve right with
    | (.error fault, passes) => (.error fault, passes)
    | (.ok second, passes) =>
      (.ok (passes.closures.provablyDifferent passes.mentioned first second), passes)

end Passes

end Reduct
