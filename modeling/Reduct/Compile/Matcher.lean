import Reduct.Compile.Draft
import Reduct.Language

/-!
# Compiled matchers

A matcher `match(terms, head, tail, m)` matches its pattern at the terms from position `head` up
to `tail`. It returns a list of pairs, one for each way to match: the bindings `m` extended, and
the position after the terms that were taken. The empty list means that there is no match. A
matcher copies the bindings before it adds to them.

A predicate `isa(t)` tells whether some alternative of a non-terminal matches the whole term. A
top-level matcher `matches(t)` returns the bindings of all matches of a whole term, without the
fresh names.
-/

namespace Reduct.Matcher

open Statement Draft

/-- The name of the sequence of terms. -/
def terms : Symbol := "terms"

/-- The name of the first position. -/
def head : Symbol := "head"

/-- The name of the position after the last. -/
def tail : Symbol := "tail"

/-- The name of the bindings. -/
def env : Symbol := "m"

/-- The parameters of a matcher. -/
def parameters : List Symbol := [terms, head, tail, env]

/-- A call of a matcher on a wrapped term with the given bindings. -/
def callOnWhole (target matcher wrapped bindings : Symbol) : Statement :=
  assignCall target matcher [.name wrapped, .int 0, .int 1, .name bindings]

/-- The primitive that tests a kind. -/
def kindTest : BuiltIn → Primitive
  | .number => .isNumber
  | .integer => .isInteger
  | .natural => .isNatural
  | .real => .isFloat
  | .string => .isString
  | .boolean => .isBoolean
  | .hole => .isHole
  | .variableNotOtherwiseMentioned => .isVariable
  | .variableExcept _ => .isVariable

/-- Run `success` if the term is a variable outside a constant sequence. -/
def variableTest (term excluded : Symbol) (success : List Statement) :
    Drafting (List Statement) := do
  let isVariable ← freshLocal "v"
  let listed ← freshLocal "c"
  let ok ← freshLocal "ok"
  pure
    [assignPrimitive isVariable .isVariable [.name term],
      whenTrue isVariable
        [assignPrimitive listed .sequenceContains [.name excluded, .name term],
          assignBinary ok .equal (.name listed) (.bool false),
          whenTrue ok success]]

/-- Run `success` if the term passes the test of a leaf. -/
def leafTest (language : Language) (predicate : Symbol → Drafting Symbol) (leaf : Pattern)
    (term : Symbol) (success : List Statement) : Drafting (List Statement) := do
  let ok ← freshLocal "ok"
  match leaf with
  | .literal value =>
    let wanted ← constant (.atom value)
    pure [assignPrimitive ok .termEqual [.name term, .name wanted], whenTrue ok success]
  | .nonTerminal stem _ =>
    let test ← predicate stem
    pure [assignCall ok test [.name term], whenTrue ok success]
  | .builtIn .variableNotOtherwiseMentioned _ =>
    let mentioned ← mentionedConstant language.name language.mentioned
    variableTest term mentioned success
  | .builtIn (.variableExcept excluded) _ =>
    let listed ← constant (.sequence (excluded.map Term.symbol))
    variableTest term listed success
  | .builtIn kind _ =>
    pure [assignPrimitive ok (kindTest kind) [.name term], whenTrue ok success]
  | other => throw (.unlocated (.internal (.notALeaf other)))

/-- The body of the matcher of a leaf: test the term at the head and bind it. -/
def leafBody (language : Language) (predicate : Symbol → Drafting Symbol) (leaf : Pattern) :
    Drafting (List Statement) := do
  let results ← freshLocal "results"
  let inRange ← freshLocal "c"
  let term ← freshLocal "t"
  let extended ← freshLocal "m"
  let next ← freshLocal "h"
  let pair ← freshLocal "p"
  let bind := leaf.bindingSymbol?.toList.map fun symbol =>
    perform .matchAdd [.name extended, .string symbol, .name term]
  let success :=
    assignPrimitive extended .matchCopy [.name env] :: bind ++
      [assignBinary next .add (.name head) (.int 1),
        assignPrimitive pair .makePair [.name extended, .name next],
        perform .listAppend [.name results, .name pair]]
  let test ← leafTest language predicate leaf term success
  pure
    [assignPrimitive results .newList [],
      assignBinary inRange .less (.name head) (.name tail),
      whenTrue inRange
        (assignPrimitive term .sequenceGet [.name terms, .name head] :: test),
      .returns (.name results)]

/-- Keep an entry of the frontier if the check holds. -/
def checkStep (test : Check) (entry position next : Symbol) : Drafting (List Statement) := do
  let equal ← freshLocal "eq"
  let pair ← freshLocal "p"
  pure
    [assignPrimitive equal .matchCompare [.name entry, .string test.left, .string test.right],
      whenTrue equal
        [assignPrimitive pair .makePair [.name entry, .name position],
          perform .listAppend [.name next, .name pair]]]

/-- Match an item from an entry of the frontier. A fixed item is tried only if there is room for
the `remaining` fixed items from it on. -/
def itemStep (matcher : Symbol) (isFixed : Bool) (remaining : Nat)
    (term length entry position next : Symbol) : Drafting (List Statement) := do
  let found ← freshLocal "rs"
  let call :=
    [assignCall found matcher [.name term, .name position, .name length, .name entry],
      perform .listExtend [.name next, .name found]]
  if isFixed then
    let rest ← freshLocal "r"
    let room ← freshLocal "ok"
    pure
      [assignBinary rest .subtract (.name length) (.name position),
        assignBinary room .greaterEqual (.name rest) (.int (wordOfCount remaining)),
        whenTrue room call]
  else pure call

/-- The number of items that take exactly one term. -/
def fixedCount (items : List Pattern) : Nat := (items.filter (·.isFixedWidth)).length

/-- Whether some item is a repetition. -/
def isOpen (items : List Pattern) : Bool :=
  items.any fun item =>
    match item with
    | .repeated .. => true
    | _ => false

/-- The locals of a sequence matcher that its items use. -/
structure SequenceLocals where
  /-- The sequence that is matched. -/
  term : Symbol
  /-- Its length. -/
  length : Symbol

/-- The body of the matcher of a sequence, given how its items move the frontier. -/
def sequenceBody (items : List Pattern)
    (steps : SequenceLocals → Symbol → Drafting (List Statement × Symbol)) :
    Drafting (List Statement) := do
  let results ← freshLocal "results"
  let inRange ← freshLocal "c"
  let term ← freshLocal "t"
  let isSequence ← freshLocal "s"
  let length ← freshLocal "n"
  let longEnough ← freshLocal "ok"
  let first ← freshLocal "frontier"
  let start ← freshLocal "p"
  let (fold, last) ← steps ⟨term, length⟩ first
  let entry ← freshLocal "m"
  let position ← freshLocal "h"
  let done ← freshLocal "done"
  let next ← freshLocal "h"
  let pair ← freshLocal "p"
  let comparison : BinaryOp := if isOpen items then .greaterEqual else .equal
  let begin :=
    [assignPrimitive first .newList [],
      assignPrimitive start .makePair [.name env, .int 0],
      perform .listAppend [.name first, .name start]]
  let finish :=
    [assignBinary next .add (.name head) (.int 1),
      .forEach [entry, position] last
        [assignBinary done .equal (.name position) (.name length),
          whenTrue done
            [assignPrimitive pair .makePair [.name entry, .name next],
              perform .listAppend [.name results, .name pair]]]]
  pure
    [assignPrimitive results .newList [],
      assignBinary inRange .less (.name head) (.name tail),
      whenTrue inRange
        [assignPrimitive term .sequenceGet [.name terms, .name head],
          assignPrimitive isSequence .isSequence [.name term],
          whenTrue isSequence
            [assignPrimitive length .sequenceLength [.name term],
              assignBinary longEnough comparison (.name length)
                (.int (wordOfCount (fixedCount items))),
              whenTrue longEnough (begin ++ fold ++ finish)]],
      .returns (.name results)]

/-- Explore every number of rounds, breadth first: the code and the list of all states reached. -/
def exploreAll (matcher start : Symbol) : Drafting (List Statement × Symbol) := do
  let queue ← freshLocal "queue"
  let pair ← freshLocal "p"
  let index ← freshLocal "i"
  let going ← freshLocal "going"
  let length ← freshLocal "n"
  let more ← freshLocal "more"
  let item ← freshLocal "item"
  let entry ← freshLocal "m"
  let position ← freshLocal "h"
  let found ← freshLocal "rs"
  pure
    ([assignPrimitive queue .newList [],
      assignPrimitive pair .makePair [.name start, .name head],
      perform .listAppend [.name queue, .name pair],
      .assign index (.operand (.int 0)),
      .assign going (.operand (.bool true)),
      .loop going
        [assignPrimitive length .listLength [.name queue],
          assignBinary more .less (.name index) (.name length),
          .branch (.name more)
            [assignPrimitive item .listGet [.name queue, .name index],
              .assign entry (.field item 0),
              .assign position (.field item 1),
              assignBinary index .add (.name index) (.int 1),
              assignCall found matcher
                [.name terms, .name position, .name tail, .name entry],
              perform .listExtend [.name queue, .name found]]
            [.assign going (.operand (.bool false))]]],
      queue)

/-- Take rounds as long as one succeeds: the code and the last frontier that is not empty. -/
def exploreGreedy (matcher start : Symbol) : Drafting (List Statement × Symbol) := do
  let frontier ← freshLocal "frontier"
  let pair ← freshLocal "p"
  let going ← freshLocal "going"
  let next ← freshLocal "next"
  let entry ← freshLocal "m"
  let position ← freshLocal "h"
  let found ← freshLocal "rs"
  let length ← freshLocal "n"
  let advanced ← freshLocal "more"
  pure
    ([assignPrimitive frontier .newList [],
      assignPrimitive pair .makePair [.name start, .name head],
      perform .listAppend [.name frontier, .name pair],
      .assign going (.operand (.bool true)),
      .loop going
        [assignPrimitive next .newList [],
          .forEach [entry, position] frontier
            [assignCall found matcher
                [.name terms, .name position, .name tail, .name entry],
              perform .listExtend [.name next, .name found]],
          assignPrimitive length .listLength [.name next],
          assignBinary advanced .greater (.name length) (.int 0),
          .branch (.name advanced)
            [.assign frontier (.operand (.name next))]
            [.assign going (.operand (.bool false))]]],
      frontier)

/-- The code that explores the rounds of a repetition. -/
def explore (matcher start : Symbol) : RepeatMode → Drafting (List Statement × Symbol)
  | .exhaustive => exploreAll matcher start
  | .greedy => exploreGreedy matcher start

/-- The body of the matcher of a repetition: open a level for every bound symbol, explore, and
close the levels of every state that was reached. -/
def repeatBody (bound : List Symbol) (mode : RepeatMode) (inner : Drafting Symbol) :
    Drafting (List Statement) := do
  let matcher ← inner
  let start ← freshLocal "m"
  let opened := bound.map fun symbol =>
    perform .matchIncreaseDepth [.name start, .string symbol]
  let (search, finished) ← explore matcher start mode
  let out ← freshLocal "out"
  let entry ← freshLocal "m"
  let position ← freshLocal "h"
  let closedEntry ← freshLocal "m"
  let pair ← freshLocal "p"
  let closed := bound.map fun symbol =>
    perform .matchDecreaseDepth [.name closedEntry, .string symbol]
  let close :=
    assignPrimitive closedEntry .matchCopy [.name entry] :: closed ++
      [assignPrimitive pair .makePair [.name closedEntry, .name position],
        perform .listAppend [.name out, .name pair]]
  pure
    (assignPrimitive start .matchCopy [.name env] :: opened ++ search ++
      [assignPrimitive out .newList [],
        .forEach [entry, position] finished close,
        .returns (.name out)])

/-- Run `accept` only if all checks hold of the merged bindings. -/
def guardChecks (merged : Symbol) (accept : List Statement) :
    List Check → Drafting (List Statement)
  | [] => pure accept
  | test :: rest => do
    let inner ← guardChecks merged accept rest
    let equal ← freshLocal "eq"
    pure
      [assignPrimitive equal .matchCompare [.name merged, .string test.left, .string test.right],
        whenTrue equal inner]

/-- The body of the matcher of an `in-hole`: for every subterm that matches the contents, match
the term with a hole in its place against the context, and merge the bindings of both. -/
def inHoleBody (checks : List Check) (context contents : Drafting Symbol) :
    Drafting (List Statement) := do
  let contextMatcher ← context
  let contentsMatcher ← contents
  let hole ← constant .hole
  let results ← freshLocal "results"
  let inRange ← freshLocal "c"
  let term ← freshLocal "t"
  let candidates ← freshLocal "subterms"
  let subterm ← freshLocal "sub"
  let path ← freshLocal "path"
  let wrappedSubterm ← freshLocal "w"
  let innerEnv ← freshLocal "m"
  let inner ← freshLocal "rs"
  let count ← freshLocal "n"
  let any ← freshLocal "ok"
  let holed ← freshLocal "holed"
  let wrappedContext ← freshLocal "w"
  let outerEnv ← freshLocal "m"
  let outer ← freshLocal "rs"
  let contextEntry ← freshLocal "m"
  let contextPosition ← freshLocal "h"
  let contentsEntry ← freshLocal "m"
  let contentsPosition ← freshLocal "h"
  let merged ← freshLocal "m"
  let next ← freshLocal "h"
  let pair ← freshLocal "p"
  let accept ← guardChecks merged
    [assignPrimitive pair .makePair [.name merged, .name next],
      perform .listAppend [.name results, .name pair]]
    checks
  let combine :=
    [assignPrimitive merged .matchCopy [.name env],
      perform .matchMerge [.name merged, .name contextEntry],
      perform .matchMerge [.name merged, .name contentsEntry]] ++ accept
  let candidate :=
    [assignPrimitive wrappedSubterm .wrapTerm [.name subterm],
      assignPrimitive innerEnv .newMatch [],
      callOnWhole inner contentsMatcher wrappedSubterm innerEnv,
      assignPrimitive count .listLength [.name inner],
      assignBinary any .greater (.name count) (.int 0),
      whenTrue any
        [assignPrimitive holed .replaceAtPath [.name term, .name path, .name hole],
          assignPrimitive wrappedContext .wrapTerm [.name holed],
          assignPrimitive outerEnv .newMatch [],
          callOnWhole outer contextMatcher wrappedContext outerEnv,
          .forEach [contextEntry, contextPosition] outer
            [.forEach [contentsEntry, contentsPosition] inner combine]]]
  pure
    [assignPrimitive results .newList [],
      assignBinary inRange .less (.name head) (.name tail),
      whenTrue inRange
        [assignPrimitive term .sequenceGet [.name terms, .name head],
          assignBinary next .add (.name head) (.int 1),
          assignPrimitive candidates .subtermPaths [.name term],
          .forEach [subterm, path] candidates candidate],
      .returns (.name results)]

mutual

/-- The matcher of a pattern, given how the predicates of non-terminals are compiled. -/
def compileWith (language : Language) (predicate : Symbol → Drafting Symbol) :
    Pattern → Drafting Symbol
  | .literal value =>
    sharedMatcher language.name (.literal value) "match_literal" value.text parameters
      (leafBody language predicate (.literal value))
  | .builtIn kind symbol =>
    sharedMatcher language.name (.builtIn kind symbol) "match_builtin" kind.keyword parameters
      (leafBody language predicate (.builtIn kind symbol))
  | .nonTerminal stem symbol =>
    sharedMatcher language.name (.nonTerminal stem symbol) "match_nt" stem parameters
      (leafBody language predicate (.nonTerminal stem symbol))
  | .sequence items =>
    sharedMatcher language.name (.sequence items) "match_sequence" "" parameters
      (sequenceBody items fun locals frontier =>
        compileItems language predicate locals (fixedCount items) frontier items)
  | .repeated inner mode =>
    sharedMatcher language.name (.repeated inner mode) "match_repeat" "" parameters
      (repeatBody inner.boundSymbols mode (compileWith language predicate inner))
  | .inHole context contents checks =>
    sharedMatcher language.name (.inHole context contents checks) "match_in_hole" "" parameters
      (inHoleBody checks (compileWith language predicate context)
        (compileWith language predicate contents))
  | .check test => throw (.unlocated (.internal (.noMatcher (.check test))))
  | .unresolved symbol => throw (.unlocated (.internal (.noMatcher (.unresolved symbol))))

/-- The code that moves the frontier over the items of a sequence, and the last frontier. -/
def compileItems (language : Language) (predicate : Symbol → Drafting Symbol)
    (locals : SequenceLocals) (remaining : Nat) (frontier : Symbol) :
    List Pattern → Drafting (List Statement × Symbol)
  | [] => pure ([], frontier)
  | item :: rest => do
    let next ← freshLocal "frontier"
    let entry ← freshLocal "m"
    let position ← freshLocal "h"
    let step ←
      match item with
      | .check test => checkStep test entry position next
      | other => do
        let matcher ← compileWith language predicate other
        itemStep matcher other.isFixedWidth remaining locals.term locals.length entry position next
    let left := if item.isFixedWidth then remaining - 1 else remaining
    let (others, last) ← compileItems language predicate locals left next rest
    pure
      ([assignPrimitive next .newList [], .forEach [entry, position] frontier step] ++ others,
        last)

end

/-- The tests of the alternatives of a rule, in order; each returns true if it succeeds. -/
def alternativeTests (compile : Pattern → Drafting Symbol) (bindings : Symbol) :
    List Prepared → Drafting (List Statement)
  | [] => pure []
  | alternative :: rest => do
    let matcher ← compile alternative.pattern
    let results ← freshLocal "rs"
    let count ← freshLocal "n"
    let found ← freshLocal "c"
    let others ← alternativeTests compile bindings rest
    pure
      ([callOnWhole results matcher terms bindings,
        assignPrimitive count .listLength [.name results],
        assignBinary found .greater (.name count) (.int 0),
        whenTrue found [.returns (.bool true)]] ++ others)

/-- The name of the parameter of predicates and top-level matchers. -/
def whole : Symbol := "t"

/-- The predicate of a non-terminal: the one reserved for it, or else what `enter` gives for its
rule. -/
def sharedPredicate (language : Language) (nonTerminal : Symbol) (enter : Rule → Drafting Symbol) :
    Drafting Symbol := do
  let reserved ← predicate? language.name nonTerminal
  match reserved, language.rule? nonTerminal with
  | some name, _ => pure name
  | none, none => throw (.unlocated (.internal (.notANonTerminal nonTerminal language.name)))
  | none, some rule => enter rule

/-- The predicate of a non-terminal. `fuel` bounds the rules that are entered inside one another;
each is reserved before it is entered, so no rule is entered twice on one way. -/
def predicate (language : Language) : (fuel : Nat) → Symbol → Drafting Symbol
  | 0, nonTerminal =>
    sharedPredicate language nonTerminal fun _ =>
      throw (.unlocated (.internal (.rulesExhausted nonTerminal)))
  | fuel + 1, nonTerminal =>
    sharedPredicate language nonTerminal fun rule => do
      let name ← freshFunction "isa" (language.name ++ "_" ++ nonTerminal)
      reservePredicate language.name nonTerminal name
      let tests ←
        alternativeTests (compileWith language (predicate language fuel)) env rule.alternatives
      addFunction name [whole]
        ([assignPrimitive terms .wrapTerm [.name whole], assignPrimitive env .newMatch []] ++
          tests ++ [.returns (.bool false)])
      pure name

/-- The predicate of a non-terminal of a language. -/
def compilePredicate (language : Language) (nonTerminal : Symbol) : Drafting Symbol :=
  predicate language language.rules.length nonTerminal

/-- The matcher of a pattern of a language. -/
def compile (language : Language) (pattern : Pattern) : Drafting Symbol :=
  compileWith language (compilePredicate language) pattern

/-- The function that returns all matches of a whole term, without the fresh names. -/
def compileTop (language : Language) (prepared : Prepared) : Drafting Symbol := do
  let inner ← compile language prepared.pattern
  let name ← freshFunction "matches" language.name
  let results ← freshLocal "rs"
  let out ← freshLocal "out"
  let entry ← freshLocal "m"
  let position ← freshLocal "h"
  let kept ← freshLocal "m"
  let drops := prepared.synthetic.map fun symbol =>
    perform .matchRemove [.name kept, .string symbol]
  addFunction name [whole]
    [assignPrimitive terms .wrapTerm [.name whole],
      assignPrimitive env .newMatch [],
      callOnWhole results inner terms env,
      assignPrimitive out .newList [],
      .forEach [entry, position] results
        (assignPrimitive kept .matchCopy [.name entry] :: drops ++
          [perform .listAppend [.name out, .name kept]]),
      .returns (.name out)]
  pure name

end Reduct.Matcher
