import Reduct.Proofs.SlicedExpressions

/-!
# Forms read by slices

The parts of a form are guarded by its shape: the name in front, the number of arguments, or an item
that was seen before. Sliced off behind these guards they are always in range, and what is read is
the form that its expression writes.
-/

namespace Reduct.Slicing

open Form Sexp

/-! ## Readers -/

/-- Whether the first item is a given symbol. -/
def startsWith (items : List Sexp) (name : Symbol) : Bool :=
  items.head?.any fun first => first.isSymbol name

/-- A rule. -/
def rule (around : Span) (clause : Sexp) : Slicing RuleDefinition := do
  let items ← read (listPart (some clause) around "a `(name ::= pattern ...)` clause")
  let name ← read (symbolPart items.head? clause.span "a non-terminal name")
  let rest ← cut (suffix? items 1)
  let alternatives ← if startsWith rest "::=" then cut (suffix? rest 1) else pure rest
  if alternatives.isEmpty then throw (malformed (.noAlternatives name) clause.span)
  else
    let patterns ← alternatives.mapM pattern
    pure ⟨name, patterns, clause.span⟩

/-- A language. -/
def language (arguments : List Sexp) (span : Span) : Slicing LanguageDefinition := do
  let name ← read (symbolPart arguments.head? span "a language name")
  let clauses ← cut (suffix? arguments 1)
  let rules ← clauses.mapM (rule span)
  pure ⟨name, rules⟩

/-- The optional name of a reduction case, which is its fourth item. -/
def caseName (items : List Sexp) : Slicing (Option String) :=
  match (items[3]? : Option Sexp) with
  | none => pure none
  | some (.atom (.string text) _) => pure (some text)
  | some (.atom (.symbol name) _) => pure (some name)
  | some _ => do
    let last ← cut items[3]?
    throw (malformed .caseName last.span)

/-- A reduction case. -/
def case (around : Span) (sexp : Sexp) : Slicing ReductionCase := do
  let items ← read (listPart (some sexp) around "a `(--> pattern template)` case")
  if !startsWith items "-->" || items.length < 3 || 4 < items.length then
    throw (malformed .caseShape sexp.span)
  else
    let name ← caseName items
    let left ← cut items[1]?
    let pattern ← Slicing.pattern left
    let right ← cut items[2]?
    let template ← Slicing.template right
    pure ⟨pattern, template, name, sexp.span⟩

/-- The optional domain of a relation and what follows it. -/
def domain (items : List Sexp) (span : Span) : Slicing (Option Pattern × List Sexp) :=
  if startsWith items "#:domain" then
    match items[1]? with
    | none => throw (malformed .domainPattern span)
    | some part => do
      let pattern ← Slicing.pattern part
      let cases ← cut (suffix? items 2)
      pure (some pattern, cases)
  else pure (none, items)

/-- A reduction relation. -/
def relation (arguments : List Sexp) (span : Span) : Slicing RelationDefinition := do
  let name ← read (symbolPart arguments[0]? span "a relation name")
  let language ← read (symbolPart arguments[1]? span "a language name")
  let (guard, rest) ← domain ((suffix? arguments 2).getD []) span
  let cases ← rest.mapM (case span)
  pure ⟨name, language, guard, cases⟩

/-- The optional contract of a metafunction and what follows it. -/
def contract (items : List Sexp) (span : Span) : Slicing (Option Contract × List Sexp) :=
  if startsWith items ":" then
    match items.findIdx? fun part => part.isSymbol "->" with
    | none => throw (malformed .contractArrow span)
    | some arrow =>
      match items[arrow + 1]? with
      | none => throw (malformed .contractCodomain span)
      | some codomain => do
        let parts ← cut (between? items 1 arrow)
        let domain ← patterns parts
        let result ← Slicing.pattern codomain
        let cases ← cut (suffix? items (arrow + 2))
        pure (some ⟨domain, result⟩, cases)
  else pure (none, items)

/-- The declared name and contract of a metafunction and the cases after them. -/
def header (items : List Sexp) (span : Span) :
    Slicing (Option Symbol × Option Contract × List Sexp) :=
  match items.head?.bind Sexp.symbol? with
  | some name => do
    let rest ← cut (suffix? items 1)
    let (declared, cases) ← contract rest span
    pure (some name, declared, cases)
  | none => pure (none, none, items)

/-- A metafunction case, of the given name if one is known. -/
def clause (around : Span) (known : Option Symbol) (sexp : Sexp) :
    Slicing (Symbol × MetafunctionCase) := do
  let items ← read (listPart (some sexp) around "a `[(f pattern ...) template]` case")
  match items with
  | [left, right] =>
    let parts ← read (listPart (some left) sexp.span "`(f pattern ...)`")
    let name ← read (symbolPart parts.head? left.span "the metafunction name")
    if known.any fun wanted => wanted ≠ name then
      throw (malformed (.clauseName name (known.getD name)) left.span)
    else
      let arguments ← cut (suffix? parts 1)
      let patterns ← patterns arguments
      let template ← Slicing.template right
      pure (name, ⟨patterns, template, sexp.span⟩)
  | _ => throw (malformed .clauseShape sexp.span)

/-- The cases of a metafunction. -/
def clauses (around : Span) (known : Option Symbol) :
    List Sexp → Slicing (Option Symbol × List MetafunctionCase)
  | [] => pure (known, [])
  | sexp :: rest => do
    let (name, first) ← clause around known sexp
    let (name, others) ← clauses around (some name) rest
    pure (name, first :: others)

/-- A metafunction. -/
def metafunction (arguments : List Sexp) (span : Span) : Slicing MetafunctionDefinition := do
  let language ← read (symbolPart arguments.head? span "a language name")
  let (declared, contract, rest) ← header ((suffix? arguments 1).getD []) span
  let (name, cases) ← clauses span declared rest
  match name with
  | some name => pure ⟨name, language, contract, cases⟩
  | none => throw (malformed .namelessFunction span)

/-- A match. -/
def redexMatch (arguments : List Sexp) (span : Span) : Slicing FormBody := do
  read (checkCount "redex-match" 3 arguments span)
  let language ← read (symbolPart arguments.head? span "a language name")
  let second ← cut arguments[1]?
  let pattern ← Slicing.pattern second
  let third ← cut arguments[2]?
  pure (.redexMatch language pattern third.toTerm)

/-- A match assertion. -/
def assertMatch (arguments : List Sexp) (span : Span) : Slicing FormBody := do
  read (checkCount "redex-match-assert-equal" 4 arguments span)
  let lists ← read (listPart arguments[3]? span "a list of expected matches")
  let expected ← read (lists.mapM readExpected)
  let language ← read (symbolPart arguments.head? span "a language name")
  let second ← cut arguments[1]?
  let pattern ← Slicing.pattern second
  let third ← cut arguments[2]?
  pure (.assertMatch language pattern third.toTerm expected)

/-- A pattern with the term that it is matched with. -/
def pair (sexp : Sexp) : Slicing (Pattern × Term) :=
  match sexp.items? with
  | some [left, term] => do
    let pattern ← Slicing.pattern left
    pure (pattern, term.toTerm)
  | _ => throw (malformed .patternBinding sexp.span)

/-- A term assertion. -/
def assertTerm (arguments : List Sexp) (span : Span) : Slicing FormBody := do
  read (checkCount "term-let-assert-equal" 4 arguments span)
  let pairs ← read (listPart arguments[1]? span "a list of `(pattern term)` bindings")
  let bindings ← pairs.mapM pair
  let language ← read (symbolPart arguments.head? span "a language name")
  let third ← cut arguments[2]?
  let template ← Slicing.template third
  let last ← cut arguments[3]?
  pure (.assertTerm language bindings template last.toTerm)

/-- A reduction assertion. -/
def assertReduction (arguments : List Sexp) (span : Span) : Slicing FormBody := do
  read (checkCount "apply-reduction-relation-assert-equal" 3 arguments span)
  let results ← read (listPart arguments[2]? span "a list of expected terms")
  let relation ← read (symbolPart arguments.head? span "a relation name")
  let second ← cut arguments[1]?
  pure (.assertReduction relation second.toTerm (results.map Sexp.toTerm))

/-- The form of the given name with the given arguments; the name stands at the first of the
items. -/
def body (head : Symbol) (items arguments : List Sexp) (span : Span) : Slicing FormBody :=
  match head with
  | "define-language" => FormBody.language <$> language arguments span
  | "define-reduction-relation" => FormBody.relation <$> relation arguments span
  | "define-metafunction" => FormBody.metafunction <$> metafunction arguments span
  | "redex-match" => redexMatch arguments span
  | "redex-match-assert-equal" => assertMatch arguments span
  | "term-let-assert-equal" => assertTerm arguments span
  | "apply-reduction-relation-assert-equal" => assertReduction arguments span
  | "require-foreign-source" => read (readForeignSource arguments span)
  | other => do
    let first ← cut items[0]?
    throw (.located (.unknownForm other) first.span "not a top-level form")

/-- The form that an expression writes. -/
def form (sexp : Sexp) : Slicing Form :=
  match sexp.items? with
  | none => throw (malformed .notAList sexp.span)
  | some items =>
    match sexp.head? with
    | none => throw (malformed .noHead sexp.span)
    | some head => do
      let arguments ← cut (suffix? items 1)
      let found ← body head items arguments sexp.span
      pure ⟨found, sexp.span⟩

/-! ## Forms stay in range -/

section Guards

variable {items : List Sexp} {span : Span} {what : String} {name : Symbol}

/-- A list that starts with a symbol has a first item. -/
theorem suffix?_tail_of_symbolPart (named : symbolPart items.head? span what = .ok name) :
    suffix? items 1 = some items.tail := by
  cases items with
  | nil => cases named
  | cons first rest => exact suffix?_cons first rest

theorem gives_rule (around : Span) (clause : Sexp) :
    Gives (rule around clause) (readRule around clause) := by
  refine (gives_read _).bind fun items _ => (gives_read _).bind fun name named => ?_
  refine .cut (suffix?_tail_of_symbolPart named) ?_
  have last : ∀ alternatives : List Sexp, Gives
      (if alternatives.isEmpty then throw (malformed (.noAlternatives name) clause.span)
        else do
          let patterns ← alternatives.mapM pattern
          pure ⟨name, patterns, clause.span⟩)
      (if alternatives.isEmpty then .error (malformed (.noAlternatives name) clause.span)
        else (alternatives.mapM Sexp.toPattern).bind fun patterns =>
          .ok (⟨name, patterns, clause.span⟩ : RuleDefinition)) := by
    intro alternatives
    split
    · exact gives_throw _
    · exact (Gives.mapM fun part _ => gives_pattern part).bind fun _ _ => gives_pure _
  cases items.tail with
  | nil => exact last []
  | cons first others =>
    by_cases arrow : first.isSymbol "::=" = true
    · have starts : startsWith (first :: others) "::=" = true := arrow
      simp only [if_pos arrow, if_pos starts]
      exact .cut (suffix?_cons first others) (last others)
    · have starts : ¬startsWith (first :: others) "::=" = true := arrow
      simp only [if_neg arrow, if_neg starts]
      exact last (first :: others)

theorem gives_language (arguments : List Sexp) (span : Span) :
    Gives (language arguments span) (readLanguage arguments span) := by
  refine (gives_read _).bind fun name named => ?_
  refine .cut (suffix?_tail_of_symbolPart named) ?_
  exact (Gives.mapM fun clause _ => gives_rule span clause).bind fun _ _ => gives_pure _

theorem gives_case (around : Span) (sexp : Sexp) : Gives (case around sexp) (readCase around sexp) := by
  refine (gives_read _).bind fun items _ => ?_
  match items with
  | [] => exact gives_throw _
  | [first] =>
    rw [if_pos (by simp)]
    exact gives_throw _
  | [first, second] =>
    rw [if_pos (by simp)]
    exact gives_throw _
  | arrow :: pattern :: template :: rest =>
    have long : decide (4 < (arrow :: pattern :: template :: rest).length) =
        !decide (rest.length ≤ 1) := by
      rw [← decide_not, decide_eq_decide]
      simp only [List.length_cons]
      omega
    have short : decide ((arrow :: pattern :: template :: rest).length < 3) = false := by
      rw [decide_eq_false_iff_not]
      simp only [List.length_cons]
      omega
    have shape : (!startsWith (arrow :: pattern :: template :: rest) "-->" ||
        decide ((arrow :: pattern :: template :: rest).length < 3) ||
        decide (4 < (arrow :: pattern :: template :: rest).length)) =
          !(arrow.isSymbol "-->" && decide (rest.length ≤ 1)) := by
      rw [short, long]
      simp [startsWith]
    rw [shape]
    by_cases fine : (arrow.isSymbol "-->" && decide (rest.length ≤ 1)) = true
    · rw [if_neg (by simp [fine])]
      simp only [if_pos fine]
      have names : Gives (caseName (arrow :: pattern :: template :: rest))
          (rest.head?.mapM readCaseName) := by
        cases rest with
        | nil => exact gives_pure none
        | cons name others =>
          match name with
          | .atom (.string text) _ | .atom (.symbol text) _ => exact gives_pure (some text)
          | .atom (.integer _) _ | .atom (.float _) _ | .atom (.boolean _) _ | .list _ _ =>
            exact .cut rfl (gives_throw _)
      refine names.bind fun name _ => .cut rfl ?_
      refine (gives_pattern pattern).bind fun _ _ => .cut rfl ?_
      exact (gives_template template).bind fun _ _ => gives_pure _
    · rw [if_pos (by simp [fine])]
      simp only [if_neg fine]
      exact gives_throw _

theorem gives_domain (items : List Sexp) (span : Span) :
    Gives (domain items span) (readDomain items span) := by
  cases items with
  | nil => exact gives_pure _
  | cons first rest =>
    unfold domain readDomain
    by_cases guarded : first.isSymbol "#:domain" = true
    · have starts : startsWith (first :: rest) "#:domain" = true := guarded
      simp only [if_pos guarded, if_pos starts]
      cases rest with
      | nil => exact gives_throw _
      | cons pattern cases' =>
        exact (gives_pattern pattern).bind fun _ _ => .cut (by simp [suffix?]) (gives_pure _)
    · have starts : ¬startsWith (first :: rest) "#:domain" = true := guarded
      simp only [if_neg guarded, if_neg starts]
      exact gives_pure _

theorem gives_relation (arguments : List Sexp) (span : Span) :
    Gives (relation arguments span) (readRelation arguments span) := by
  refine (gives_read _).bind fun name _ => (gives_read _).bind fun language _ => ?_
  rw [suffix?_getD]
  refine (gives_domain _ span).bind fun found _ => ?_
  exact (Gives.mapM fun sexp _ => gives_case span sexp).bind fun _ _ => gives_pure _

/-- The place of the first arrow parts the items before it from those after it. -/
theorem arrow_parts {passes : Sexp → Bool} {items : List Sexp} :
    (items.findIdx? passes = none ∧ items.dropWhile (fun part => !passes part) = []) ∨
      ∃ place arrow, items.findIdx? passes = some place ∧ place < items.length ∧
        items.take place = items.takeWhile (fun part => !passes part) ∧
        items.dropWhile (fun part => !passes part) = arrow :: items.drop (place + 1) := by
  induction items with
  | nil => exact .inl ⟨rfl, rfl⟩
  | cons first rest ih =>
    cases found : passes first with
    | true =>
      refine .inr ⟨0, first, ?_, Nat.succ_pos _, ?_, ?_⟩ <;> simp [List.findIdx?_cons, found]
    | false =>
      rcases ih with ⟨absent, none_⟩ | ⟨place, arrow, there, inside, before, after⟩
      · exact .inl (by simp [List.findIdx?_cons, found, absent, none_])
      · refine .inr ⟨place + 1, arrow, ?_, Nat.succ_lt_succ inside, ?_, ?_⟩
        · simp [List.findIdx?_cons, found, there]
        · simp [found, before]
        · simp [found, after]

theorem gives_contract (items : List Sexp) (span : Span) :
    Gives (contract items span) (readContract items span) := by
  cases items with
  | nil => exact gives_pure _
  | cons colon rest =>
    unfold contract readContract
    by_cases declared : colon.isSymbol ":" = true
    · have starts : startsWith (colon :: rest) ":" = true := declared
      have other : colon.isSymbol "->" = false := by
        rw [Sexp.isSymbol, decide_eq_true_iff] at declared
        rw [Sexp.isSymbol, declared]
        decide
      simp only [if_pos declared, if_pos starts, List.findIdx?_cons, other]
      rcases @arrow_parts (·.isSymbol "->") rest with
        ⟨absent, none_⟩ | ⟨place, arrow, there, inside, before, after⟩
      · rw [absent, none_]
        exact gives_throw _
      · rw [there, after]
        simp only [Option.map_some, List.getElem?_cons_succ, Bool.false_eq_true, if_false]
        cases behind : rest.drop (place + 1) with
        | nil =>
          have missing : rest[place + 1]? = none :=
            List.getElem?_eq_none (List.drop_eq_nil_iff.mp behind)
          rw [missing]
          exact gives_throw _
        | cons codomain cases' =>
          have present : rest[place + 1]? = some codomain := by
            rw [← List.head?_drop, behind]
            rfl
          have bounded : place + 2 ≤ rest.length := by
            have size := congrArg List.length behind
            rw [List.length_drop, List.length_cons] at size
            omega
          have parts : between? (colon :: rest) 1 (place + 1) =
              some (rest.takeWhile fun part => !part.isSymbol "->") := by
            rw [between?, if_pos ⟨Nat.le_add_left 1 place, by rw [List.length_cons]; omega⟩,
              List.take_succ_cons, List.drop_one, List.tail_cons, before]
          have later : suffix? (colon :: rest) (place + 1 + 2) = some cases' := by
            rw [suffix?, if_pos (by rw [List.length_cons]; omega)]
            have whole := congrArg List.tail behind
            rw [List.tail_drop, List.tail_cons] at whole
            exact congrArg some whole
          rw [present]
          refine .cut parts ((gives_patterns _).bind fun _ _ => ?_)
          refine (gives_pattern codomain).bind fun _ _ => ?_
          exact .cut later (gives_pure _)
    · have starts : ¬startsWith (colon :: rest) ":" = true := declared
      simp only [if_neg declared, if_neg starts]
      exact gives_pure _

theorem gives_header (items : List Sexp) (span : Span) :
    Gives (header items span) (readHeader items span) := by
  unfold header readHeader
  cases items with
  | nil => exact gives_pure _
  | cons first rest =>
    simp only [List.head?_cons, Option.bind_some, List.tail_cons]
    cases named : first.symbol? with
    | none => exact gives_pure _
    | some name =>
      refine .cut (suffix?_cons first rest) ?_
      exact (gives_contract rest span).bind fun _ _ => gives_pure _

theorem gives_clause (around : Span) (known : Option Symbol) (sexp : Sexp) :
    Gives (clause around known sexp) (readClause around known sexp) := by
  refine (gives_read _).bind fun items _ => ?_
  match items with
  | [] | [_] | _ :: _ :: _ :: _ => exact gives_throw _
  | [left, right] =>
    refine (gives_read _).bind fun parts _ => (gives_read _).bind fun name named => ?_
    have last : Gives (do
          let arguments ← cut (suffix? parts 1)
          let patterns ← patterns arguments
          let template ← Slicing.template right
          pure (name, ⟨patterns, template, sexp.span⟩))
        ((Sexp.toPatterns parts.tail).bind fun patterns => right.toTemplate.bind fun template =>
          .ok (name, (⟨patterns, template, sexp.span⟩ : MetafunctionCase))) := by
      refine .cut (suffix?_tail_of_symbolPart named) ?_
      refine (gives_patterns _).bind fun _ _ => ?_
      exact (gives_template right).bind fun _ _ => gives_pure _
    cases known with
    | none => exact last
    | some wanted =>
      by_cases other : wanted ≠ name
      · rw [if_pos (by simp [other])]
        simp only [if_pos other]
        exact gives_throw _
      · rw [if_neg (by simpa using other)]
        simp only [if_neg other]
        exact last

theorem gives_clauses (around : Span) {cases' : List Sexp} : ∀ known,
    Gives (clauses around known cases') (readClauses around known cases') := by
  induction cases' with
  | nil => exact fun known => gives_pure _
  | cons sexp rest ih =>
    intro known
    rw [clauses, readClauses]
    refine (gives_clause around known sexp).bind fun first _ => ?_
    exact (ih _).bind fun _ _ => gives_pure _

theorem gives_metafunction (arguments : List Sexp) (span : Span) :
    Gives (metafunction arguments span) (readMetafunction arguments span) := by
  refine (gives_read _).bind fun language _ => ?_
  rw [suffix?_getD, List.drop_one]
  refine (gives_header _ span).bind fun found _ => ?_
  refine (gives_clauses span _).bind fun ⟨name, cases'⟩ _ => ?_
  cases name with
  | none => exact gives_throw _
  | some name => exact gives_pure _

/-- A form with the right number of arguments has all of its parts. -/
theorem Gives.counted {α : Type} {form : String} {wanted : Nat} {arguments : List Sexp}
    {span : Span} {next : Unit → Slicing α} {rest : Unit → Except Fault α}
    (each : arguments.length = wanted → Gives (next ()) (rest ())) :
    Gives (read (checkCount form wanted arguments span) >>= next)
      ((checkCount form wanted arguments span).bind rest) := by
  refine (gives_read _).bind fun _ counted => ?_
  unfold checkCount at counted
  split at counted
  · rename_i same
    exact each same
  · cases counted

theorem exists_three {α : Type} {items : List α} (counted : items.length = 3) :
    ∃ first second third, items = [first, second, third] := by
  match items, counted with
  | [first, second, third], _ => exact ⟨first, second, third, rfl⟩

theorem exists_four {α : Type} {items : List α} (counted : items.length = 4) :
    ∃ first second third fourth, items = [first, second, third, fourth] := by
  match items, counted with
  | [first, second, third, fourth], _ => exact ⟨first, second, third, fourth, rfl⟩

theorem gives_pair (sexp : Sexp) : Gives (pair sexp) (readPair sexp) := by
  unfold pair readPair
  match sexp.items? with
  | none | some [] | some [_] | some (_ :: _ :: _ :: _) => exact gives_throw _
  | some [pattern, term] => exact (gives_pattern pattern).bind fun _ _ => gives_pure _

theorem gives_redexMatch (arguments : List Sexp) (span : Span) :
    Gives (redexMatch arguments span) (readMatch arguments span) := by
  refine .counted fun counted => ?_
  obtain ⟨language, pattern, term, rfl⟩ := exists_three counted
  refine (gives_read _).bind fun _ _ => .cut rfl ?_
  exact (gives_pattern pattern).bind fun _ _ => .cut rfl (gives_pure _)

theorem gives_assertMatch (arguments : List Sexp) (span : Span) :
    Gives (assertMatch arguments span) (readAssertMatch arguments span) := by
  refine .counted fun counted => ?_
  obtain ⟨language, pattern, term, expected, rfl⟩ := exists_four counted
  refine (gives_read _).bind fun _ _ => (gives_read _).bind fun _ _ => ?_
  refine (gives_read _).bind fun _ _ => .cut rfl ?_
  exact (gives_pattern pattern).bind fun _ _ => .cut rfl (gives_pure _)

theorem gives_assertTerm (arguments : List Sexp) (span : Span) :
    Gives (assertTerm arguments span) (readAssertTerm arguments span) := by
  refine .counted fun counted => ?_
  obtain ⟨language, bindings, template, expected, rfl⟩ := exists_four counted
  refine (gives_read _).bind fun _ _ => (Gives.mapM fun item _ => gives_pair item).bind fun _ _ => ?_
  refine (gives_read _).bind fun _ _ => .cut rfl ?_
  exact (gives_template template).bind fun _ _ => .cut rfl (gives_pure _)

theorem gives_assertReduction (arguments : List Sexp) (span : Span) :
    Gives (assertReduction arguments span) (readAssertReduction arguments span) := by
  refine .counted fun counted => ?_
  obtain ⟨relation, term, expected, rfl⟩ := exists_three counted
  refine (gives_read _).bind fun _ _ => (gives_read _).bind fun _ _ => ?_
  exact .cut rfl (gives_pure _)

theorem gives_body (head : Symbol) (first : Sexp) (arguments : List Sexp) (span : Span) :
    Gives (body head (first :: arguments) arguments span)
      (readBody head first.span arguments span) := by
  fun_cases body head (first :: arguments) arguments span
  · exact (gives_language arguments span).map _
  · exact (gives_relation arguments span).map _
  · exact (gives_metafunction arguments span).map _
  · exact gives_redexMatch arguments span
  · exact gives_assertMatch arguments span
  · exact gives_assertTerm arguments span
  · exact gives_assertReduction arguments span
  · exact gives_read _
  · rw [readBody] <;> first | assumption | exact .cut rfl (gives_throw _)

/-- Every form is read in range, and is the form that its expression writes. -/
theorem gives_form (sexp : Sexp) : Gives (form sexp) (ofSexp sexp) := by
  match sexp with
  | .atom _ _ => exact gives_throw _
  | .list [] _ => exact gives_throw _
  | .list (first :: arguments) around =>
    unfold Slicing.form ofSexp
    cases named : first.symbol? with
    | none =>
      simp only [Sexp.items?, Sexp.head?, named]
      exact gives_throw _
    | some head =>
      simp only [Sexp.items?, Sexp.head?, named]
      refine .cut (suffix?_cons first arguments) ?_
      exact (gives_body head first arguments around).bind fun _ _ => gives_pure _

end Guards

end Reduct.Slicing
