import Reduct.Proofs.FaultPlaces

/-!
# Forms in their source

The forms of a source stand in it, with their rules and cases, and the faults of forms that cannot
be read point into it.
-/

namespace Reduct.Form

open Sexp

variable {total : Nat} {span : Span} {arguments : List Sexp}

/-- The spans of the rules or cases of a form. -/
def places (form : Form) : List Span :=
  match form.body with
  | .language definition => definition.rules.map (·.span)
  | .relation definition => definition.cases.map (·.span)
  | .metafunction definition => definition.cases.map (·.span)
  | _ => []

/-- A form stands in a source, with its rules or cases. -/
structure Within (total : Nat) (form : Form) : Prop where
  span : form.span.Within total
  places : ∀ place ∈ form.places, place.Within total

theorem points_malformed (fault : FormFault) (within : span.Within total) :
    (malformed fault span).Points total :=
  Fault.points_located (by simp [Cause.code]) within _

/-- A part that is missing is reported at what is around it. -/
theorem within_spanOr {part : Option Sexp} (parts : ∀ sexp ∈ part, sexp.Within total)
    (around : span.Within total) : (spanOr part span).Within total := by
  cases part with
  | none => exact around
  | some sexp => exact (parts sexp rfl).span

theorem within_some {sexp : Sexp} (within : sexp.Within total) :
    ∀ other ∈ some sexp, other.Within total := by
  rintro _ ⟨⟩
  exact within

theorem within_head? (each : ∀ sexp ∈ arguments, sexp.Within total) :
    ∀ sexp ∈ arguments.head?, sexp.Within total :=
  fun sexp first => each sexp (List.mem_of_mem_head? first)

theorem within_getElem? (each : ∀ sexp ∈ arguments, sexp.Within total) (index : Nat) :
    ∀ sexp ∈ arguments[index]?, sexp.Within total :=
  fun sexp found => each sexp (List.mem_of_getElem? found)

theorem within_tail (each : ∀ sexp ∈ arguments, sexp.Within total) :
    ∀ sexp ∈ arguments.tail, sexp.Within total :=
  fun sexp later => each sexp (List.mem_of_mem_tail later)

theorem meets_symbolPart {part : Option Sexp} (parts : ∀ sexp ∈ part, sexp.Within total)
    (around : span.Within total) (what : String) :
    Meets (Fault.Points total) (fun _ => True) (symbolPart part span what) := by
  unfold symbolPart
  split
  · trivial
  · exact points_malformed _ (within_spanOr parts around)

theorem meets_listPart {part : Option Sexp} (parts : ∀ sexp ∈ part, sexp.Within total)
    (around : span.Within total) (what : String) :
    Meets (Fault.Points total) (fun items => ∀ item ∈ items, item.Within total)
      (listPart part span what) := by
  unfold listPart
  split
  · rename_i items found
    obtain ⟨sexp, same, inner⟩ := Option.bind_eq_some_iff.mp found
    cases sexp with
    | atom value span => cases inner
    | list items span =>
      cases inner
      exact (parts _ same).items
  · exact points_malformed _ (within_spanOr parts around)

theorem meets_checkCount (form : String) (wanted : Nat) (arguments : List Sexp)
    (around : span.Within total) :
    Meets (Fault.Points total) (fun _ => True) (checkCount form wanted arguments span) := by
  unfold checkCount
  split
  · trivial
  · exact points_malformed _ around

theorem meets_readRule {clause : Sexp} (within : clause.Within total) (around : span.Within total) :
    Meets (Fault.Points total) (fun rule => rule.span.Within total) (readRule span clause) := by
  refine (meets_listPart (within_some within) around _).bind fun items each => ?_
  refine (meets_symbolPart (within_head? each) within.span _).bind fun name _ => ?_
  have rest : ∀ alternatives : List Sexp, (∀ item ∈ alternatives, item ∈ items.tail) →
      Meets (Fault.Points total) (fun rule => rule.span.Within total)
        (if alternatives.isEmpty then .error (malformed (.noAlternatives name) clause.span)
        else (alternatives.mapM Sexp.toPattern).bind fun patterns =>
          .ok (⟨name, patterns, clause.span⟩ : RuleDefinition)) := by
    intro alternatives inside
    split
    · exact points_malformed _ within.span
    · exact (Meets.mapM fun item among => meets_toPattern item (within_tail each item
        (inside item among))).bind fun _ _ => within.span
  cases same : items.tail with
  | nil =>
    rw [same] at rest
    exact rest [] fun item among => among
  | cons first others =>
    rw [same] at rest
    by_cases arrow : first.isSymbol "::=" = true
    · simp only [if_pos arrow]
      exact rest others fun item among => List.mem_cons_of_mem _ among
    · simp only [if_neg arrow]
      exact rest (first :: others) fun item among => among

theorem meets_readLanguage (each : ∀ sexp ∈ arguments, sexp.Within total)
    (around : span.Within total) :
    Meets (Fault.Points total) (fun definition => ∀ rule ∈ definition.rules, rule.span.Within total)
      (readLanguage arguments span) := by
  refine (meets_symbolPart (within_head? each) around _).bind fun name _ => ?_
  refine (Meets.mapM fun clause among => ?_).bind fun rules spans => spans
  exact meets_readRule (within_tail each clause among) around

theorem meets_readCaseName {sexp : Sexp} (within : sexp.Within total) :
    Meets (Fault.Points total) (fun _ => True) (readCaseName sexp) := by
  unfold readCaseName
  split
  · trivial
  · trivial
  · exact points_malformed _ within.span

theorem meets_readCase {case : Sexp} (within : case.Within total) (around : span.Within total) :
    Meets (Fault.Points total) (fun read => read.span.Within total) (readCase span case) := by
  refine (meets_listPart (within_some within) around _).bind fun items each => ?_
  split
  · rename_i arrow pattern template rest
    split
    · have names : ∀ name ∈ rest.head?, name.Within total := fun name named =>
        each name (by simp [List.mem_of_mem_head? named])
      refine (Meets.optionMapM fun name named => meets_readCaseName (names name named)).bind
        fun _ _ => ?_
      refine (meets_toPattern pattern (each _ (by simp))).bind fun _ _ => ?_
      exact (meets_toTemplate template (each _ (by simp))).bind fun _ _ => within.span
    · exact points_malformed _ within.span
  · exact points_malformed _ within.span

theorem meets_readDomain (each : ∀ sexp ∈ arguments, sexp.Within total)
    (around : span.Within total) :
    Meets (Fault.Points total) (fun result => ∀ sexp ∈ result.2, sexp.Within total)
      (readDomain arguments span) := by
  unfold readDomain
  split
  · rename_i first rest
    split
    · split
      · rename_i pattern cases'
        refine (meets_toPattern pattern (each _ (by simp))).bind fun _ _ => ?_
        exact fun sexp among => each sexp (by simp [among])
      · exact points_malformed _ around
    · exact each
  · exact List.forall_mem_nil _

theorem meets_readRelation (each : ∀ sexp ∈ arguments, sexp.Within total)
    (around : span.Within total) :
    Meets (Fault.Points total) (fun definition => ∀ case ∈ definition.cases, case.span.Within total)
      (readRelation arguments span) := by
  refine (meets_symbolPart (within_getElem? each 0) around _).bind fun name _ => ?_
  refine (meets_symbolPart (within_getElem? each 1) around _).bind fun language _ => ?_
  have rest : ∀ sexp ∈ arguments.drop 2, sexp.Within total :=
    fun sexp among => each sexp (List.mem_of_mem_drop among)
  refine (meets_readDomain rest around).bind fun ⟨domain, others⟩ inside => ?_
  refine (Meets.mapM fun case among => ?_).bind fun cases' spans => spans
  exact meets_readCase (inside case among) around

theorem meets_toPatterns {items : List Sexp} (each : ∀ item ∈ items, item.Within total) :
    Meets (Fault.Points total) (fun _ => True) (toPatterns items) :=
  meets_toPatternsAfter .leading items each

theorem meets_readContract (each : ∀ sexp ∈ arguments, sexp.Within total)
    (around : span.Within total) :
    Meets (Fault.Points total) (fun result => ∀ sexp ∈ result.2, sexp.Within total)
      (readContract arguments span) := by
  unfold readContract
  split
  · rename_i colon rest
    split
    · have later : ∀ sexp ∈ rest.dropWhile (fun part => !part.isSymbol "->"),
          sexp.Within total := fun sexp among =>
        each sexp (List.mem_cons_of_mem _ ((List.dropWhile_sublist _).mem among))
      dsimp only
      split
      · rename_i codomain cases' found
        rw [found] at later
        refine (meets_toPatterns fun sexp among => ?_).bind fun _ _ => ?_
        · exact each sexp (List.mem_cons_of_mem _ ((List.takeWhile_sublist _).mem among))
        · refine (meets_toPattern codomain (later _ (by simp))).bind fun _ _ => ?_
          exact fun sexp among => later sexp (by simp [among])
      · exact points_malformed _ around
      · exact points_malformed _ around
    · exact each
  · exact List.forall_mem_nil _

theorem meets_readHeader (each : ∀ sexp ∈ arguments, sexp.Within total)
    (around : span.Within total) :
    Meets (Fault.Points total) (fun result => ∀ sexp ∈ result.2.2, sexp.Within total)
      (readHeader arguments span) := by
  unfold readHeader
  split
  · exact (meets_readContract (within_tail each) around).bind fun _ inside => inside
  · exact each

theorem meets_readClause {known : Option Symbol} {case : Sexp} (within : case.Within total)
    (around : span.Within total) :
    Meets (Fault.Points total) (fun result => result.2.span.Within total)
      (readClause span known case) := by
  refine (meets_listPart (within_some within) around _).bind fun items each => ?_
  split
  · rename_i left right
    have head := each left (by simp)
    refine (meets_listPart (within_some head) within.span _).bind fun parts inside => ?_
    refine (meets_symbolPart (within_head? inside) head.span _).bind fun name _ => ?_
    have last : Meets (Fault.Points total) (fun result => result.2.span.Within total)
        ((toPatterns parts.tail).bind fun patterns => right.toTemplate.bind fun template =>
          .ok (name, (⟨patterns, template, case.span⟩ : MetafunctionCase))) := by
      refine (meets_toPatterns (within_tail inside)).bind fun _ _ => ?_
      exact (meets_toTemplate right (each _ (by simp))).bind fun _ _ => within.span
    cases known with
    | none => exact last
    | some wanted =>
      by_cases other : wanted ≠ name
      · simp only [if_pos other]
        exact points_malformed _ head.span
      · simp only [if_neg other]
        exact last
  · exact points_malformed _ within.span

theorem meets_readClauses (around : span.Within total) {cases' : List Sexp} :
    ∀ {known : Option Symbol}, (∀ case ∈ cases', case.Within total) →
      Meets (Fault.Points total) (fun result => ∀ case ∈ result.2, case.span.Within total)
        (readClauses span known cases') := by
  induction cases' with
  | nil => exact fun _ => List.forall_mem_nil _
  | cons case rest ih =>
    intro known each
    obtain ⟨here, later⟩ := List.forall_mem_cons.mp each
    rw [readClauses]
    refine (meets_readClause here around).bind fun ⟨name, first⟩ one => ?_
    refine (ih later).bind fun ⟨last, others⟩ two => ?_
    exact List.forall_mem_cons.mpr ⟨one, two⟩

theorem meets_readMetafunction (each : ∀ sexp ∈ arguments, sexp.Within total)
    (around : span.Within total) :
    Meets (Fault.Points total) (fun definition => ∀ case ∈ definition.cases, case.span.Within total)
      (readMetafunction arguments span) := by
  refine (meets_symbolPart (within_head? each) around _).bind fun language _ => ?_
  refine (meets_readHeader (within_tail each) around).bind fun ⟨declared, contract, rest⟩ inside => ?_
  refine (meets_readClauses around inside).bind fun ⟨name, clauses⟩ spans => ?_
  cases name with
  | none => exact points_malformed _ around
  | some name => exact spans

/-- A form without rules and cases stands where it is written. -/
theorem meets_simple {body : Except Fault FormBody} (around : span.Within total)
    (meets : Meets (Fault.Points total) (fun found => Form.places ⟨found, span⟩ = []) body) :
    Meets (Fault.Points total) (fun found => Within total ⟨found, span⟩) body := by
  refine meets.weaken fun found bare => ⟨around, fun place listed => ?_⟩
  rw [bare] at listed
  cases listed

theorem meets_readMatch (each : ∀ sexp ∈ arguments, sexp.Within total)
    (around : span.Within total) :
    Meets (Fault.Points total) (fun found => Form.places ⟨found, span⟩ = [])
      (readMatch arguments span) := by
  refine (meets_checkCount _ _ _ around).bind fun _ _ => ?_
  split
  · rename_i language pattern term
    refine (meets_symbolPart (within_some (each language (by simp))) around _).bind fun _ _ => ?_
    exact (meets_toPattern pattern (each _ (by simp))).bind fun _ _ => rfl
  · exact points_malformed _ around

theorem meets_readBinding {binding : Sexp} (within : binding.Within total) :
    Meets (Fault.Points total) (fun _ => True) (readBinding binding) := by
  unfold readBinding
  split
  · rename_i symbol term found
    have each : symbol.Within total := by
      cases within with
      | atom => cases found
      | list _ each =>
        cases found
        exact each symbol (by simp)
    exact (meets_symbolPart (within_some each) within.span _).bind fun _ _ => trivial
  · exact points_malformed _ within.span

theorem meets_readExpected {sexp : Sexp} (within : sexp.Within total) :
    Meets (Fault.Points total) (fun _ => True) (readExpected sexp) := by
  refine (meets_listPart (within_some within) within.span _).bind fun bindings each => ?_
  exact (Meets.mapM fun binding among => meets_readBinding (each binding among)).weaken
    fun _ _ => trivial

theorem meets_readAssertMatch (each : ∀ sexp ∈ arguments, sexp.Within total)
    (around : span.Within total) :
    Meets (Fault.Points total) (fun found => Form.places ⟨found, span⟩ = [])
      (readAssertMatch arguments span) := by
  refine (meets_checkCount _ _ _ around).bind fun _ _ => ?_
  split
  · rename_i language pattern term expected
    refine (meets_listPart (within_some (each expected (by simp))) around _).bind fun lists inside => ?_
    refine (Meets.mapM fun sexp among => meets_readExpected (inside sexp among)).bind fun _ _ => ?_
    refine (meets_symbolPart (within_some (each language (by simp))) around _).bind fun _ _ => ?_
    exact (meets_toPattern pattern (each _ (by simp))).bind fun _ _ => rfl
  · exact points_malformed _ around

theorem meets_readPair {pair : Sexp} (within : pair.Within total) :
    Meets (Fault.Points total) (fun _ => True) (readPair pair) := by
  unfold readPair
  split
  · rename_i pattern term found
    have each : pattern.Within total := by
      cases within with
      | atom => cases found
      | list _ each =>
        cases found
        exact each pattern (by simp)
    exact (meets_toPattern pattern each).bind fun _ _ => trivial
  · exact points_malformed _ within.span

theorem meets_readAssertTerm (each : ∀ sexp ∈ arguments, sexp.Within total)
    (around : span.Within total) :
    Meets (Fault.Points total) (fun found => Form.places ⟨found, span⟩ = [])
      (readAssertTerm arguments span) := by
  refine (meets_checkCount _ _ _ around).bind fun _ _ => ?_
  split
  · rename_i language bindings template expected
    refine (meets_listPart (within_some (each bindings (by simp))) around _).bind fun pairs inside => ?_
    refine (Meets.mapM fun pair among => meets_readPair (inside pair among)).bind fun _ _ => ?_
    refine (meets_symbolPart (within_some (each language (by simp))) around _).bind fun _ _ => ?_
    exact (meets_toTemplate template (each _ (by simp))).bind fun _ _ => rfl
  · exact points_malformed _ around

theorem meets_readAssertReduction (each : ∀ sexp ∈ arguments, sexp.Within total)
    (around : span.Within total) :
    Meets (Fault.Points total) (fun found => Form.places ⟨found, span⟩ = [])
      (readAssertReduction arguments span) := by
  refine (meets_checkCount _ _ _ around).bind fun _ _ => ?_
  split
  · rename_i relation term expected
    refine (meets_listPart (within_some (each expected (by simp))) around _).bind fun _ _ => ?_
    exact (meets_symbolPart (within_some (each relation (by simp))) around _).bind fun _ _ => rfl
  · exact points_malformed _ around

theorem meets_readForeignSource (arguments : List Sexp) (around : span.Within total) :
    Meets (Fault.Points total) (fun found => Form.places ⟨found, span⟩ = [])
      (readForeignSource arguments span) := by
  unfold readForeignSource
  split
  · rfl
  · exact points_malformed _ around

/-- A body that is read makes a form of the source. -/
theorem meets_readBody (head : Symbol) {headSpan : Span} (named : headSpan.Within total)
    (each : ∀ sexp ∈ arguments, sexp.Within total) (around : span.Within total) :
    Meets (Fault.Points total) (fun body => Within total ⟨body, span⟩)
      (readBody head headSpan arguments span) := by
  unfold readBody
  split
  · exact (meets_readLanguage each around).map fun definition rules =>
      ⟨around, List.forall_mem_map.mpr rules⟩
  · exact (meets_readRelation each around).map fun definition cases' =>
      ⟨around, List.forall_mem_map.mpr cases'⟩
  · exact (meets_readMetafunction each around).map fun definition cases' =>
      ⟨around, List.forall_mem_map.mpr cases'⟩
  · exact meets_simple around (meets_readMatch each around)
  · exact meets_simple around (meets_readAssertMatch each around)
  · exact meets_simple around (meets_readAssertTerm each around)
  · exact meets_simple around (meets_readAssertReduction each around)
  · exact meets_simple around (meets_readForeignSource arguments around)
  · exact Fault.points_located (by simp [Cause.code]) named _

theorem meets_ofSexp {sexp : Sexp} (within : sexp.Within total) :
    Meets (Fault.Points total) (Within total) (ofSexp sexp) := by
  unfold ofSexp
  split
  · rename_i first arguments span
    obtain ⟨here, later⟩ := List.forall_mem_cons.mp within.items
    split
    · exact (meets_readBody _ here.span later within.span).bind fun _ form => form
    · exact points_malformed _ within.span
  · exact points_malformed _ within.span
  · exact points_malformed _ within.span

/-- The forms of a source stand in it, or a fault points into it. -/
theorem meets_readAll (source : String) : Meets (Fault.Points source.utf8ByteSize)
    (fun forms => ∀ form ∈ forms, form.Within source.utf8ByteSize) (Form.readAll source) :=
  (Sexp.meets_readAll source).bind fun _ each =>
    .mapM fun sexp among => meets_ofSexp (each sexp among)

end Reduct.Form
