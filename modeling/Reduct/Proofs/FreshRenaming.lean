import Reduct.Proofs.TopMatches

/-!
# Fresh names play no part

Two patterns that differ in their names only, one to one, have the same results in the same order,
up to the names. The fresh names that repeated symbols get depend on what was prepared before; when
they are dropped from the results, nothing of this is left.
-/

namespace Reduct

theorem ok_of_toOption {ε α : Type} {result : Except ε α} {value : α}
    (found : result.toOption = some value) : result = .ok value := by
  cases result with
  | error cause => cases found
  | ok other =>
    cases found
    rfl

/-- Names that correspond one to one. -/
structure OneToOne (names : Symbol → Symbol → Prop) : Prop where
  right : ∀ {first second other : Symbol}, names first second → names first other → second = other
  left : ∀ {first second other : Symbol}, names first other → names second other → first = second

namespace Bindings

/-- Bindings that hold the same levels under corresponding names. -/
structure Alike (names : Symbol → Symbol → Prop) (one two : Bindings) : Prop where
  sorted : one.bound.Sorted ∧ two.bound.Sorted
  same : ∀ first second, names first second → one.levels first = two.levels second

variable {names : Symbol → Symbol → Prop} {one two : Bindings}

theorem alike_empty (names : Symbol → Symbol → Prop) : Alike names .empty .empty :=
  ⟨⟨Table.sorted_empty, Table.sorted_empty⟩, fun _ _ _ => rfl⟩

section Operations

variable (unique : OneToOne names)
include unique

theorem Alike.withLevels (alike : Alike names one two) {first second : Symbol}
    (named : names first second) (stack : List Level) :
    Alike names (one.withLevels first stack) (two.withLevels second stack) where
  sorted := ⟨alike.sorted.1.insert _ _, alike.sorted.2.insert _ _⟩
  same left right related := by
    rw [levels_withLevels, levels_withLevels]
    by_cases here : first = left
    · subst here
      rw [if_pos rfl, if_pos (unique.right named related)]
    · have apart : second ≠ right := by
        rintro rfl
        exact here (unique.left named related)
      rw [if_neg here, if_neg apart]
      exact alike.same left right related

theorem Alike.add (alike : Alike names one two) {first second : Symbol}
    (named : names first second) {term : Term} {left right : Bindings}
    (here : one.add first term = .ok left) (there : two.add second term = .ok right) :
    Alike names left right := by
  unfold Bindings.add at here there
  rw [alike.same first second named] at here
  split at here
  · rename_i empty
    simp only [empty] at there
    cases here
    cases there
    exact alike.withLevels unique named _
  · rename_i terms outer collected
    simp only [collected] at there
    cases here
    cases there
    exact alike.withLevels unique named _
  · cases here

theorem Alike.increaseDepth (alike : Alike names one two) {first second : Symbol}
    (named : names first second) {left right : Bindings}
    (here : one.increaseDepth first = .ok left) (there : two.increaseDepth second = .ok right) :
    Alike names left right := by
  unfold Bindings.increaseDepth at here there
  rw [alike.same first second named] at here
  split at here
  · cases here
  · split at there
    · cases there
    · cases here
      cases there
      exact alike.withLevels unique named _

omit unique in
theorem levels_of_find? {bindings : Bindings} {symbol : Symbol} {stack : List Level}
    (found : bindings.bound.find? symbol = some stack) : bindings.levels symbol = stack := by
  rw [levels, found]
  rfl

theorem Alike.decreaseDepth (alike : Alike names one two) {first second : Symbol}
    (named : names first second) {left right : Bindings}
    (here : one.decreaseDepth first = .ok left) (there : two.decreaseDepth second = .ok right) :
    Alike names left right := by
  have same := alike.same first second named
  unfold Bindings.decreaseDepth at here there
  cases found : one.bound.find? first with
  | none =>
    rw [found] at here
    cases here
  | some stack =>
    cases known : two.bound.find? second with
    | none =>
      rw [known] at there
      cases there
    | some other =>
      rw [levels_of_find? found, levels_of_find? known] at same
      subst same
      rw [found] at here
      rw [known] at there
      split at here
      · cases here
      · rename_i closed terms outer stacked
        cases stacked
        cases here
        cases there
        exact alike.withLevels unique named _
      · cases here
      · rename_i some_ plain other stacked
        cases stacked
        split at there
        · cases there
        · rename_i closed terms outer again
          cases again
          exact absurd rfl (plain _ _ _)
        · cases there
        · cases here
          cases there
          exact alike

end Operations

theorem Alike.agree (alike : Alike names one two) {left right first second : Symbol}
    (begins : names left first) (ends : names right second) :
    one.agree left right = two.agree first second := by
  unfold Bindings.agree innermost
  rw [alike.same left first begins, alike.same right second ends]

/-- A stack that takes a term, as adding it leaves it. -/
def taken (stack : List Level) (term : Term) : List Level :=
  match stack with
  | [] => [.scalar term]
  | .collected terms :: outer => .collected (terms ++ [term]) :: outer
  | other => other

theorem levels_add {bindings after : Bindings} {symbol : Symbol} {term : Term}
    (added : bindings.add symbol term = .ok after) (other : Symbol) :
    after.levels other =
      if symbol = other then taken (bindings.levels symbol) term else bindings.levels other := by
  unfold add at added
  split at added
  · rename_i empty
    cases added
    rw [levels_withLevels, empty]
    rfl
  · rename_i terms outer collected
    cases added
    rw [levels_withLevels, collected]
    rfl
  · cases added

theorem sorted_add {bindings after : Bindings} {symbol : Symbol} {term : Term}
    (sorted : bindings.bound.Sorted) (added : bindings.add symbol term = .ok after) :
    after.bound.Sorted := by
  unfold add at added
  split at added
  · cases added
    exact sorted.insert _ _
  · cases added
    exact sorted.insert _ _
  · cases added

/-- Merging adds the finished value of every symbol. -/
theorem levels_foldlM_mergeEntry {entries : List (Symbol × List Level)} :
    ∀ {bindings merged : Bindings},
      entries.Pairwise (fun earlier later => earlier.1 < later.1) → bindings.bound.Sorted →
      entries.foldlM mergeEntry bindings = .ok merged → merged.bound.Sorted ∧ ∀ symbol,
        merged.levels symbol = match (Table.findIn symbol entries).getD [] with
          | [] => bindings.levels symbol
          | level :: _ => taken (bindings.levels symbol) level.toTerm := by
  induction entries with
  | nil =>
    intro bindings merged _ sorted done
    cases done
    exact ⟨sorted, fun _ => rfl⟩
  | cons entry rest ih =>
    intro bindings merged increasing sorted done
    obtain ⟨least, behind⟩ := List.pairwise_cons.mp increasing
    obtain ⟨middle, entered, others⟩ := Except.bind_eq_ok.mp done
    obtain ⟨name, stack⟩ := entry
    unfold mergeEntry at entered
    split at entered
    · rename_i level single
      have single : stack = [level] := single
      subst single
      obtain ⟨last, each⟩ := ih behind (sorted_add sorted entered) others
      refine ⟨last, fun symbol => ?_⟩
      rw [each symbol, levels_add entered, Table.findIn]
      by_cases here : name = symbol
      · subst here
        rw [Table.findIn_eq_none_of_before least, if_pos rfl, if_pos rfl]
        rfl
      · rw [if_neg here, if_neg here]
    · cases entered

theorem levels_merge {bindings other merged : Bindings} (sorted : bindings.bound.Sorted)
    (increasing : other.bound.Sorted) (done : bindings.merge other = .ok merged) :
    merged.bound.Sorted ∧ ∀ symbol, merged.levels symbol = match other.levels symbol with
      | [] => bindings.levels symbol
      | level :: _ => taken (bindings.levels symbol) level.toTerm :=
  levels_foldlM_mergeEntry increasing sorted done

theorem Alike.merge (alike : Alike names one two) {first second left right : Bindings}
    (others : Alike names first second) (here : one.merge first = .ok left)
    (there : two.merge second = .ok right) : Alike names left right := by
  obtain ⟨start, before⟩ := levels_merge alike.sorted.1 others.sorted.1 here
  obtain ⟨last, after⟩ := levels_merge alike.sorted.2 others.sorted.2 there
  refine ⟨⟨start, last⟩, fun one two named => ?_⟩
  rw [before, after, others.same one two named, alike.same one two named]

/-- States that hold the same levels under corresponding names, at the same position. -/
def AlikeAt (names : Symbol → Symbol → Prop) (one two : Reached) : Prop :=
  Alike names one.1 two.1 ∧ one.2 = two.2

end Bindings

open Bindings

/-- Searches from corresponding entries that correspond one by one do so all together. -/
theorem forall₂_gather {α β γ δ : Type} {related : α → β → Prop} {alike : γ → δ → Prop}
    {search : α → Option (List γ)} {other : β → Option (List δ)}
    (each : ∀ first second, related first second → ∀ found results, search first = some found →
      other second = some results → List.Forall₂ alike found results)
    {entries : List α} {others : List β} (all : List.Forall₂ related entries others) :
    ∀ {found : List γ} {results : List δ}, gather search entries = some found →
      gather other others = some results → List.Forall₂ alike found results := by
  induction all with
  | nil =>
    intro found results here there
    cases here
    cases there
    exact .nil
  | cons first _ ih =>
    intro found results here there
    obtain ⟨begins, rest, one, two, rfl⟩ := gather_cons_eq_some.mp here
    obtain ⟨starts, later, left, right, rfl⟩ := gather_cons_eq_some.mp there
    exact List.rel_append (each _ _ first _ _ one left) (ih two right)

namespace Pattern

mutual

/-- Patterns that differ in their names only. -/
inductive Renamed (names : Symbol → Symbol → Prop) : Pattern → Pattern → Prop
  | literal {value : Atom} : Renamed names (.literal value) (.literal value)
  | nonTerminal {stem first second : Symbol} (named : names first second) :
      Renamed names (.nonTerminal stem first) (.nonTerminal stem second)
  | builtIn {kind : BuiltIn} {first second : Symbol}
      (named : kind.isBindable = true → names first second) :
      Renamed names (.builtIn kind first) (.builtIn kind second)
  | sequence {items others : List Pattern} (all : RenamedAll names items others) :
      Renamed names (.sequence items) (.sequence others)
  | repeated {inner other : Pattern} {mode : RepeatMode} (same : Renamed names inner other) :
      Renamed names (.repeated inner mode) (.repeated other mode)
  | inHole {context contents around within : Pattern} {checks tests : List Check}
      (outer : Renamed names context around) (inner : Renamed names contents within)
      (compared : List.Forall₂ (fun one two => names one.left two.left ∧ names one.right two.right)
        checks tests) :
      Renamed names (.inHole context contents checks) (.inHole around within tests)
  | check {one two : Check} (left : names one.left two.left) (right : names one.right two.right) :
      Renamed names (.check one) (.check two)
  | unresolved {symbol : Symbol} : Renamed names (.unresolved symbol) (.unresolved symbol)

/-- Lists of patterns that differ in their names only. -/
inductive RenamedAll (names : Symbol → Symbol → Prop) : List Pattern → List Pattern → Prop
  | nil : RenamedAll names [] []
  | cons {item other : Pattern} {items others : List Pattern} (first : Renamed names item other)
      (rest : RenamedAll names items others) : RenamedAll names (item :: items) (other :: others)

end

variable {names : Symbol → Symbol → Prop}

theorem Renamed.isFixedWidth {item other : Pattern} (renamed : Renamed names item other) :
    item.isFixedWidth = other.isFixedWidth := by
  cases renamed <;> rfl

theorem RenamedAll.fixedCount {items others : List Pattern} (renamed : RenamedAll names items others) :
    Matcher.fixedCount items = Matcher.fixedCount others := by
  induction items generalizing others with
  | nil =>
    cases renamed
    rfl
  | cons item rest ih =>
    cases renamed with
    | cons first more => rw [fixedCount_cons, fixedCount_cons, ih more, first.isFixedWidth]

theorem RenamedAll.isOpen {items others : List Pattern} (renamed : RenamedAll names items others) :
    Matcher.isOpen items = Matcher.isOpen others := by
  induction items generalizing others with
  | nil =>
    cases renamed
    rfl
  | cons item rest ih =>
    cases renamed with
    | cons first more =>
      have later := ih more
      unfold Matcher.isOpen at later ⊢
      rw [List.any_cons, List.any_cons, later]
      cases first <;> rfl

theorem RenamedAll.longEnough {items others : List Pattern}
    (renamed : RenamedAll names items others) (length : Nat) :
    longEnough items length = longEnough others length := by
  unfold Reduct.longEnough
  rw [renamed.isOpen, renamed.fixedCount]

mutual

/-- Renamed patterns bind corresponding names. -/
theorem Renamed.occurrences : {pattern other : Pattern} → Renamed names pattern other →
    List.Forall₂ names pattern.occurrences other.occurrences
  | .literal _, _, .literal => .nil
  | .nonTerminal _ _, _, .nonTerminal named => .cons named .nil
  | .builtIn kind first, _, @Renamed.builtIn _ _ _ second named => by
    have listed : ∀ symbol, (Pattern.builtIn kind symbol).occurrences =
        if kind.isBindable then [symbol] else [] := by
      intro symbol
      rw [Pattern.occurrences, bindingSymbol?]
      · cases kind.isBindable <;> rfl
      all_goals nofun
    rw [listed, listed]
    split
    · rename_i bindable
      exact .cons (named bindable) .nil
    · exact .nil
  | .sequence _, _, .sequence all => RenamedAll.occurrences all
  | .repeated _ _, _, .repeated same => by
    rw [Pattern.occurrences, Pattern.occurrences]
    exact Renamed.occurrences same
  | .inHole _ _ _, _, .inHole outer inner _ =>
    List.rel_append (Renamed.occurrences outer) (Renamed.occurrences inner)
  | .check _, _, .check _ _ => .nil
  | .unresolved _, _, .unresolved => .nil

theorem RenamedAll.occurrences : {items others : List Pattern} → RenamedAll names items others →
    List.Forall₂ names (occurrencesAll items) (occurrencesAll others)
  | [], _, .nil => .nil
  | _ :: _, _, .cons first rest =>
    List.rel_append (Renamed.occurrences first) (RenamedAll.occurrences rest)

end

section Unique

variable (unique : OneToOne names)
include unique

/-- A name is listed where its counterpart is. -/
theorem mem_iff_of_forall₂ {symbols others : List Symbol} (all : List.Forall₂ names symbols others)
    {first second : Symbol} (named : names first second) : first ∈ symbols ↔ second ∈ others := by
  induction all with
  | nil => simp
  | @cons here there _ _ same _ ih =>
    have match_ : first = here ↔ second = there := by
      constructor
      · rintro rfl
        exact unique.right named same
      · rintro rfl
        exact unique.left named same
    rw [List.mem_cons, List.mem_cons, ih, match_]

theorem forall₂_foldl_addOnce {symbols others : List Symbol}
    (all : List.Forall₂ names symbols others) :
    ∀ {start begun : List Symbol}, List.Forall₂ names start begun →
      List.Forall₂ names (symbols.foldl addOnce start) (others.foldl addOnce begun) := by
  induction all with
  | nil => exact fun same => same
  | @cons first second _ _ named _ ih =>
    intro start begun same
    refine ih ?_
    unfold addOnce
    by_cases listed : first ∈ start
    · rw [if_pos listed, if_pos ((mem_iff_of_forall₂ unique same named).mp listed)]
      exact same
    · rw [if_neg listed, if_neg (mt (mem_iff_of_forall₂ unique same named).mpr listed)]
      exact List.rel_append same (.cons named .nil)

theorem Renamed.boundSymbols {pattern other : Pattern} (renamed : Renamed names pattern other) :
    List.Forall₂ names pattern.boundSymbols other.boundSymbols :=
  forall₂_foldl_addOnce unique renamed.occurrences .nil

end Unique

end Pattern

section Search

variable {names : Symbol → Symbol → Prop} (unique : OneToOne names) {ground : Ground}

/-- Operations on corresponding symbols, one after another. -/
theorem alike_foldlM {step : Bindings → Symbol → Option Bindings}
    (each : ∀ {one two left right first second}, Alike names one two → names first second →
      step one first = some left → step two second = some right → Alike names left right)
    {symbols others : List Symbol} (all : List.Forall₂ names symbols others) :
    ∀ {one two left right : Bindings}, Alike names one two →
      symbols.foldlM step one = some left → others.foldlM step two = some right →
      Alike names left right := by
  induction all with
  | nil =>
    intro one two left right alike here there
    cases here
    cases there
    exact alike
  | cons named _ ih =>
    intro one two left right alike here there
    obtain ⟨middle, one_, here⟩ := Option.bind_eq_some_iff.mp here
    obtain ⟨between, two_, there⟩ := Option.bind_eq_some_iff.mp there
    exact ih (each alike named one_ two_) here there

/-- Rounds whose results correspond. -/
def RoundsAlike (names : Symbol → Symbol → Prop)
    (round other : Term → Bindings → Option (List Bindings)) : Prop :=
  ∀ term one two, Alike names one two → ∀ found results, round term one = some found →
    other term two = some results → List.Forall₂ (Alike names) found results

theorem alike_exploreLevels {mode : RepeatMode}
    {round other : Term → Bindings → Option (List Bindings)}
    (rounds : RoundsAlike names round other) (terms : List Term) :
    ∀ {position : Nat} {level others : List Bindings} {found results : List Reached},
      List.Forall₂ (Alike names) level others →
      exploreLevels mode round position terms level = some found →
      exploreLevels mode other position terms others = some results →
      List.Forall₂ (AlikeAt names) found results := by
  have placed : ∀ {position : Nat} {level others : List Bindings},
      List.Forall₂ (Alike names) level others →
      List.Forall₂ (AlikeAt names) (level.map (·, position)) (others.map (·, position)) := by
    intro position level others all
    exact List.forall₂_map_left_iff.mpr (List.forall₂_map_right_iff.mpr
      (all.imp fun _ _ alike => ⟨alike, rfl⟩))
  induction terms with
  | nil =>
    intro position level others found results all here there
    cases here
    cases there
    exact placed all
  | cons term rest ih =>
    intro position level others found results all here there
    obtain ⟨next, one, here⟩ := Option.bind_eq_some_iff.mp here
    obtain ⟨after, two, there⟩ := Option.bind_eq_some_iff.mp there
    have reached := forall₂_gather (rounds term) all one two
    have empty : next.isEmpty = after.isEmpty := by
      cases reached <;> rfl
    rw [empty] at here
    by_cases stop : after.isEmpty = true
    · rw [if_pos stop] at here there
      cases here
      cases there
      exact placed all
    · rw [if_neg stop] at here there
      obtain ⟨later, three, rfl⟩ := Option.map_eq_some_iff.mp here
      obtain ⟨last, four, rfl⟩ := Option.map_eq_some_iff.mp there
      cases mode with
      | exhaustive => exact List.rel_append (placed all) (ih reached three four)
      | greedy => exact ih reached three four

/-- Repetitions of rounds that correspond lead to corresponding states. -/
theorem alike_repetition (unique : OneToOne names) {mode : RepeatMode}
    {round other : Term → Bindings → Option (List Bindings)}
    (rounds : RoundsAlike names round other) {symbols others : List Symbol}
    (all : List.Forall₂ names symbols others) (terms : List Term) :
    ∀ first second, AlikeAt names first second → ∀ found results,
      repetition symbols mode round terms first = some found →
      repetition others mode other terms second = some results →
      List.Forall₂ (AlikeAt names) found results := by
  rintro ⟨one, position⟩ ⟨two, _⟩ ⟨alike, rfl⟩ found results here there
  obtain ⟨start, opened, here⟩ := Option.bind_eq_some_iff.mp here
  obtain ⟨begun, opens, there⟩ := Option.bind_eq_some_iff.mp there
  obtain ⟨reached, explored, here⟩ := Option.bind_eq_some_iff.mp here
  obtain ⟨came, explores, there⟩ := Option.bind_eq_some_iff.mp there
  have inside : Alike names start begun := by
    refine alike_foldlM ?_ all alike opened opens
    intro one two left right first second alike named here there
    exact alike.increaseDepth unique named (ok_of_toOption here)
      (ok_of_toOption there)
  have states := alike_exploreLevels rounds _ (.cons inside .nil) explored explores
  refine forall₂_gather ?_ states here there
  rintro ⟨state, place⟩ ⟨other, _⟩ ⟨same, rfl⟩ found results closed closes
  obtain ⟨last, one_, rfl⟩ := Option.map_eq_some_iff.mp closed
  obtain ⟨final, two_, rfl⟩ := Option.map_eq_some_iff.mp closes
  refine .cons ⟨alike_foldlM ?_ all same one_ two_, rfl⟩ .nil
  intro one two left right first second alike named here there
  exact alike.decreaseDepth unique named (ok_of_toOption here)
    (ok_of_toOption there)

/-- Terms taken one by one, in rounds that correspond, lead to corresponding states. -/
theorem alike_advanceOne {round other : Term → Bindings → Option (List Bindings)}
    (rounds : RoundsAlike names round other) (needed : Nat) (terms : List Term) :
    ∀ first second, AlikeAt names first second → ∀ found results,
      advanceOne needed round terms first = some found →
      advanceOne needed other terms second = some results →
      List.Forall₂ (AlikeAt names) found results := by
  rintro ⟨one, position⟩ ⟨two, _⟩ ⟨alike, rfl⟩ found results here there
  unfold advanceOne at here there
  split at here
  · rename_i room
    rw [if_pos room] at there
    cases taken : terms[position]? with
    | none =>
      simp only [taken] at here there
      cases here
      cases there
      exact .nil
    | some term =>
      simp only [taken] at here there
      obtain ⟨left, one_, rfl⟩ := Option.map_eq_some_iff.mp here
      obtain ⟨right, two_, rfl⟩ := Option.map_eq_some_iff.mp there
      exact List.forall₂_map_left_iff.mpr (List.forall₂_map_right_iff.mpr
        ((rounds term one two alike left right one_ two_).imp fun _ _ same => ⟨same, rfl⟩))
  · rename_i full
    rw [if_neg full] at there
    cases here
    cases there
    exact .nil

/-- Comparisons of corresponding names have the same outcome. -/
def Compared (names : Symbol → Symbol → Prop) (checks tests : List Check) : Prop :=
  List.Forall₂ (fun one two => names one.left two.left ∧ names one.right two.right) checks tests

theorem passes_alike {checks tests : List Check} (compared : Compared names checks tests)
    {one two : Bindings} (alike : Alike names one two) :
    one.passes checks = two.passes tests := by
  unfold passes
  induction compared with
  | nil => rfl
  | cons named _ ih => rw [List.all_cons, List.all_cons, ih, alike.agree named.1 named.2]

theorem alike_combine {checks tests : List Check}
    (compared : Compared names checks tests) {one two : Bindings} (alike : Alike names one two)
    {outer inner around within : List Bindings} (contexts : List.Forall₂ (Alike names) outer around)
    (contents : List.Forall₂ (Alike names) inner within) {found results : List Bindings}
    (here : combine checks one outer inner = some found)
    (there : combine tests two around within = some results) :
    List.Forall₂ (Alike names) found results := by
  refine forall₂_gather ?_ contexts here there
  intro first second same found results here there
  refine forall₂_gather ?_ contents here there
  intro left right equal found results here there
  obtain ⟨merged, one_, rfl⟩ := Option.map_eq_some_iff.mp here
  obtain ⟨joined, two_, rfl⟩ := Option.map_eq_some_iff.mp there
  obtain ⟨middle, one_, last⟩ := Option.bind_eq_some_iff.mp one_
  obtain ⟨between, two_, final⟩ := Option.bind_eq_some_iff.mp two_
  have half := alike.merge same (ok_of_toOption one_)
    (ok_of_toOption two_)
  have whole := half.merge equal (ok_of_toOption last)
    (ok_of_toOption final)
  rw [passes_alike compared whole]
  split
  · exact .cons whole .nil
  · exact .nil

theorem alike_decompose {checks tests : List Check}
    (compared : Compared names checks tests)
    {around within outer inner : Term → Option (List Bindings)}
    (contexts : ∀ term found results, around term = some found → outer term = some results →
      List.Forall₂ (Alike names) found results)
    (contents : ∀ term found results, within term = some found → inner term = some results →
      List.Forall₂ (Alike names) found results) (term : Term) {one two : Bindings}
    (alike : Alike names one two) {found results : List Bindings}
    (here : decompose checks around within term one = some found)
    (there : decompose tests outer inner term two = some results) :
    List.Forall₂ (Alike names) found results := by
  have ways : List.Forall₂ Eq term.subterms term.subterms := List.forall₂_same.mpr fun _ _ => rfl
  refine forall₂_gather ?_ ways here there
  rintro part _ rfl found results here there
  obtain ⟨parts, one_, here⟩ := Option.bind_eq_some_iff.mp here
  obtain ⟨others, two_, there⟩ := Option.bind_eq_some_iff.mp there
  have same := contents _ _ _ one_ two_
  have empty : parts.isEmpty = others.isEmpty := by
    cases same <;> rfl
  rw [empty] at here
  split at here
  · rename_i stop
    rw [if_pos stop] at there
    cases here
    cases there
    exact .nil
  · rename_i go
    rw [if_neg go] at there
    obtain ⟨holed, cut, here⟩ := Option.bind_eq_some_iff.mp here
    obtain ⟨again, cuts, there⟩ := Option.bind_eq_some_iff.mp there
    rw [cut] at cuts
    cases cuts
    obtain ⟨left, three, here⟩ := Option.bind_eq_some_iff.mp here
    obtain ⟨right, four, there⟩ := Option.bind_eq_some_iff.mp there
    exact alike_combine compared alike (contexts _ _ _ three four) same here there

theorem admits_renamed (ground : Ground) {leaf other : Pattern}
    (renamed : Pattern.Renamed names leaf other) (leafy : leaf.isLeaf = true) (term : Term) :
    other.isLeaf = true ∧ ground.admits leaf term = ground.admits other term := by
  cases renamed with
  | literal => exact ⟨rfl, rfl⟩
  | nonTerminal named => exact ⟨rfl, rfl⟩
  | builtIn named => exact ⟨rfl, rfl⟩
  | sequence | repeated | inHole | check | unresolved => cases leafy

theorem alike_bindLeaf (unique : OneToOne names) {leaf other : Pattern}
    (renamed : Pattern.Renamed names leaf other) (leafy : leaf.isLeaf = true) {term : Term}
    {one two left right : Bindings} (alike : Alike names one two)
    (here : one.bindLeaf leaf term = some left) (there : two.bindLeaf other term = some right) :
    Alike names left right := by
  have bound : ∀ {first second : Symbol}, names first second →
      (one.add first term).toOption = some left → (two.add second term).toOption = some right →
      Alike names left right := fun named one_ two_ =>
    alike.add unique named (ok_of_toOption one_) (ok_of_toOption two_)
  cases renamed with
  | literal =>
    cases here
    cases there
    exact alike
  | nonTerminal named => exact bound named here there
  | @builtIn kind first second named =>
    unfold bindLeaf Pattern.bindingSymbol? at here there
    cases bindable : kind.isBindable with
    | true =>
      simp only [bindable, if_true] at here there
      exact bound (named bindable) here there
    | false =>
      simp only [bindable, Bool.false_eq_true, if_false] at here there
      cases here
      cases there
      exact alike
  | sequence | repeated | inHole | check | unresolved => cases leafy

theorem alike_visit_leaf (unique : OneToOne names) {ground : Ground} {leaf other : Pattern}
    (renamed : Pattern.Renamed names leaf other) (leafy : leaf.isLeaf = true) :
    RoundsAlike names (visit ground leaf) (visit ground other) := by
  intro term one two alike found results here there
  obtain ⟨again, same⟩ := admits_renamed ground renamed leafy term
  rw [visit_leaf ground leafy] at here
  rw [visit_leaf ground again, ← same] at there
  split at here
  · rename_i admitted
    rw [if_pos admitted] at there
    obtain ⟨left, one_, rfl⟩ := Option.map_eq_some_iff.mp here
    obtain ⟨right, two_, rfl⟩ := Option.map_eq_some_iff.mp there
    exact .cons (alike_bindLeaf unique renamed leafy alike one_ two_) .nil
  · rename_i refused
    rw [if_neg refused] at there
    cases here
    cases there
    exact .nil

theorem forall₂_finals {length : Nat} {frontier others : List Reached}
    (all : List.Forall₂ (AlikeAt names) frontier others) :
    List.Forall₂ (Alike names) (finals length frontier) (finals length others) := by
  unfold finals
  induction all with
  | nil => exact .nil
  | @cons first second _ _ same _ ih =>
    obtain ⟨alike, place⟩ := same
    rw [List.filter_cons, List.filter_cons, place]
    split
    · exact .cons alike ih
    · exact ih

mutual

/-- Patterns that differ in their names only have corresponding results, in the same order. -/
theorem alike_visit (unique : OneToOne names) (ground : Ground) : (pattern : Pattern) →
    {other : Pattern} → Pattern.Renamed names pattern other →
    RoundsAlike names (visit ground pattern) (visit ground other)
  | .literal _, _, renamed => alike_visit_leaf unique renamed rfl
  | .nonTerminal _ _, _, renamed => alike_visit_leaf unique renamed rfl
  | .builtIn _ _, _, renamed => alike_visit_leaf unique renamed rfl
  | .sequence items, _, .sequence all => by
    intro term one two alike found results here there
    by_cases sequenced : ∃ terms, term = .sequence terms
    · obtain ⟨terms, rfl⟩ := sequenced
      rw [visit_sequence] at here there
      rw [← all.longEnough] at there
      split at here
      · rename_i enough
        rw [if_pos enough] at there
        obtain ⟨reached, one_, rfl⟩ := Option.map_eq_some_iff.mp here
        obtain ⟨came, two_, rfl⟩ := Option.map_eq_some_iff.mp there
        have start : AlikeAt names (one, 0) (two, 0) := ⟨alike, rfl⟩
        exact forall₂_finals
          (alike_advance unique ground terms items all (.cons start .nil) one_ two_)
      · rename_i short
        rw [if_neg short] at there
        cases here
        cases there
        exact .nil
    · have other : ∀ terms, term ≠ .sequence terms := fun terms same => sequenced ⟨terms, same⟩
      rw [visit_sequence_other ground other] at here there
      cases here
      cases there
      exact .nil
  | .inHole context contents checks, _, .inHole outer inner compared => by
    intro term one two alike found results here there
    rw [visit_inHole] at here there
    refine alike_decompose compared ?_ ?_ term alike here there
    · intro part found results one_ two_
      exact alike_visit unique ground context outer part _ _ (alike_empty names) _ _ one_ two_
    · intro part found results one_ two_
      exact alike_visit unique ground contents inner part _ _ (alike_empty names) _ _ one_ two_
  | .repeated _ _, _, _ => by
    intro term one two _ found results here _
    rw [visit.eq_def] at here
    cases here
  | .check _, _, _ => by
    intro term one two _ found results here _
    rw [visit.eq_def] at here
    cases here
  | .unresolved _, _, _ => by
    intro term one two _ found results here _
    rw [visit.eq_def] at here
    cases here

theorem alike_advance (unique : OneToOne names) (ground : Ground) (terms : List Term) :
    (items : List Pattern) → {others : List Pattern} → Pattern.RenamedAll names items others →
    ∀ {frontier reached : List Reached}, List.Forall₂ (AlikeAt names) frontier reached →
    ∀ {found results : List Reached}, advance ground terms items frontier = some found →
      advance ground terms others reached = some results →
      List.Forall₂ (AlikeAt names) found results
  | [], _, .nil => by
    intro all found results here there
    rw [advance] at here there
    cases here
    cases there
    exact all
  | item :: rest, _, .cons first more => by
    intro all found results here there
    have later := @alike_advance unique ground terms rest _ more
    have renamed := more.fixedCount
    induction item using Pattern.itemCases with
    | check test =>
      cases first with
      | @check _ other left right =>
        rw [advance_check] at here there
        refine later ?_ here there
        clear here there
        induction all with
        | nil => exact .nil
        | @cons one two _ _ same _ ih =>
          rw [List.filter_cons, List.filter_cons, same.1.agree left right]
          split
          · exact .cons same ih
          · exact ih
    | repeated inner mode =>
      cases first with
      | @repeated _ other _ same =>
        rw [advance_repeated] at here there
        obtain ⟨next, one, here⟩ := Option.bind_eq_some_iff.mp here
        obtain ⟨after, two, there⟩ := Option.bind_eq_some_iff.mp there
        refine later (forall₂_gather ?_ all one two) here there
        exact alike_repetition unique (alike_visit unique ground inner same)
          (same.boundSymbols unique) terms
    | fixed item fixed =>
      have again := first.isFixedWidth.symm.trans fixed
      rw [advance_item ground fixed] at here
      rw [advance_item ground again, fixedCount_cons, ← renamed, again] at there
      rw [fixedCount_cons, fixed] at here
      obtain ⟨next, one, here⟩ := Option.bind_eq_some_iff.mp here
      obtain ⟨after, two, there⟩ := Option.bind_eq_some_iff.mp there
      refine later (forall₂_gather ?_ all one two) here there
      exact alike_advanceOne (alike_visit unique ground item first) _ terms

end

end Search

/-- Plain names stand for themselves, and fresh names for the ones that are given out as many
steps later. -/
def Counterparts (one two : FreshNames) (first second : Symbol) : Prop :=
  (first = second ∧ Symbol.isSynthetic first = false) ∨ ∃ base drawn,
    first = Symbol.numbered base (one.count base + drawn) ∧
      second = Symbol.numbered base (two.count base + drawn)

theorem oneToOne_counterparts (one two : FreshNames) : OneToOne (Counterparts one two) where
  right := by
    rintro first second other (⟨rfl, plain⟩ | ⟨base, drawn, rfl, rfl⟩)
      (⟨rfl, still⟩ | ⟨other, more, same, rfl⟩)
    · rfl
    · rw [same, Symbol.isSynthetic_numbered] at plain
      cases plain
    · rw [Symbol.isSynthetic_numbered] at still
      cases still
    · obtain ⟨rfl, numbers⟩ := Symbol.numbered_inj same
      have equal : drawn = more := by omega
      rw [equal]
  left := by
    rintro first second other (⟨rfl, plain⟩ | ⟨base, drawn, rfl, rfl⟩)
      (⟨rfl, still⟩ | ⟨other, more, rfl, same⟩)
    · rfl
    · rw [same, Symbol.isSynthetic_numbered] at plain
      cases plain
    · rw [Symbol.isSynthetic_numbered] at still
      cases still
    · obtain ⟨rfl, numbers⟩ := Symbol.numbered_inj same
      have equal : drawn = more := by omega
      rw [equal]

namespace Pattern

/-- Plans for the same places with corresponding names. -/
structure CheckPlan.Alike (names : Symbol → Symbol → Prop) (one two : CheckPlan) : Prop where
  renames : List.Forall₂ (fun first second => first.1 = second.1 ∧ names first.2 second.2)
    one.renames two.renames
  checks : List.Forall₂ (fun first second => first.node = second.node ∧
    first.after = second.after ∧ names first.test.left second.test.left ∧
      names first.test.right second.test.right) one.checks two.checks
  synthetic : List.Forall₂ (fun first second => names first.1 second.1) one.synthetic two.synthetic

section Lockstep

variable {one two : FreshNames}

/-- As many names were given out for every base. -/
def Lockstep (one two first second : FreshNames) : Prop :=
  ∀ base, ∃ drawn, first.count base = one.count base + drawn ∧
    second.count base = two.count base + drawn

theorem Lockstep.next {first second : FreshNames} (step : Lockstep one two first second)
    (base : Symbol) : Lockstep one two (first.next base).2 (second.next base).2 ∧
      Counterparts one two (first.next base).1 (second.next base).1 := by
  constructor
  · intro other
    obtain ⟨drawn, left, right⟩ := step other
    by_cases same : base = other
    · subst same
      refine ⟨drawn + 1, ?_, ?_⟩
      · rw [count_next, if_pos rfl, left, Nat.add_assoc]
      · rw [count_next, if_pos rfl, right, Nat.add_assoc]
    · refine ⟨drawn, ?_, ?_⟩
      · rw [count_next, if_neg same, left]
      · rw [count_next, if_neg same, right]
  · obtain ⟨drawn, left, right⟩ := step base
    refine .inr ⟨base, drawn, ?_, ?_⟩
    · rw [FreshNames.next, left]
    · rw [FreshNames.next, right]

/-- Renaming the same places in step gives corresponding plans. -/
theorem alike_planSymbol {symbol : Symbol} (later : List PatternPath) :
    ∀ {earlier : PatternPath} {previous before : Symbol} {plan other : CheckPlan}
      {first second : FreshNames}, Counterparts one two previous before →
      plan.Alike (Counterparts one two) other → Lockstep one two first second →
      (planSymbol symbol previous earlier later plan first).1.Alike (Counterparts one two)
        (planSymbol symbol before earlier later other second).1 ∧
      Lockstep one two (planSymbol symbol previous earlier later plan first).2
        (planSymbol symbol before earlier later other second).2 := by
  induction later with
  | nil => exact fun _ alike step => ⟨alike, step⟩
  | cons path rest ih =>
    intro earlier previous before plan other first second named alike step
    obtain ⟨stepped, fresh⟩ := step.next symbol
    refine ih fresh ⟨?_, ?_, ?_⟩ stepped
    · exact List.rel_append alike.renames (.cons ⟨rfl, fresh⟩ .nil)
    · exact List.rel_append alike.checks (.cons ⟨rfl, rfl, named, fresh⟩ .nil)
    · exact List.rel_append alike.synthetic (.cons fresh .nil)

theorem alike_planSymbols (occurrences : List (Symbol × PatternPath)) {symbols : List Symbol} :
    (∀ symbol ∈ symbols, Symbol.isSynthetic symbol = false) →
    ∀ {plan other : CheckPlan} {first second : FreshNames},
      plan.Alike (Counterparts one two) other → Lockstep one two first second →
      (planSymbols occurrences symbols plan first).1.Alike (Counterparts one two)
        (planSymbols occurrences symbols other second).1 := by
  induction symbols with
  | nil => exact fun _ _ _ _ _ alike _ => alike
  | cons symbol rest ih =>
    intro plain plan other first second alike step
    obtain ⟨here, others⟩ := List.forall_mem_cons.mp plain
    unfold planSymbols
    split
    · exact ih others alike step
    · rename_i place later _
      have named : Counterparts one two symbol symbol := .inl ⟨rfl, here⟩
      obtain ⟨still, stepped⟩ := @alike_planSymbol one two symbol later place _ _ _ _ _ _ named
        alike step
      exact ih others still stepped

theorem alike_checkPlan {pattern : Pattern}
    (plain : ∀ symbol ∈ pattern.occurrences, Symbol.isSynthetic symbol = false) :
    (pattern.checkPlan one).1.Alike (Counterparts one two) (pattern.checkPlan two).1 :=
  alike_planSymbols _ (fun symbol listed => plain symbol (mem_boundSymbols.mp listed))
    ⟨.nil, .nil, .nil⟩ fun _ => ⟨0, rfl, rfl⟩

end Lockstep

section Rebuilding

variable {names : Symbol → Symbol → Prop} {plan other : CheckPlan}

theorem CheckPlan.Alike.rename? (alike : plan.Alike names other) (path : PatternPath) :
    Option.Rel names (plan.rename? path) (other.rename? path) := by
  unfold CheckPlan.rename?
  have renames := alike.renames
  revert renames
  generalize plan.renames = planned
  generalize other.renames = others
  intro renames
  induction renames with
  | nil => exact .none
  | @cons first second _ _ same _ ih =>
    obtain ⟨place, named⟩ := same
    rw [List.find?_cons, List.find?_cons, place]
    split
    · exact .some named
    · exact ih

theorem CheckPlan.Alike.nameAt (alike : plan.Alike names other) (path : PatternPath)
    {symbol : Symbol} (same : names symbol symbol) :
    names (Pattern.nameAt plan path symbol) (Pattern.nameAt other path symbol) := by
  unfold Pattern.nameAt
  have found := alike.rename? path
  revert found
  generalize plan.rename? path = one
  generalize other.rename? path = two
  rintro (named | _)
  · exact named
  · exact same

/-- The checks at a node correspond, also those after one of its items only. -/
theorem CheckPlan.Alike.checksAt (alike : plan.Alike names other) (path : PatternPath) :
    List.Forall₂ (fun first second => first.after = second.after ∧
      names first.test.left second.test.left ∧ names first.test.right second.test.right)
      (plan.checksAt path) (other.checksAt path) := by
  unfold CheckPlan.checksAt
  have checks := alike.checks
  revert checks
  generalize plan.checks = planned
  generalize other.checks = others
  intro checks
  induction checks with
  | nil => exact .nil
  | @cons first second _ _ same _ ih =>
    obtain ⟨node, rest⟩ := same
    rw [List.filter_cons, List.filter_cons, node]
    split
    · exact .cons rest ih
    · exact ih

theorem renamedAll_append {items others more rest : List Pattern}
    (first : RenamedAll names items others) (second : RenamedAll names more rest) :
    RenamedAll names (items ++ more) (others ++ rest) := by
  induction items generalizing others with
  | nil =>
    cases first
    exact second
  | cons item items ih =>
    cases first with
    | cons same further => exact .cons same (ih further)

theorem renamedAll_checks {checks tests : List PlacedCheck}
    (all : List.Forall₂ (fun first second => first.after = second.after ∧
      names first.test.left second.test.left ∧ names first.test.right second.test.right)
      checks tests) (index : Nat) :
    RenamedAll names
      ((checks.filter fun placed => placed.after = some index).map fun placed => .check placed.test)
      ((tests.filter fun placed => placed.after = some index).map
        fun placed => .check placed.test) := by
  induction all with
  | nil => exact .nil
  | @cons first second _ _ same _ ih =>
    obtain ⟨after, left, right⟩ := same
    rw [List.filter_cons, List.filter_cons, after]
    split
    · exact .cons (.check left right) ih
    · exact ih

mutual

/-- A pattern rebuilt by corresponding plans differs in its names only. -/
theorem renamed_rebuild (alike : plan.Alike names other) : (path : PatternPath) →
    (pattern : Pattern) → pattern.tests = [] → (∀ symbol ∈ pattern.occurrences, names symbol symbol) →
    Renamed names (pattern.rebuild plan path) (pattern.rebuild other path)
  | path, .literal value, _, _ => by
    rw [rebuild_literal, rebuild_literal]
    exact .literal
  | path, .nonTerminal stem symbol, _, plain => by
    rw [rebuild_nonTerminal, rebuild_nonTerminal]
    exact .nonTerminal (alike.nameAt path (plain symbol (List.mem_singleton.mpr rfl)))
  | path, .builtIn kind symbol, _, plain => by
    rw [rebuild_builtIn, rebuild_builtIn]
    refine .builtIn fun bindable => alike.nameAt path (plain symbol ?_)
    rw [occurrences, bindingSymbol?, if_pos bindable]
    · exact List.mem_singleton.mpr rfl
    all_goals nofun
  | path, .sequence items, free, plain => by
    rw [rebuild, rebuild]
    exact .sequence (renamedAll_rebuildFrom alike path 0 items free plain)
  | path, .repeated inner _, free, plain => by
    rw [rebuild, rebuild]
    exact .repeated (renamed_rebuild alike _ inner free plain)
  | path, .inHole context contents checks, free, plain => by
    rw [tests] at free
    obtain ⟨sides, none_⟩ := List.append_eq_nil_iff.mp free
    obtain ⟨one, two⟩ := List.append_eq_nil_iff.mp sides
    subst none_
    rw [rebuild, rebuild]
    refine .inHole
      (renamed_rebuild alike _ context one fun symbol listed =>
        plain symbol (List.mem_append_left _ listed))
      (renamed_rebuild alike _ contents two fun symbol listed =>
        plain symbol (List.mem_append_right _ listed)) ?_
    rw [List.nil_append, List.nil_append]
    exact List.forall₂_map_left_iff.mpr (List.forall₂_map_right_iff.mpr
      ((alike.checksAt path).imp fun _ _ same => same.2))
  | _, .check _, free, _ => by cases free
  | path, .unresolved symbol, _, _ => by
    have kept : ∀ plan : CheckPlan,
        (Pattern.unresolved symbol).rebuild plan path = .unresolved symbol := by
      intro plan
      simp only [rebuild]
      split <;> rfl
    rw [kept, kept]
    exact .unresolved

theorem renamedAll_rebuildFrom (alike : plan.Alike names other) : (path : PatternPath) →
    (index : Nat) → (items : List Pattern) → testsAll items = [] →
    (∀ symbol ∈ occurrencesAll items, names symbol symbol) →
    RenamedAll names (rebuildFrom plan path index items) (rebuildFrom other path index items)
  | _, _, [], _, _ => .nil
  | path, index, item :: rest, free, plain => by
    rw [testsAll] at free
    obtain ⟨one, two⟩ := List.append_eq_nil_iff.mp free
    rw [rebuildFrom, rebuildFrom, List.cons_append, List.cons_append]
    refine .cons
      (renamed_rebuild alike _ item one fun symbol listed =>
        plain symbol (List.mem_append_left _ listed))
      (renamedAll_append (renamedAll_checks (alike.checksAt path) index)
        (renamedAll_rebuildFrom alike path (index + 1) rest two fun symbol listed =>
          plain symbol (List.mem_append_right _ listed)))

end

mutual

theorem Renamed.exhaustive : {pattern other : Pattern} → Renamed names pattern other →
    Renamed names pattern.exhaustive other.exhaustive
  | .literal _, _, .literal => .literal
  | .nonTerminal _ _, _, .nonTerminal named => .nonTerminal named
  | .builtIn _ _, _, .builtIn named => .builtIn named
  | .sequence _, _, .sequence all => .sequence (RenamedAll.exhaustive all)
  | .repeated _ _, _, .repeated same => .repeated (Renamed.exhaustive same)
  | .inHole _ _ _, _, .inHole outer inner compared =>
    .inHole (Renamed.exhaustive outer) (Renamed.exhaustive inner) compared
  | .check _, _, .check left right => .check left right
  | .unresolved _, _, .unresolved => .unresolved

theorem RenamedAll.exhaustive : {items others : List Pattern} → RenamedAll names items others →
    RenamedAll names (exhaustiveAll items) (exhaustiveAll others)
  | [], _, .nil => .nil
  | _ :: _, _, .cons first rest => .cons (Renamed.exhaustive first) (RenamedAll.exhaustive rest)

end

/-- The names that checks need are all that their patterns differ in. -/
theorem renamed_insertChecks {pattern : Pattern} (free : pattern.tests = [])
    (plain : ∀ symbol ∈ pattern.occurrences, Symbol.isSynthetic symbol = false)
    (one two : FreshNames) :
    Renamed (Counterparts one two) (pattern.insertChecks one).1.pattern
      (pattern.insertChecks two).1.pattern :=
  renamed_rebuild (alike_checkPlan plain) [] pattern free fun symbol listed =>
    .inl ⟨rfl, plain symbol listed⟩

end Rebuilding

end Pattern

end Reduct
