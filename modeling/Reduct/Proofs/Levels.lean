import Reduct.Proofs.Frontier
import Reduct.Proofs.Matching
import Reduct.Proofs.SortedTable

/-!
# Bindings as assignments

How each operation on bindings changes the levels of the symbols. A match extends bindings by an
assignment: a symbol without a level gets its term as its only level, and a symbol with an open
level gets its term collected there. A level opened, given the term of every round and closed
again collects the sequence of these terms, which is what a repetition assigns.
-/

namespace Reduct

/-- A stack that takes a term: it is empty or its innermost level collects. -/
def Accepting : List Level → Prop
  | .scalar _ :: _ => False
  | _ => True

/-- A stack after it took a term. -/
def Puts : List Level → Term → List Level → Prop
  | [], term, after => ∃ level, after = [level] ∧ level.toTerm = term
  | .collected terms :: outer, term, after => after = .collected (terms ++ [term]) :: outer
  | .scalar _ :: _, _, _ => False

namespace Bindings

/-- The symbols are sorted, and each has a level. -/
structure WellFormed (bindings : Bindings) : Prop where
  sorted : bindings.bound.Sorted
  occupied : ∀ symbol, bindings.bound.find? symbol ≠ some []

theorem wellFormed_empty : empty.WellFormed := ⟨Table.sorted_empty, nofun⟩

theorem levels_empty (symbol : Symbol) : empty.levels symbol = [] := rfl

theorem levels_withLevels (bindings : Bindings) (symbol other : Symbol) (stack : List Level) :
    (bindings.withLevels symbol stack).levels other =
      if symbol = other then stack else bindings.levels other := by
  unfold levels withLevels
  rw [Table.find?_insert]
  split <;> rfl

theorem WellFormed.withLevels {bindings : Bindings} (wellFormed : bindings.WellFormed)
    (symbol : Symbol) {stack : List Level} (occupied : stack ≠ []) :
    (bindings.withLevels symbol stack).WellFormed where
  sorted := wellFormed.sorted.insert symbol stack
  occupied := by
    intro other
    unfold Bindings.withLevels
    rw [Table.find?_insert]
    split
    · intro same
      cases same
      exact occupied rfl
    · exact wellFormed.occupied other

/-- The levels of a symbol of well-formed bindings are what their table holds. -/
theorem WellFormed.find?_eq {bindings : Bindings} (wellFormed : bindings.WellFormed)
    (symbol : Symbol) :
    bindings.bound.find? symbol =
      if bindings.levels symbol = [] then none else some (bindings.levels symbol) := by
  unfold levels
  cases found : bindings.bound.find? symbol with
  | none => rfl
  | some stack =>
    have occupied : stack ≠ [] := fun same => wellFormed.occupied symbol (by rw [found, same])
    rw [Option.getD_some, if_neg occupied]

/-- Bindings extended by the terms of an assignment. -/
structure Extends (before : Bindings) (assignment : Assignment) (after : Bindings) : Prop where
  wellFormed : after.WellFormed
  kept : ∀ symbol, assignment symbol = none → after.levels symbol = before.levels symbol
  put : ∀ symbol term, assignment symbol = some term →
    Puts (before.levels symbol) term (after.levels symbol)

theorem Extends.refl {bindings : Bindings} (wellFormed : bindings.WellFormed) :
    bindings.Extends .empty bindings := ⟨wellFormed, fun _ _ => rfl, nofun⟩

/-- Extensions by assignments to other symbols add up. -/
theorem Extends.trans {before middle after : Bindings} {first second : Assignment}
    (left : before.Extends first middle) (right : middle.Extends second after)
    (disjoint : ∀ symbol, (first symbol).isSome = true → second symbol = none) :
    before.Extends (first.union second) after where
  wellFormed := right.wellFormed
  kept := by
    intro symbol absent
    cases known : first symbol with
    | some term =>
      rw [Assignment.union_eq_left known] at absent
      cases absent
    | none =>
      rw [Assignment.union_eq_right known] at absent
      rw [right.kept symbol absent, left.kept symbol known]
  put := by
    intro symbol term found
    cases known : first symbol with
    | some other =>
      rw [Assignment.union_eq_left known] at found
      cases found
      have absent := disjoint symbol (by rw [known]; rfl)
      rw [right.kept symbol absent]
      exact left.put symbol term known
    | none =>
      rw [Assignment.union_eq_right known] at found
      rw [← left.kept symbol known]
      exact right.put symbol term found

/-- A stack that takes a term can be given one. -/
theorem exists_add {bindings : Bindings} (wellFormed : bindings.WellFormed) {symbol : Symbol}
    (accepting : Accepting (bindings.levels symbol)) (term : Term) :
    ∃ extended, bindings.add symbol term = .ok extended ∧
      bindings.Extends (.single symbol term) extended := by
  have single : ∀ stack, stack ≠ [] → Puts (bindings.levels symbol) term stack →
      bindings.Extends (.single symbol term) (bindings.withLevels symbol stack) := by
    intro stack occupied puts
    refine ⟨wellFormed.withLevels symbol occupied, ?_, ?_⟩
    · intro other absent
      have apart : symbol ≠ other := by
        rintro rfl
        simp [Assignment.single] at absent
      rw [levels_withLevels, if_neg apart]
    · intro other found known
      unfold Assignment.single at known
      split at known
      · rename_i same
        cases known
        rw [same, levels_withLevels, if_pos rfl]
        exact puts
      · cases known
  unfold add
  cases levels : bindings.levels symbol with
  | nil =>
    refine ⟨_, rfl, single _ nofun ?_⟩
    rw [levels]
    exact ⟨_, rfl, rfl⟩
  | cons level outer =>
    cases level with
    | scalar previous =>
      rw [levels] at accepting
      exact accepting.elim
    | collected terms =>
      refine ⟨_, rfl, single _ nofun ?_⟩
      rw [levels]
      exact rfl

/-- Opening levels puts an empty one on the stack of every listed symbol. -/
theorem exists_openAll {symbols : List Symbol} (distinct : symbols.Nodup) {bindings : Bindings}
    (wellFormed : bindings.WellFormed)
    (accepting : ∀ symbol ∈ symbols, Accepting (bindings.levels symbol)) :
    ∃ opened, bindings.openAll symbols = some opened ∧ opened.WellFormed ∧
      ∀ symbol, opened.levels symbol =
        if symbol ∈ symbols then .collected [] :: bindings.levels symbol
        else bindings.levels symbol := by
  induction symbols generalizing bindings with
  | nil => exact ⟨bindings, rfl, wellFormed, fun _ => rfl⟩
  | cons first rest ih =>
    obtain ⟨outside, distinct⟩ := List.nodup_cons.mp distinct
    have step : bindings.increaseDepth first =
        .ok (bindings.withLevels first (.collected [] :: bindings.levels first)) := by
      have here := accepting first List.mem_cons_self
      unfold increaseDepth
      cases levels : bindings.levels first with
      | nil => rfl
      | cons level outer =>
        cases level with
        | scalar previous =>
          rw [levels] at here
          exact here.elim
        | collected terms => rfl
    have others : ∀ symbol ∈ rest, Accepting
        ((bindings.withLevels first (.collected [] :: bindings.levels first)).levels symbol) := by
      intro symbol listed
      have apart : first ≠ symbol := fun same => outside (same ▸ listed)
      rw [levels_withLevels, if_neg apart]
      exact accepting symbol (List.mem_cons_of_mem _ listed)
    obtain ⟨opened, run, formed, levels⟩ :=
      ih distinct (wellFormed.withLevels first (List.cons_ne_nil _ _)) others
    refine ⟨opened, ?_, formed, ?_⟩
    · unfold openAll at run ⊢
      rw [List.foldlM_cons, step]
      exact run
    · intro symbol
      rw [levels symbol, levels_withLevels]
      by_cases same : first = symbol
      · subst same
        simp [outside]
      · have apart : symbol ≠ first := fun equal => same equal.symm
        simp [same, apart]

/-- A stack with its innermost level closed. -/
def closed : List Level → List Level
  | level :: .collected terms :: outer => .collected (terms ++ [level.toTerm]) :: outer
  | stack => stack

/-- A stack whose innermost level can be closed. -/
def Closable : List Level → Prop
  | [] => False
  | _ :: .scalar _ :: _ => False
  | _ => True

/-- Closing levels closes the innermost one of every listed symbol. -/
theorem exists_closeAll {symbols : List Symbol} (distinct : symbols.Nodup) {bindings : Bindings}
    (wellFormed : bindings.WellFormed)
    (closable : ∀ symbol ∈ symbols, Closable (bindings.levels symbol)) :
    ∃ finished, bindings.closeAll symbols = some finished ∧ finished.WellFormed ∧
      ∀ symbol, finished.levels symbol =
        if symbol ∈ symbols then closed (bindings.levels symbol)
        else bindings.levels symbol := by
  induction symbols generalizing bindings with
  | nil => exact ⟨bindings, rfl, wellFormed, fun _ => rfl⟩
  | cons first rest ih =>
    obtain ⟨outside, distinct⟩ := List.nodup_cons.mp distinct
    have here := closable first List.mem_cons_self
    have step : ∃ middle, bindings.decreaseDepth first = .ok middle ∧ middle.WellFormed ∧
        ∀ symbol, middle.levels symbol =
          if symbol = first then closed (bindings.levels symbol) else bindings.levels symbol := by
      have found := wellFormed.find?_eq first
      unfold decreaseDepth
      match stack : bindings.levels first, here with
      | [level], _ =>
        rw [stack, if_neg nofun] at found
        rw [found]
        refine ⟨bindings, by cases level <;> rfl, wellFormed, ?_⟩
        intro symbol
        split
        · rename_i same
          rw [same, stack]
          rfl
        · rfl
      | level :: .collected terms :: outer, _ =>
        rw [stack, if_neg nofun] at found
        rw [found]
        refine ⟨_, rfl, wellFormed.withLevels first (List.cons_ne_nil _ _), ?_⟩
        intro symbol
        rw [levels_withLevels]
        by_cases same : first = symbol
        · subst same
          rw [if_pos rfl, if_pos rfl, stack]
          rfl
        · rw [if_neg same, if_neg fun equal => same equal.symm]
    obtain ⟨middle, decreased, formed, levels⟩ := step
    have others : ∀ symbol ∈ rest, Closable (middle.levels symbol) := by
      intro symbol listed
      have apart : symbol ≠ first := fun same => outside (same ▸ listed)
      rw [levels symbol, if_neg apart]
      exact closable symbol (List.mem_cons_of_mem _ listed)
    obtain ⟨finished, run, last, after⟩ := ih distinct formed others
    refine ⟨finished, ?_, last, ?_⟩
    · unfold closeAll at run ⊢
      rw [List.foldlM_cons, decreased]
      exact run
    · intro symbol
      rw [after symbol, levels symbol]
      by_cases same : symbol = first
      · subst same
        simp [outside]
      · simp [same]

/-- Bindings after the rounds of a repetition, one extension for each. -/
inductive Rolls : Bindings → List (Term × Assignment) → Bindings → Prop
  | done {bindings : Bindings} (wellFormed : bindings.WellFormed) : Rolls bindings [] bindings
  | round {before middle after : Bindings} {term : Term} {assignment : Assignment}
      {rest : List (Term × Assignment)} (first : before.Extends assignment middle)
      (others : Rolls middle rest after) : Rolls before ((term, assignment) :: rest) after

/-- The rounds add their terms to the open levels of the symbols. -/
theorem Rolls.levels {symbols : List Symbol} {before after : Bindings}
    {rounds : List (Term × Assignment)} (rolls : Rolls before rounds after)
    (known : ∀ round ∈ rounds, ∀ symbol, (round.2 symbol).isSome = true ↔ symbol ∈ symbols)
    (symbol : Symbol) :
    after.WellFormed ∧ (symbol ∉ symbols → after.levels symbol = before.levels symbol) ∧
      ∀ terms outer, symbol ∈ symbols → before.levels symbol = .collected terms :: outer →
        after.levels symbol =
          .collected (terms ++ (rounds.map (·.2)).filterMap fun round => round symbol) :: outer := by
  induction rolls with
  | done wellFormed =>
    refine ⟨wellFormed, fun _ => rfl, ?_⟩
    intro terms outer _ levels
    rw [levels]
    simp
  | @round before middle after term assignment rest first others ih =>
    have here : ∀ symbol, (assignment symbol).isSome = true ↔ symbol ∈ symbols :=
      known _ List.mem_cons_self
    obtain ⟨formed, kept, grown⟩ := ih fun round listed =>
      known round (List.mem_cons_of_mem _ listed)
    refine ⟨formed, ?_, ?_⟩
    · intro outside
      have absent : assignment symbol = none := by
        cases found : assignment symbol with
        | none => rfl
        | some term => exact absurd ((here symbol).mp (by rw [found]; rfl)) outside
      rw [kept outside, first.kept symbol absent]
    · intro terms outer inside levels
      obtain ⟨value, found⟩ := Option.isSome_iff_exists.mp ((here symbol).mpr inside)
      have put := first.put symbol value found
      rw [levels] at put
      rw [grown _ outer inside put, List.map_cons, List.filterMap_cons, List.append_assoc]
      simp only [found]
      rfl

/-- Opening levels, taking rounds and closing the levels assigns the terms of all rounds. -/
theorem exists_close_of_rolls {symbols : List Symbol} (distinct : symbols.Nodup)
    {before opened after : Bindings} {rounds : List (Term × Assignment)}
    (accepting : ∀ symbol ∈ symbols, Accepting (before.levels symbol))
    (levels : ∀ symbol, opened.levels symbol =
      if symbol ∈ symbols then .collected [] :: before.levels symbol else before.levels symbol)
    (known : ∀ round ∈ rounds, ∀ symbol, (round.2 symbol).isSome = true ↔ symbol ∈ symbols)
    (rolls : Rolls opened rounds after) :
    ∃ finished, after.closeAll symbols = some finished ∧
      before.Extends (.collect symbols (rounds.map (·.2))) finished := by
  have grown : ∀ symbol ∈ symbols, after.levels symbol =
      .collected ((rounds.map (·.2)).filterMap fun round => round symbol) ::
        before.levels symbol := by
    intro symbol inside
    have start := levels symbol
    rw [if_pos inside] at start
    have all := (rolls.levels known symbol).2.2 [] (before.levels symbol) inside start
    rw [List.nil_append] at all
    exact all
  have closable : ∀ symbol ∈ symbols, Closable (after.levels symbol) := by
    intro symbol inside
    have here := accepting symbol inside
    rw [grown symbol inside]
    match before.levels symbol, here with
    | [], _ => trivial
    | .collected _ :: _, _ => trivial
  obtain ⟨finished, run, formed, final⟩ :=
    exists_closeAll distinct (rolls.levels known "").1 closable
  refine ⟨finished, run, formed, ?_, ?_⟩
  · intro symbol absent
    have outside : symbol ∉ symbols := by
      intro inside
      rw [Assignment.collect, if_pos inside] at absent
      cases absent
    rw [final symbol, if_neg outside, (rolls.levels known symbol).2.1 outside, levels symbol,
      if_neg outside]
  · intro symbol term found
    unfold Assignment.collect at found
    split at found
    · rename_i inside
      cases found
      have here := accepting symbol inside
      rw [final symbol, if_pos inside, grown symbol inside]
      match before.levels symbol, here with
      | [], _ => exact ⟨_, rfl, rfl⟩
      | .collected _ :: _, _ => exact rfl
    · cases found

/-- The terms of finished bindings. -/
def Finished (bindings : Bindings) : Prop :=
  ∀ symbol stack, bindings.bound.find? symbol = some stack → ∃ level, stack = [level]

/-- Bindings made from none are finished, and hold the terms of the assignment. -/
theorem Extends.finished {assignment : Assignment} {after : Bindings}
    (made : empty.Extends assignment after) : after.Finished ∧ after.lookup = assignment := by
  have each : ∀ symbol, (∃ level, after.bound.find? symbol = some [level] ∧
      assignment symbol = some level.toTerm) ∨
      (after.bound.find? symbol = none ∧ assignment symbol = none) := by
    intro symbol
    have found := made.wellFormed.find?_eq symbol
    cases given : assignment symbol with
    | none =>
      rw [made.kept symbol given, levels_empty, if_pos rfl] at found
      exact .inr ⟨found, rfl⟩
    | some term =>
      obtain ⟨level, same, rfl⟩ := made.put symbol term given
      rw [same, if_neg (List.cons_ne_nil _ _)] at found
      exact .inl ⟨level, found, rfl⟩
  constructor
  · intro symbol stack found
    rcases each symbol with ⟨level, here, _⟩ | ⟨here, _⟩
    · rw [here] at found
      cases found
      exact ⟨level, rfl⟩
    · rw [here] at found
      cases found
  · funext symbol
    unfold lookup
    rcases each symbol with ⟨level, here, given⟩ | ⟨here, given⟩
    · rw [here, given]
    · rw [here, given]

/-- Finished bindings can be added to bindings whose stacks take their terms. -/
theorem exists_merge {bindings other : Bindings} (wellFormed : bindings.WellFormed)
    (sorted : other.bound.Sorted) (finished : other.Finished)
    (accepting : ∀ symbol, (other.lookup symbol).isSome = true →
      Accepting (bindings.levels symbol)) :
    ∃ merged, bindings.merge other = .ok merged ∧ bindings.Extends other.lookup merged := by
  obtain ⟨⟨entries⟩⟩ := other
  unfold merge
  change entries.Pairwise _ at sorted
  change ∃ merged, entries.foldlM mergeEntry bindings = .ok merged ∧ _
  induction entries generalizing bindings with
  | nil => exact ⟨bindings, rfl, .refl wellFormed⟩
  | cons entry rest ih =>
    obtain ⟨name, stack⟩ := entry
    obtain ⟨head, tail⟩ := List.pairwise_cons.mp sorted
    obtain ⟨level, rfl⟩ := finished name stack (by simp [Table.find?, Table.findIn])
    have absent : Table.findIn name rest = none := Table.findIn_eq_none_of_before head
    have here : (Bindings.mk ⟨(name, [level]) :: rest⟩).lookup =
        (Assignment.single name level.toTerm).union (Bindings.mk ⟨rest⟩).lookup := by
      funext symbol
      unfold lookup Table.find? Assignment.union Assignment.single
      rw [Table.findIn]
      by_cases same : name = symbol
      · subst same
        simp
      · have apart : symbol ≠ name := fun equal => same equal.symm
        simp [same, apart]
    have own : Accepting (bindings.levels name) := by
      refine accepting name ?_
      rw [here, Assignment.isSome_union, Assignment.isSome_single]
      exact .inl rfl
    obtain ⟨middle, added, extended⟩ := exists_add wellFormed own level.toTerm
    have later : ∀ symbol, ((Bindings.mk ⟨rest⟩).lookup symbol).isSome = true →
        Accepting (middle.levels symbol) := by
      intro symbol known
      have apart : symbol ≠ name := by
        rintro rfl
        unfold lookup Table.find? at known
        rw [absent] at known
        cases known
      rw [extended.kept symbol (by simp [Assignment.single, apart])]
      refine accepting symbol ?_
      rw [here, Assignment.isSome_union]
      exact .inr known
    have others : (Bindings.mk ⟨rest⟩).Finished := by
      intro symbol stack found
      refine finished symbol stack ?_
      change Table.findIn symbol rest = some stack at found
      change Table.findIn symbol ((name, [level]) :: rest) = some stack
      have apart : name ≠ symbol := by
        rintro rfl
        rw [absent] at found
        cases found
      rw [Table.findIn, if_neg apart, found]
    obtain ⟨merged, run, grown⟩ := ih extended.wellFormed others later tail
    refine ⟨merged, ?_, ?_⟩
    · rw [List.foldlM_cons]
      change (bindings.add name level.toTerm).bind _ = _
      rw [added]
      exact run
    · rw [here]
      refine extended.trans grown ?_
      intro symbol known
      rw [Assignment.isSome_single.mp known]
      unfold lookup Table.find?
      rw [absent]

end Bindings

end Reduct
