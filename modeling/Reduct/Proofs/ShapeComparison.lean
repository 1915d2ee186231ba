import Mathlib.Data.Finset.Card
import Mathlib.Logic.Relation
import Reduct.Proofs.Disjointness

/-!
# Comparing patterns in a grammar

In any grammar whose aliases do not run in a circle, patterns that are told apart by their shapes
describe no common term, whatever literal variables are met later. Which of two patterns comes
first does not matter for the comparison.
-/

namespace Reduct

namespace Grammar

variable {grammar : Grammar}

/-- A non-terminal is by itself an alternative of a rule. -/
def Leads (grammar : Grammar) (name stem : Symbol) : Prop := stem ∈ grammar.aliases name

/-- No rule leads back to itself through alternatives that are non-terminals. -/
def Acyclic (grammar : Grammar) : Prop := ∀ name, ¬ Relation.TransGen grammar.Leads name name

/-- Ranks that fall along aliases leave no room for a circle. -/
theorem acyclic_of_rank {rank : Symbol → Nat}
    (lower : ∀ name, ∀ stem ∈ grammar.aliases name, rank stem < rank name) : grammar.Acyclic := by
  have falls : ∀ name other, Relation.TransGen grammar.Leads name other →
      rank other < rank name := by
    intro name other reaches
    induction reaches with
    | single leads => exact lower _ _ leads
    | tail _ leads ih => exact Nat.lt_trans (lower _ _ leads) ih
  exact fun name circle => Nat.lt_irrefl _ (falls name name circle)

/-- A name with alternatives has a rule. -/
theorem mem_keys_of_alternative {name : Symbol} {alternative : Pattern}
    (listed : alternative ∈ grammar.alternativesOf name) : name ∈ grammar.alternatives.keys := by
  unfold alternativesOf at listed
  cases found : grammar.alternatives.find? name with
  | none =>
    rw [found] at listed
    cases listed
  | some alternatives =>
    exact List.mem_map_of_mem (f := Prod.fst) (Table.mem_of_find? found)

open Classical in
/-- The rules that a rule reaches through aliases. -/
noncomputable def reached (grammar : Grammar) (name : Symbol) : Finset Symbol :=
  grammar.alternatives.keys.toFinset.filter fun other =>
    Relation.TransGen grammar.Leads name other

theorem mem_reached {name other : Symbol} : other ∈ grammar.reached name ↔
    other ∈ grammar.alternatives.keys ∧ Relation.TransGen grammar.Leads name other := by
  classical
  unfold reached
  rw [Finset.mem_filter, List.mem_toFinset]

/-- The number of rules that a rule reaches, itself included. A name without a rule has none. -/
noncomputable def aliasRank (grammar : Grammar) (name : Symbol) : Nat :=
  if name ∈ grammar.alternatives.keys then (grammar.reached name).card + 1 else 0

theorem aliasRank_le (acyclic : grammar.Acyclic) (name : Symbol) :
    grammar.aliasRank name ≤ grammar.alternatives.size := by
  unfold aliasRank
  split
  · rename_i known
    have within : grammar.reached name ⊆ grammar.alternatives.keys.toFinset.erase name := by
      intro other listed
      obtain ⟨inside, reaches⟩ := mem_reached.mp listed
      refine Finset.mem_erase.mpr ⟨?_, List.mem_toFinset.mpr inside⟩
      rintro rfl
      exact acyclic _ reaches
    have fewer := Finset.card_le_card within
    rw [Finset.card_erase_of_mem (List.mem_toFinset.mpr known)] at fewer
    have some_ : 0 < grammar.alternatives.keys.toFinset.card :=
      Finset.card_pos.mpr ⟨name, List.mem_toFinset.mpr known⟩
    have most : grammar.alternatives.keys.toFinset.card ≤ grammar.alternatives.size := by
      refine Nat.le_trans (List.toFinset_card_le _) ?_
      rw [Table.keys, List.length_map]
      exact Nat.le_refl _
    omega
  · exact Nat.zero_le _

/-- An alias reaches less than the rule, for it does not reach itself. -/
theorem aliasRank_lt (acyclic : grammar.Acyclic) {name stem : Symbol}
    (leads : grammar.Leads name stem) : grammar.aliasRank stem < grammar.aliasRank name := by
  unfold aliasRank
  obtain ⟨_, listed, _⟩ := List.mem_filterMap.mp leads
  rw [if_pos (mem_keys_of_alternative listed)]
  split
  · rename_i known
    have more : grammar.reached stem ⊂ grammar.reached name := by
      refine (Finset.ssubset_iff_of_subset ?_).mpr ⟨stem, ?_, ?_⟩
      · intro other listed
        obtain ⟨inside, reaches⟩ := mem_reached.mp listed
        exact mem_reached.mpr ⟨inside, .head leads reaches⟩
      · exact mem_reached.mpr ⟨known, .single leads⟩
      · exact fun listed => acyclic stem (mem_reached.mp listed).2
    have fewer := Finset.card_lt_card more
    omega
  · exact Nat.succ_pos _

/-- Every term that a rule of the grammar derives has one of its shapes. -/
theorem Acyclic.exists_shape (acyclic : grammar.Acyclic) {mentioned : SymbolSet} {name : Symbol}
    {term : Term} (derived : Derives (grammar.reading mentioned) name term) :
    ∃ shape ∈ (Closures.ofGrammar grammar).shapesOf name,
      shape.Describes (grammar.reading mentioned) term := by
  have known : name ∈ grammar.alternatives.keys := by
    obtain ⟨_, listed, _⟩ := derives_iff.mp derived
    exact mem_keys_of_alternative listed
  rw [Closures.shapesOf_ofGrammar known]
  exact exists_collectShapes (fun _ _ leads => aliasRank_lt acyclic leads) _ [] [] name
    (Nat.lt_succ_of_le (aliasRank_le acyclic name)) nofun derived

/-- A term of a pattern has one of the shapes of the pattern. -/
theorem Acyclic.exists_patternShape (acyclic : grammar.Acyclic) {mentioned : SymbolSet}
    (pattern : Pattern) (term : Term) (fits : Fits (grammar.reading mentioned) pattern term) :
    ∃ shape ∈ (Closures.ofGrammar grammar).patternShapes pattern,
      shape.Describes (grammar.reading mentioned) term := by
  cases pattern with
  | nonTerminal stem symbol => exact acyclic.exists_shape (fits_nonTerminal.mp fits)
  | _ => exact exists_leafShape fits nofun

end Grammar

/-! ## The order of the two patterns -/

theorem BuiltIn.overlaps_comm (left right : BuiltIn) : left.overlaps right = right.overlaps left := by
  cases left <;> cases right <;> rfl

/-- Positions line up in either order. -/
theorem aligned_comm {different : Pattern → Pattern → Bool}
    (symmetric : ∀ left right, different left right = different right left)
    (first second : List Pattern) :
    (((first.zip second).takeWhile fun pair =>
      pair.1.isFixedWidth && pair.2.isFixedWidth).all fun pair => !different pair.1 pair.2) =
    (((second.zip first).takeWhile fun pair =>
      pair.1.isFixedWidth && pair.2.isFixedWidth).all fun pair => !different pair.1 pair.2) := by
  induction first generalizing second with
  | nil => rw [List.zip_nil_left, List.zip_nil_right]
  | cons head rest ih =>
    cases second with
    | nil => rfl
    | cons other others =>
      simp only [List.zip_cons_cons, List.takeWhile_cons]
      rw [Bool.and_comm other.isFixedWidth]
      split
      · rw [List.all_cons, List.all_cons, symmetric head other, ih others]
      · rfl

namespace Closures

variable {closures : Closures} {mentioned : SymbolSet}

theorem sequencesOverlap_comm {different : Pattern → Pattern → Bool}
    (symmetric : ∀ left right, different left right = different right left)
    (left right : List Pattern) :
    sequencesOverlap different left right = sequencesOverlap different right left := by
  unfold sequencesOverlap
  generalize left.filter (fun item => !item.isCheck) = first
  generalize right.filter (fun item => !item.isCheck) = second
  simp only [aligned_comm symmetric first second,
    aligned_comm symmetric first.reverse second.reverse]
  generalize decide (_ < first.length) = firstOpen
  generalize decide (_ < second.length) = secondOpen
  congr 2
  cases firstOpen <;> cases secondOpen <;> simp only [eq_comm]

theorem differentBy_comm {overlaps : Shape → Shape → Bool}
    (symmetric : ∀ left right, overlaps left right = overlaps right left) (left right : Pattern) :
    closures.differentBy overlaps left right = closures.differentBy overlaps right left := by
  unfold differentBy
  rw [Bool.eq_iff_iff]
  simp only [List.all_eq_true]
  constructor
  · intro apart second there first listed
    rw [symmetric]
    exact apart first listed second there
  · intro apart first listed second there
    rw [symmetric]
    exact apart second there first listed

theorem shapesOverlap_comm (fuel : Nat) : ∀ left right : Shape,
    closures.shapesOverlap mentioned fuel left right =
      closures.shapesOverlap mentioned fuel right left := by
  induction fuel with
  | zero =>
    intro left right
    cases left <;> cases right <;> simp only [shapesOverlap]
    · exact BuiltIn.overlaps_comm _ _
    · exact decide_eq_decide.mpr eq_comm
  | succ fuel ih =>
    intro left right
    cases left <;> cases right <;> simp only [shapesOverlap]
    · exact BuiltIn.overlaps_comm _ _
    · exact decide_eq_decide.mpr eq_comm
    · exact sequencesOverlap_comm (differentBy_comm ih) _ _

/-- Patterns that are provably different in a grammar without circles of aliases have no term in
common, where a variable that is not mentioned is one outside any greater set of literal variables,
and equal symbols may stand for different terms. Whether two patterns are provably different does
not depend on their order. -/
theorem provablyDifferent_sound_and_symmetric {grammar : Grammar} (acyclic : grammar.Acyclic)
    {mentioned later : SymbolSet} (grows : mentioned.Subset later) (left right : Pattern) :
    ((ofGrammar grammar).provablyDifferent mentioned left right = true →
      ∀ term, ¬ (Fits (grammar.reading later) left term ∧
        Fits (grammar.reading later) right term)) ∧
    (ofGrammar grammar).provablyDifferent mentioned left right =
      (ofGrammar grammar).provablyDifferent mentioned right left := by
  refine ⟨fun different term both => ?_, differentBy_comm (shapesOverlap_comm _) left right⟩
  exact not_fits_of_different grows acyclic.exists_patternShape different both.1 both.2

/-- Terms are values or applications; a value is a number or a variable. -/
def applications : Grammar := .ofRules
  [("e", [.nonTerminal "v" "v",
      .sequence [.nonTerminal "e" "e", .repeated (.nonTerminal "e" "e") .exhaustive]]),
    ("v", [.builtIn .number "number",
      .builtIn .variableNotOtherwiseMentioned "variable-not-otherwise-mentioned"])]

theorem acyclic_applications : applications.Acyclic := by
  let rank : Symbol → Nat := fun name => if name = "e" then 1 else 0
  have each : ∀ name ∈ applications.alternatives.keys, ∀ stem ∈ applications.aliases name,
      rank stem < rank name := by decide +kernel
  refine Grammar.acyclic_of_rank fun name stem leads => each name ?_ stem leads
  obtain ⟨_, listed, _⟩ := List.mem_filterMap.mp leads
  exact Grammar.mem_keys_of_alternative listed

/-- A sequence that starts with a value is no abstraction, also after another keyword is met. -/
theorem provablyDifferent_sound_and_symmetric_keyword :
    SymbolSet.Subset (.ofList ["lambda"]) (.ofList ["if", "lambda"]) ∧
      (ofGrammar applications).provablyDifferent (.ofList ["lambda"])
        (.sequence [.nonTerminal "v" "v_1", .repeated (.nonTerminal "e" "e_1") .exhaustive])
        (.sequence [.literal (.symbol "lambda"), .nonTerminal "e" "e_1"]) = true ∧
      ((∀ term, ¬ (Fits (applications.reading (.ofList ["if", "lambda"]))
          (.sequence [.nonTerminal "v" "v_1", .repeated (.nonTerminal "e" "e_1") .exhaustive])
          term ∧
        Fits (applications.reading (.ofList ["if", "lambda"]))
          (.sequence [.literal (.symbol "lambda"), .nonTerminal "e" "e_1"]) term)) ∧
      (ofGrammar applications).provablyDifferent (.ofList ["lambda"])
        (.sequence [.literal (.symbol "lambda"), .nonTerminal "e" "e_1"])
        (.sequence [.nonTerminal "v" "v_1", .repeated (.nonTerminal "e" "e_1") .exhaustive]) =
          true) := by
  have grows : SymbolSet.Subset (.ofList ["lambda"]) (.ofList ["if", "lambda"]) := by
    intro name
    rw [SymbolSet.contains_ofList, SymbolSet.contains_ofList]
    exact List.mem_cons_of_mem _
  have different : (ofGrammar applications).provablyDifferent (.ofList ["lambda"])
      (.sequence [.nonTerminal "v" "v_1", .repeated (.nonTerminal "e" "e_1") .exhaustive])
      (.sequence [.literal (.symbol "lambda"), .nonTerminal "e" "e_1"]) = true := by
    decide +kernel
  obtain ⟨sound, symmetric⟩ :=
    provablyDifferent_sound_and_symmetric acyclic_applications grows _ _
  exact ⟨grows, different, sound different, symmetric ▸ different⟩

end Closures

end Reduct
