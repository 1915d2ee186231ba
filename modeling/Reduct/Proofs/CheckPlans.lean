import Reduct.Proofs.SearchMatches

/-!
# Plans of checks

Checks compare each occurrence of a symbol with the one before it, at the node where the two part.
All occurrences of a symbol in one part of a pattern follow each other, so the checks inside the
part relate all of them. In a sequence a check follows the items of both its symbols, so nothing is
compared too early.
-/

namespace Reduct

namespace Pattern

/-- A path is the next place of a symbol after another. -/
def Next (root : Pattern) (symbol : Symbol) (earlier later : PatternPath) : Prop :=
  ∃ before after, placesOf symbol root.places = before ++ earlier :: later :: after

theorem Next.places {root : Pattern} {symbol : Symbol} {earlier later : PatternPath}
    (next : root.Next symbol earlier later) :
    (symbol, earlier) ∈ root.places ∧ (symbol, later) ∈ root.places := by
  obtain ⟨before, after, split⟩ := next
  rw [← mem_placesOf, ← mem_placesOf, split]
  simp

/-- A chain of checks compares the neighbours among its named places. -/
theorem mem_chainChecks {named : List (PatternPath × Symbol)} {placed : PlacedCheck} :
    ∀ {previous : Symbol} {earlier : PatternPath},
      placed ∈ chainChecks previous earlier named ↔
        ∃ before first second after,
          (earlier, previous) :: named = before ++ first :: second :: after ∧
            placed = checkPlace first.1 second.1 ⟨first.2, second.2⟩ := by
  induction named with
  | nil =>
    intro previous earlier
    refine ⟨nofun, ?_⟩
    rintro ⟨before, first, second, after, split, _⟩
    have lengths := congrArg List.length split
    simp only [List.length_cons, List.length_append, List.length_nil] at lengths
    omega
  | cons entry rest ih =>
    intro previous earlier
    obtain ⟨later, name⟩ := entry
    rw [chainChecks, List.mem_cons, ih]
    constructor
    · rintro (rfl | ⟨before, first, second, after, split, same⟩)
      · exact ⟨[], _, _, _, rfl, rfl⟩
      · exact ⟨(earlier, previous) :: before, first, second, after, by rw [split]; rfl, same⟩
    · rintro ⟨before, first, second, after, split, rfl⟩
      cases before with
      | nil =>
        cases split
        exact .inl rfl
      | cons head others =>
        injection split with _ others
        exact .inr ⟨_, first, second, after, others, rfl⟩

section Plan

variable {root : Pattern} {fresh : FreshNames}

/-- The first occurrence of a symbol keeps it. -/
theorem nameAt_first {symbol : Symbol} {first : PatternPath} {later : List PatternPath}
    (found : placesOf symbol root.places = first :: later) :
    nameAt (root.checkPlan fresh).1 first symbol = symbol := by
  have there : (symbol, first) ∈ root.places := mem_placesOf.mp (found ▸ List.mem_cons_self)
  rcases nameAt_cases fresh there with ⟨_, same⟩ | renamed
  · exact same
  · have again := path_of_mem_symbolRenames renamed
    have distinct := nodup_placesOf root symbol
    rw [found] at again distinct
    exact absurd again (List.nodup_cons.mp distinct).1

/-- The places of a symbol with their planned names. -/
theorem named_places {symbol : Symbol} {first : PatternPath} {later : List PatternPath}
    (found : placesOf symbol root.places = first :: later) :
    (first, symbol) :: freshPlaces symbol (fresh.count symbol) later =
      (first :: later).map fun path => (path, nameAt (root.checkPlan fresh).1 path symbol) := by
  have listed : freshPlaces symbol (fresh.count symbol) later =
      symbolRenames root.places fresh symbol := by
    rw [symbolRenames, found, List.tail_cons]
  have others : ∀ entry ∈ symbolRenames root.places fresh symbol,
      entry = (entry.1, nameAt (root.checkPlan fresh).1 entry.1 symbol) := by
    intro entry inside
    rw [nameAt, rename?_eq_some (mem_renames.mpr ⟨symbol, inside⟩)]
    rfl
  rw [List.map_cons, nameAt_first found, List.cons.injEq, listed]
  refine ⟨rfl, ?_⟩
  have paths : (symbolRenames root.places fresh symbol).map (·.1) = later := by
    rw [← listed, map_fst_freshPlaces]
  rw [← paths, List.map_map]
  exact (List.map_id'' (fun _ => rfl) _).symm.trans (List.map_congr_left others)

/-- The planned checks compare every place of a symbol with the next, under their names. -/
theorem mem_checks {placed : PlacedCheck} :
    placed ∈ (root.checkPlan fresh).1.checks ↔
      ∃ symbol earlier later, root.Next symbol earlier later ∧
        placed = checkPlace earlier later ⟨nameAt (root.checkPlan fresh).1 earlier symbol,
          nameAt (root.checkPlan fresh).1 later symbol⟩ := by
  have planned := (planSymbols_eq root.places root.boundSymbols ⟨[], [], []⟩ fresh
    (nodup_boundSymbols root)).2.1
  rw [List.nil_append] at planned
  have each : ∀ symbol, placed ∈ symbolChecks root.places fresh symbol ↔
      ∃ earlier later, root.Next symbol earlier later ∧
        placed = checkPlace earlier later ⟨nameAt (root.checkPlan fresh).1 earlier symbol,
          nameAt (root.checkPlan fresh).1 later symbol⟩ := by
    intro symbol
    unfold symbolChecks Next
    cases found : placesOf symbol root.places with
    | nil =>
      refine ⟨nofun, ?_⟩
      rintro ⟨earlier, later, ⟨before, after, split⟩, _⟩
      cases before <;> cases split
    | cons first others =>
      dsimp only
      rw [mem_chainChecks, named_places found]
      constructor
      · rintro ⟨before, one, two, after, split, rfl⟩
        obtain ⟨left, right, whole, _, pair⟩ := List.map_eq_append_iff.mp split
        obtain ⟨path, tail, rfl, rfl, single⟩ := List.map_eq_cons_iff.mp pair
        obtain ⟨next, others, rfl, rfl, _⟩ := List.map_eq_cons_iff.mp single
        exact ⟨path, next, ⟨left, others, whole⟩, rfl⟩
      · rintro ⟨earlier, later, ⟨before, after, split⟩, rfl⟩
        rw [split]
        simp only [List.map_append, List.map_cons]
        exact ⟨_, _, _, _, rfl, rfl⟩
  unfold checkPlan at *
  rw [planned, List.mem_flatMap]
  constructor
  · rintro ⟨symbol, _, listed⟩
    exact ⟨symbol, (each symbol).mp listed⟩
  · rintro ⟨symbol, earlier, later, next, same⟩
    refine ⟨symbol, ?_, (each symbol).mpr ⟨earlier, later, next, same⟩⟩
    rw [mem_boundSymbols, ← map_fst_places]
    exact List.mem_map.mpr ⟨_, next.places.1, rfl⟩

end Plan

/-- The part of a pattern at a path: its places are a segment of the places of the whole, and no
others start with the path. -/
def Located (root : Pattern) (path : PatternPath) (part : Pattern) : Prop :=
  ∃ before after,
    root.places = before ++ part.places.map (fun found => (found.1, path ++ found.2)) ++ after ∧
      ∀ found ∈ before ++ after, ¬ path <+: found.2

namespace Located

variable {root part : Pattern} {path : PatternPath}

theorem self (root : Pattern) : root.Located [] root := by
  refine ⟨[], [], ?_, nofun⟩
  rw [List.nil_append, List.append_nil]
  exact (List.map_id'' (fun _ => rfl) _).symm

/-- The places of the whole that start with the path are those of the part. -/
theorem mem_iff (located : root.Located path part) {symbol : Symbol} {rest : PatternPath} :
    (symbol, path ++ rest) ∈ root.places ↔ (symbol, rest) ∈ part.places := by
  obtain ⟨before, after, split, others⟩ := located
  constructor
  · intro listed
    rw [split, List.append_assoc, List.mem_append, List.mem_append] at listed
    rcases listed with early | inside | late
    · exact absurd (List.prefix_append path rest)
        (others _ (List.mem_append_left _ early))
    · obtain ⟨found, there, same⟩ := List.mem_map.mp inside
      have named : found.1 = symbol := congrArg Prod.fst same
      have placed : found.2 = rest := List.append_cancel_left (congrArg Prod.snd same)
      rwa [← named, ← placed]
    · exact absurd (List.prefix_append path rest) (others _ (List.mem_append_right _ late))
  · intro listed
    rw [split]
    exact List.mem_append_left _ (List.mem_append_right _
      (List.mem_map.mpr ⟨(symbol, rest), listed, rfl⟩))

/-- A part of a part, one step further down. -/
theorem step (located : root.Located path part) {step : PatternStep} {sub : Pattern}
    {before after : List (Symbol × PatternPath)}
    (split : part.places = before ++ sub.places.map (fun found => (found.1, step :: found.2)) ++
      after)
    (others : ∀ found ∈ before ++ after, ¬ [step] <+: found.2) :
    root.Located (path ++ [step]) sub := by
  obtain ⟨first, last, whole, apart⟩ := located
  refine ⟨first ++ before.map (fun found => (found.1, path ++ found.2)),
    after.map (fun found => (found.1, path ++ found.2)) ++ last, ?_, ?_⟩
  · rw [whole, split]
    simp only [List.map_append, List.map_map, List.append_assoc]
    congr 3
  · intro found listed below
    have inside : ∀ other ∈ before ++ after, found ≠ (other.1, path ++ other.2) := by
      rintro other among rfl
      exact others other among ((List.prefix_append_right_inj path).mp below)
    have outside : found ∈ first ++ last := by
      simp only [List.mem_append, List.mem_map] at listed ⊢
      rcases listed with (early | ⟨other, among, same⟩) | ⟨other, among, same⟩ | late
      · exact .inl early
      · exact absurd same.symm (inside other (List.mem_append_left _ among))
      · exact absurd same.symm (inside other (List.mem_append_right _ among))
      · exact .inr late
    exact apart found outside ((List.prefix_append path [step]).trans below)

theorem inner {inner : Pattern} {mode : RepeatMode}
    (located : root.Located path (.repeated inner mode)) :
    root.Located (path ++ [.inner]) inner := by
  have split : (Pattern.repeated inner mode).places =
      [] ++ inner.places.map (fun found => (found.1, .inner :: found.2)) ++ [] := by
    rw [List.nil_append, List.append_nil]
    rfl
  exact located.step split nofun

theorem context {context contents : Pattern} {checks : List Check}
    (located : root.Located path (.inHole context contents checks)) :
    root.Located (path ++ [.context]) context := by
  have split : (Pattern.inHole context contents checks).places =
      [] ++ context.places.map (fun found => (found.1, .context :: found.2)) ++
        contents.places.map (fun found => (found.1, .contents :: found.2)) := rfl
  refine located.step split fun found listed below => ?_
  obtain ⟨other, _, rfl⟩ := List.mem_map.mp listed
  cases (List.cons_prefix_cons.mp below).1

theorem contents {context contents : Pattern} {checks : List Check}
    (located : root.Located path (.inHole context contents checks)) :
    root.Located (path ++ [.contents]) contents := by
  have split : (Pattern.inHole context contents checks).places =
      context.places.map (fun found => (found.1, .context :: found.2)) ++
        contents.places.map (fun found => (found.1, .contents :: found.2)) ++ [] := by
    rw [List.append_nil]
    rfl
  refine located.step split fun found listed below => ?_
  rw [List.append_nil] at listed
  obtain ⟨other, _, rfl⟩ := List.mem_map.mp listed
  cases (List.cons_prefix_cons.mp below).1

/-- The places of one item are a segment of the places of all. -/
theorem placesFrom_split {items : List Pattern} {item : Pattern} :
    ∀ (index : Nat) {offset : Nat}, items[offset]? = some item →
      ∃ before after, placesFrom index items =
          before ++ item.places.map (fun found => (found.1, .item (index + offset) :: found.2)) ++
            after ∧
        ∀ found ∈ before ++ after, ¬ [.item (index + offset)] <+: found.2 := by
  induction items with
  | nil => nofun
  | cons first rest ih =>
    intro index offset there
    cases offset with
    | zero =>
      cases there
      refine ⟨[], placesFrom (index + 1) rest, rfl, fun found listed below => ?_⟩
      obtain ⟨offset, steps, _, same, _⟩ := placesFrom_step listed
      rw [same] at below
      have equal := (List.cons_prefix_cons.mp below).1
      injection equal with equal
      omega
    | succ offset =>
      obtain ⟨before, after, split, others⟩ := ih (index + 1) there
      rw [Nat.add_right_comm, Nat.add_assoc] at split others
      refine ⟨first.places.map (fun found => (found.1, .item index :: found.2)) ++ before, after, ?_,
        fun found listed below => ?_⟩
      · rw [placesFrom, split, List.append_assoc, List.append_assoc, List.append_assoc]
      · rw [List.append_assoc, List.mem_append] at listed
        rcases listed with early | other
        · obtain ⟨inside, _, rfl⟩ := List.mem_map.mp early
          have equal := (List.cons_prefix_cons.mp below).1
          injection equal with equal
          omega
        · exact others found other below

theorem item {items : List Pattern} (located : root.Located path (.sequence items)) {offset : Nat}
    {item : Pattern} (there : items[offset]? = some item) :
    root.Located (path ++ [.item offset]) item := by
  obtain ⟨before, after, split, others⟩ := placesFrom_split 0 there
  rw [Nat.zero_add] at split others
  exact located.step split others

/-- What is the same at neighbouring members of a list is the same at all of them. -/
theorem eq_of_neighbours {α β : Type} (image : α → β) (members : List α)
    (same : ∀ before first second after, members = before ++ first :: second :: after →
      image first = image second) :
    ∀ first ∈ members, ∀ second ∈ members, image first = image second := by
  have head : ∀ first ∈ members, members.head?.map image = some (image first) := by
    induction members with
    | nil => nofun
    | cons start rest ih =>
      refine List.forall_mem_cons.mpr ⟨rfl, fun first listed => ?_⟩
      have later := ih (fun before one two after split =>
        same (start :: before) one two after (by rw [split]; rfl)) first listed
      cases rest with
      | nil => cases listed
      | cons next others =>
        rw [← later]
        exact congrArg some (same [] start next others rfl)
  intro first left second right
  exact Option.some.inj ((head first left).symm.trans (head second right))

/-- What is the same at each place of a symbol and at the next one is the same at all places of the
symbol in one part. -/
theorem eq_of_next {α : Type} (located : root.Located path part) {symbol : Symbol}
    (image : PatternPath → α)
    (linked : ∀ earlier later, root.Next symbol (path ++ earlier) (path ++ later) →
      (symbol, earlier) ∈ part.places → (symbol, later) ∈ part.places →
      image earlier = image later) {first second : PatternPath}
    (left : (symbol, first) ∈ part.places) (right : (symbol, second) ∈ part.places) :
    image first = image second := by
  refine eq_of_neighbours image (placesOf symbol part.places) ?_ first
    (mem_placesOf.mpr left) second (mem_placesOf.mpr right)
  intro before earlier later after split
  have among : ∀ place, place ∈ before ++ earlier :: later :: after →
      (symbol, place) ∈ part.places := fun place listed => mem_placesOf.mp (split ▸ listed)
  refine linked earlier later ?_ (among _ (by simp)) (among _ (by simp))
  obtain ⟨first, last, whole, _⟩ := located
  refine ⟨placesOf symbol first ++ before.map (path ++ ·), after.map (path ++ ·) ++
    placesOf symbol last, ?_⟩
  have inside : placesOf symbol (part.places.map fun found => (found.1, path ++ found.2)) =
      (placesOf symbol part.places).map (path ++ ·) := by
    simp only [placesOf, List.filter_map, List.map_map]
    rfl
  rw [whole, placesOf, List.filter_append, List.filter_append, List.map_append, List.map_append]
  change placesOf symbol first ++ placesOf symbol (part.places.map _) ++ placesOf symbol last = _
  rw [inside, split]
  simp

end Located

theorem sharedSteps_append (path left right : PatternPath) :
    sharedSteps (path ++ left) (path ++ right) = path ++ sharedSteps left right := by
  induction path with
  | nil => rfl
  | cons step rest ih =>
    rw [List.cons_append, List.cons_append, sharedSteps, if_pos rfl, ih]
    rfl

theorem sharedSteps_prefix (left right : PatternPath) :
    sharedSteps left right <+: left ∧ sharedSteps left right <+: right := by
  induction left generalizing right with
  | nil => exact ⟨List.nil_prefix, List.nil_prefix⟩
  | cons first rest ih =>
    cases right with
    | nil => exact ⟨List.nil_prefix, List.nil_prefix⟩
    | cons second others =>
      rw [sharedSteps]
      split
      · rename_i same
        subst same
        obtain ⟨one, two⟩ := ih others
        exact ⟨List.cons_prefix_cons.mpr ⟨rfl, one⟩, List.cons_prefix_cons.mpr ⟨rfl, two⟩⟩
      · exact ⟨List.nil_prefix, List.nil_prefix⟩

/-- The item that a place lies in. -/
def itemOf : PatternPath → Option Nat
  | .item index :: _ => some index
  | _ => none

/-- The check between places that part at a node stands at the node. -/
theorem checkPlace_append {path left right : PatternPath} (apart : sharedSteps left right = [])
    (test : Check) :
    checkPlace (path ++ left) (path ++ right) test = ⟨path, itemOf right, test⟩ := by
  unfold checkPlace
  rw [sharedSteps_append, apart, List.append_nil]
  dsimp only
  rw [List.drop_left]
  rfl

/-- A plan of checks for a pattern: every place of a symbol is compared with the next, and all
places have different names. -/
structure Planned (root : Pattern) (plan : CheckPlan) : Prop where
  checks : ∀ placed, placed ∈ plan.checks ↔
    ∃ symbol earlier later, root.Next symbol earlier later ∧
      placed = checkPlace earlier later ⟨nameAt plan earlier symbol, nameAt plan later symbol⟩
  distinct : ∀ first ∈ root.places, ∀ second ∈ root.places,
    nameAt plan first.2 first.1 = nameAt plan second.2 second.1 → first = second

theorem planned_checkPlan {root : Pattern} (fresh : FreshNames)
    (plain : ∀ symbol ∈ root.occurrences, Symbol.isSynthetic symbol = false) :
    root.Planned (root.checkPlan fresh).1 where
  checks _ := mem_checks
  distinct _ left _ right same := nameAt_inj plain left right same

namespace Planned

variable {root part : Pattern} {plan : CheckPlan} {path : PatternPath}

/-- The checks at a part compare neighbouring places that part there. -/
theorem mem_checksAt (planned : root.Planned plan) (located : root.Located path part)
    {placed : PlacedCheck} :
    placed ∈ plan.checksAt path ↔ ∃ symbol earlier later,
      root.Next symbol (path ++ earlier) (path ++ later) ∧ (symbol, earlier) ∈ part.places ∧
        (symbol, later) ∈ part.places ∧ sharedSteps earlier later = [] ∧
        placed = ⟨path, itemOf later, nameAt plan (path ++ earlier) symbol,
          nameAt plan (path ++ later) symbol⟩ := by
  rw [CheckPlan.checksAt, List.mem_filter, planned.checks, decide_eq_true_iff]
  constructor
  · rintro ⟨⟨symbol, earlier, later, next, rfl⟩, here⟩
    obtain ⟨left, right⟩ := sharedSteps_prefix earlier later
    rw [show sharedSteps earlier later = path from here] at left right
    obtain ⟨earlier, rfl⟩ := left
    obtain ⟨later, rfl⟩ := right
    have apart : sharedSteps earlier later = [] := by
      have shared : sharedSteps (path ++ earlier) (path ++ later) = path := here
      rw [sharedSteps_append] at shared
      exact List.append_right_eq_self.mp shared
    obtain ⟨first, second⟩ := next.places
    exact ⟨symbol, earlier, later, next, located.mem_iff.mp first, located.mem_iff.mp second, apart,
      checkPlace_append apart _⟩
  · rintro ⟨symbol, earlier, later, next, _, _, apart, rfl⟩
    exact ⟨⟨symbol, _, _, next, (checkPlace_append apart _).symm⟩, rfl⟩

/-- The pattern with checks binds every name in a part once. -/
theorem nodup_part (planned : root.Planned plan) (located : root.Located path part) :
    (part.rebuild plan path).occurrences.Nodup := by
  rw [occurrences_rebuild]
  refine nodup_map_of_inj
    (List.Pairwise.of_map _ (fun _ _ apart same => apart (congrArg _ same)) (nodup_places part)) ?_
  intro first left second right same
  have equal := planned.distinct (first.1, path ++ first.2) (located.mem_iff.mpr left)
    (second.1, path ++ second.2) (located.mem_iff.mpr right) same
  injection equal with named placed
  exact Prod.ext named (List.append_cancel_left placed)

end Planned

/-- The name of an occurrence in a part of the pattern with checks. -/
def nameOf (plan : CheckPlan) (path : PatternPath) (found : Symbol × PatternPath) : Symbol :=
  nameAt plan (path ++ found.2) found.1

theorem nameOf_step (plan : CheckPlan) (path : PatternPath) (step : PatternStep) (symbol : Symbol)
    (rest : PatternPath) :
    nameOf plan (path ++ [step]) (symbol, rest) = nameOf plan path (symbol, step :: rest) := by
  unfold nameOf
  rw [List.append_assoc]
  rfl

section Order

variable {root : Pattern} {plan : CheckPlan}

/-- The position of a part among the parts of its node. -/
def rank : PatternStep → Nat
  | .item index => index
  | .inner => 0
  | .context => 0
  | .contents => 1

/-- Parts of one node come in the order of their positions. -/
def Ordered (earlier later : PatternPath) : Prop :=
  ∀ path first second left right, earlier = path ++ first :: left →
    later = path ++ second :: right → rank first ≤ rank second

theorem Ordered.step {earlier later : PatternPath} (ordered : Ordered earlier later)
    (step : PatternStep) : Ordered (step :: earlier) (step :: later) := by
  intro path first second left right here there
  cases path with
  | nil =>
    cases here
    cases there
    exact Nat.le_refl _
  | cons head rest =>
    injection here with _ here
    injection there with _ there
    exact ordered rest first second left right here there

theorem ordered_of_ne {one two : PatternStep} (apart : one ≠ two)
    (before : rank one ≤ rank two) (earlier later : PatternPath) :
    Ordered (one :: earlier) (two :: later) := by
  intro path first second left right here there
  cases path with
  | nil =>
    injection here with here
    injection there with there
    rw [← here, ← there]
    exact before
  | cons head rest =>
    injection here with here
    injection there with there
    exact absurd (here.trans there.symm) apart

theorem ordered_wrapped (step : PatternStep) {found : List (Symbol × PatternPath)}
    (ordered : (found.map (·.2)).Pairwise Ordered) :
    ((found.map fun place => (place.1, step :: place.2)).map (·.2)).Pairwise Ordered := by
  have paths : ((found.map (·.2)).map (step :: ·)).Pairwise Ordered :=
    List.Pairwise.map _ (fun _ _ before => before.step step) ordered
  rw [List.map_map] at paths ⊢
  exact paths

mutual

/-- The places of a pattern come in the order of the parts that they lie in. -/
theorem ordered_places : (pattern : Pattern) → (pattern.places.map (·.2)).Pairwise Ordered
  | .literal _ | .check _ | .unresolved _ => .nil
  | .nonTerminal .. => List.pairwise_singleton _ _
  | .builtIn kind symbol => by
    cases bindable : kind.isBindable <;> simp [places, bindingSymbol?, bindable]
  | .sequence items => ordered_placesFrom 0 items
  | .repeated inner _ => ordered_wrapped .inner (ordered_places inner)
  | .inHole context contents _ => by
    rw [places, List.map_append, List.pairwise_append]
    refine ⟨ordered_wrapped .context (ordered_places context),
      ordered_wrapped .contents (ordered_places contents), ?_⟩
    intro first left second right
    rw [List.map_map] at left right
    obtain ⟨_, _, rfl⟩ := List.mem_map.mp left
    obtain ⟨_, _, rfl⟩ := List.mem_map.mp right
    refine ordered_of_ne (fun same => ?_) ?_ _ _
    · cases same
    · exact Nat.zero_le 1

theorem ordered_placesFrom (index : Nat) : (items : List Pattern) →
    ((placesFrom index items).map (·.2)).Pairwise Ordered
  | [] => .nil
  | item :: rest => by
    rw [placesFrom, List.map_append, List.pairwise_append]
    refine ⟨ordered_wrapped (.item index) (ordered_places item),
      ordered_placesFrom (index + 1) rest, ?_⟩
    intro first left second right
    rw [List.map_map] at left
    obtain ⟨_, _, rfl⟩ := List.mem_map.mp left
    obtain ⟨found, listed, rfl⟩ := List.mem_map.mp right
    obtain ⟨offset, path, _, steps, _, _⟩ := placesFrom_step listed
    rw [steps]
    refine ordered_of_ne (fun same => ?_) ?_ _ _
    · injection same with same
      omega
    · rw [rank, rank]
      omega

end

theorem Next.ordered {symbol : Symbol} {earlier later : PatternPath}
    (next : root.Next symbol earlier later) : Ordered earlier later := by
  obtain ⟨before, after, split⟩ := next
  have all : (placesOf symbol root.places).Pairwise Ordered :=
    (ordered_places root).sublist ((List.filter_sublist).map _)
  rw [split, List.pairwise_append, List.pairwise_cons] at all
  exact all.2.1.1 later List.mem_cons_self

section Scope

variable {path : PatternPath}

theorem isCheck_rebuild (plan : CheckPlan) (path : PatternPath) (item : Pattern) :
    (item.rebuild plan path).isCheck = item.isCheck := by
  cases item with
  | sequence | repeated | inHole => rfl
  | literal | nonTerminal | builtIn | check | unresolved =>
    simp only [rebuild]
    split <;> rfl

theorem scopedAll_checks {known : List Symbol} {checks : List PlacedCheck} {items : List Pattern}
    (each : ∀ placed ∈ checks, placed.test.left ∈ known ∧ placed.test.right ∈ known)
    (others : ScopedAll known items) :
    ScopedAll known ((checks.map fun placed => .check placed.test) ++ items) := by
  induction checks with
  | nil => exact others
  | cons placed rest ih =>
    obtain ⟨here, later⟩ := List.forall_mem_cons.mp each
    exact scopedAll_check.mpr ⟨here.1, here.2, ih later⟩

/-- Every check of a sequence follows the items of both its symbols. -/
theorem Planned.scopedAll (planned : root.Planned plan) {all : List Pattern}
    (located : root.Located path (.sequence all)) (free : ∀ test, .check test ∉ all)
    (each : ∀ offset (item : Pattern), all[offset]? = some item →
      (item.rebuild plan (path ++ [.item offset])).Scoped) (items : List Pattern) :
    ∀ (index : Nat) (known : List Symbol), all.drop index = items →
      (∀ symbol position rest, (symbol, .item position :: rest) ∈ placesFrom 0 all →
        position < index → nameOf plan path (symbol, .item position :: rest) ∈ known) →
      ScopedAll known (rebuildFrom plan path index items) := by
  induction items with
  | nil => exact fun _ _ _ _ => trivial
  | cons item rest ih =>
    intro index known split before
    have there : all[index]? = some item := by
      rw [← List.head?_drop, split]
      rfl
    have kept : (item.rebuild plan (path ++ [.item index])).isCheck = false := by
      rw [isCheck_rebuild]
      cases item with
      | check test => exact absurd (List.mem_of_getElem? there) (free test)
      | _ => rfl
    have upTo : ∀ symbol position rest, (symbol, .item position :: rest) ∈ placesFrom 0 all →
        position < index + 1 → nameOf plan path (symbol, .item position :: rest) ∈
          known ++ (item.rebuild plan (path ++ [.item index])).occurrences := by
      intro symbol position rest listed below
      rcases Nat.lt_or_eq_of_le (Nat.le_of_lt_succ below) with earlier | rfl
      · exact List.mem_append_left _ (before symbol position rest listed earlier)
      · obtain ⟨offset, steps, other, same, found, inside⟩ := placesFrom_step listed
        rw [Nat.zero_add] at same
        cases same
        rw [there] at found
        cases found
        refine List.mem_append_right _ ?_
        rw [occurrences_rebuild, ← nameOf_step]
        exact List.mem_map.mpr ⟨_, inside, rfl⟩
    rw [rebuildFrom, List.cons_append, scopedAll_item kept]
    refine ⟨each index item there, scopedAll_checks (fun placed listed => ?_)
      (ih (index + 1) _ ?_ upTo)⟩
    · obtain ⟨atNode, after⟩ := List.mem_filter.mp listed
      obtain ⟨symbol, earlier, later, next, left, right, _, rfl⟩ :=
        (planned.mem_checksAt located).mp atNode
      obtain ⟨first, steps, _, rfl, _⟩ := placesFrom_step left
      obtain ⟨second, others, _, rfl, _⟩ := placesFrom_step right
      have same := Option.some.inj (of_decide_eq_true after)
      have order := next.ordered path _ _ _ _ rfl rfl
      rw [rank, rank] at order
      exact ⟨upTo _ _ _ left (by omega), upTo _ _ _ right (by omega)⟩
    · rw [← List.tail_drop, split]
      rfl

/-- A pattern with its checks compares nothing too early. -/
theorem Planned.scoped (planned : root.Planned plan) {part : Pattern} :
    part.tests = [] → ∀ path, root.Located path part → (part.rebuild plan path).Scoped := by
  induction part using Pattern.induction with
  | literal _ | nonTerminal _ _ | builtIn _ _ | unresolved _ =>
    intro _ path _
    simp only [rebuild]
    split <;> trivial
  | sequence items each _ =>
    intro free path located
    have inside := tests_of_mem free
    refine planned.scopedAll located (fun test listed => ?_) (fun offset item there => ?_) items 0 []
      rfl fun _ _ _ _ below => absurd below (Nat.not_lt_zero _)
    · cases inside _ listed
    · have listed := List.mem_of_getElem? there
      exact each item listed (inside item listed) _ (located.item there)
  | repeated inner mode ih => exact fun free path located => ih free _ located.inner
  | inHole context contents checks outer inner =>
    intro free path located
    obtain ⟨both, none⟩ := List.append_eq_nil_iff.mp free
    obtain ⟨left, right⟩ := List.append_eq_nil_iff.mp both
    subst none
    refine ⟨outer left _ located.context, inner right _ located.contents, fun test listed => ?_⟩
    obtain ⟨placed, there, rfl⟩ := List.mem_map.mp listed
    obtain ⟨symbol, earlier, later, _, first, second, _, rfl⟩ :=
      (planned.mem_checksAt located).mp there
    have names := occurrences_rebuild plan path (.inHole context contents [])
    rw [rebuild, occurrences] at names
    rw [names]
    exact ⟨List.mem_map.mpr ⟨_, first, rfl⟩, List.mem_map.mpr ⟨_, second, rfl⟩⟩
  | check test => exact fun free => absurd free (List.cons_ne_nil _ _)

end Scope

/-- The pattern with checks compares nothing too early. -/
theorem scoped_insertChecks (fresh : FreshNames)
    (plain : ∀ symbol ∈ root.occurrences, Symbol.isSynthetic symbol = false)
    (free : root.tests = []) : (root.insertChecks fresh).1.pattern.Scoped :=
  (planned_checkPlan fresh plain).scoped free [] (Located.self root)

end Order

end Pattern

end Reduct
