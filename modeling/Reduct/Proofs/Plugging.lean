import Reduct.Term.Checked

/-!
# Holes, paths and plugging

Replacing the subterm at a path and reading it back are inverse, and replacing changes the number
of holes by what is put in and taken out. The first hole of a term is found exactly when there is
one. With a single hole, the path of the hole is the only one that leads to a hole, so cutting a
subterm out of a term and plugging it back are inverse. The listing of subterms has every path
once, in increasing order.
-/

namespace Reduct.Term

/-- Induction over terms along a walk through them, with a statement about consecutive children, the
first at a position. -/
theorem walkInduction {motive : Term → Prop} (children : Nat → List Term → Prop)
    (atom : ∀ value, motive (.atom value)) (hole : motive .hole)
    (sequence : ∀ items, children 0 items → motive (.sequence items))
    (nil : ∀ start, children start [])
    (cons : ∀ start item rest, motive item → children (start + 1) rest →
      children start (item :: rest)) (term : Term) : motive term := by
  induction term using Term.induction with
  | atom value => exact atom value
  | hole => exact hole
  | sequence items ih =>
    have each : ∀ (rest : List Term) (start : Nat), (∀ item ∈ rest, motive item) →
        children start rest := by
      intro rest
      induction rest with
      | nil => exact fun start _ => nil start
      | cons item rest tail =>
        intro start known
        have others := tail (start + 1) fun other listed =>
          known other (List.mem_cons_of_mem _ listed)
        exact cons start item rest (known item List.mem_cons_self) others
    exact sequence items (each items 0 ih)

/-- The subterm behind the first step of a path. -/
theorem subterm?_cons {term found : Term} {index : Nat} {rest : Path} :
    term.subterm? (index :: rest) = some found ↔
      ∃ items item, term = .sequence items ∧ items[index]? = some item ∧
        item.subterm? rest = some found := by
  constructor
  · intro reached
    cases term with
    | sequence items =>
      rw [subterm?_sequence] at reached
      obtain ⟨item, listed, below⟩ := Option.bind_eq_some_iff.mp reached
      exact ⟨items, item, rfl, listed, below⟩
    | atom value => cases reached
    | hole => cases reached
  · rintro ⟨items, item, rfl, listed, reached⟩
    rw [subterm?_sequence, listed]
    exact reached

/-- A replacement behind the first step of a path. -/
theorem replace?_cons {term result replacement : Term} {index : Nat} {rest : Path} :
    term.replace? (index :: rest) replacement = some result ↔
      ∃ items item child, term = .sequence items ∧ items[index]? = some item ∧
        item.replace? rest replacement = some child ∧
        result = .sequence (items.set index child) := by
  constructor
  · intro replaced
    cases term with
    | sequence items =>
      rw [replace?_sequence] at replaced
      obtain ⟨item, listed, below⟩ := Option.bind_eq_some_iff.mp replaced
      obtain ⟨child, found, rfl⟩ := Option.map_eq_some_iff.mp below
      exact ⟨items, item, child, rfl, listed, found, rfl⟩
    | atom value => cases replaced
    | hole => cases replaced
  · rintro ⟨items, item, child, rfl, listed, found, rfl⟩
    rw [replace?_sequence, listed]
    change (item.replace? rest replacement).map _ = _
    rw [found]
    rfl

/-- A term can be replaced at a path exactly when a subterm is there. -/
theorem exists_replace?_iff {path : Path} {term : Term} (replacement : Term) :
    (∃ result, term.replace? path replacement = some result) ↔
      ∃ found, term.subterm? path = some found := by
  induction path generalizing term with
  | nil => simp [replace?_nil, subterm?_nil]
  | cons index rest ih =>
    constructor
    · rintro ⟨result, replaced⟩
      obtain ⟨items, item, child, rfl, listed, inner, rfl⟩ := replace?_cons.mp replaced
      obtain ⟨found, reached⟩ := ih.mp ⟨child, inner⟩
      exact ⟨found, subterm?_cons.mpr ⟨items, item, rfl, listed, reached⟩⟩
    · rintro ⟨found, reached⟩
      obtain ⟨items, item, rfl, listed, inner⟩ := subterm?_cons.mp reached
      obtain ⟨child, replaced⟩ := ih.mpr ⟨found, inner⟩
      exact ⟨_, replace?_cons.mpr ⟨items, item, child, rfl, listed, replaced, rfl⟩⟩

/-- After a replacement the replacement stands at its path. -/
theorem subterm?_replace? {path : Path} {term result replacement : Term}
    (replaced : term.replace? path replacement = some result) :
    result.subterm? path = some replacement := by
  induction path generalizing term result with
  | nil =>
    rw [replace?_nil] at replaced
    rw [← Option.some.inj replaced, subterm?_nil]
  | cons index rest ih =>
    obtain ⟨items, item, child, rfl, listed, inner, rfl⟩ := replace?_cons.mp replaced
    have inside : index < items.length := (List.getElem?_eq_some_iff.mp listed).1
    refine subterm?_cons.mpr ⟨_, child, rfl, ?_, ih inner⟩
    rw [List.getElem?_set_self inside]

/-- Of two replacements at one path the later one counts. -/
theorem replace?_replace? {path : Path} {term result replacement : Term}
    (replaced : term.replace? path replacement = some result) (other : Term) :
    result.replace? path other = term.replace? path other := by
  induction path generalizing term result with
  | nil => rw [replace?_nil, replace?_nil]
  | cons index rest ih =>
    obtain ⟨items, item, child, rfl, listed, inner, rfl⟩ := replace?_cons.mp replaced
    have inside : index < items.length := (List.getElem?_eq_some_iff.mp listed).1
    have same := ih inner
    simp only [replace?_sequence, listed, List.getElem?_set_self inside, List.set_set,
      Option.bind_some]
    rw [same]

/-- Replacing a subterm by itself changes nothing. -/
theorem replace?_self {path : Path} {term found : Term}
    (reached : term.subterm? path = some found) : term.replace? path found = some term := by
  induction path generalizing term with
  | nil =>
    rw [subterm?_nil] at reached
    rw [replace?_nil, reached]
  | cons index rest ih =>
    obtain ⟨items, item, rfl, listed, inner⟩ := subterm?_cons.mp reached
    refine replace?_cons.mpr ⟨items, item, item, rfl, listed, ih inner, ?_⟩
    obtain ⟨inside, rfl⟩ := List.getElem?_eq_some_iff.mp listed
    rw [List.set_getElem_self inside]

theorem holesAll_append (first second : List Term) :
    holesAll (first ++ second) = holesAll first + holesAll second := by
  induction first with
  | nil => rw [List.nil_append, holesAll_nil, Nat.zero_add]
  | cons item rest ih =>
    rw [List.cons_append, holesAll_cons, holesAll_cons, ih]
    omega

/-- Exchanging one item exchanges its holes. -/
theorem holesAll_set {items : List Term} {index : Nat} {item : Term}
    (listed : items[index]? = some item) (child : Term) :
    holesAll (items.set index child) + item.holes = holesAll items + child.holes := by
  induction items generalizing index with
  | nil => cases listed
  | cons first rest ih =>
    cases index with
    | zero =>
      simp only [List.getElem?_cons_zero, Option.some.injEq] at listed
      rw [List.set_cons_zero, holesAll_cons, holesAll_cons, listed]
      omega
    | succ index =>
      have tail := ih (show rest[index]? = some item by simpa using listed)
      rw [List.set_cons_succ, holesAll_cons, holesAll_cons]
      omega

/-- Replacing a subterm exchanges its holes. -/
theorem holes_replace? {path : Path} {term result found replacement : Term}
    (reached : term.subterm? path = some found)
    (replaced : term.replace? path replacement = some result) :
    result.holes + found.holes = term.holes + replacement.holes := by
  induction path generalizing term result with
  | nil =>
    rw [subterm?_nil, Option.some.injEq] at reached
    rw [replace?_nil, Option.some.injEq] at replaced
    rw [replaced, reached]
    omega
  | cons index rest ih =>
    obtain ⟨items, item, child, rfl, listed, inner, rfl⟩ := replace?_cons.mp replaced
    obtain ⟨_, _, ⟨⟩, there, below⟩ := subterm?_cons.mp reached
    obtain rfl := Option.some.inj (listed.symm.trans there)
    have exchange := holesAll_set listed child
    have within := ih below inner
    rw [holes_sequence, holes_sequence]
    omega

/-- The holes of an item are among those of the list. -/
theorem holes_le_holesAll {items : List Term} {index : Nat} {item : Term}
    (listed : items[index]? = some item) : item.holes ≤ holesAll items := by
  have exchange := holesAll_set listed (.sequence [])
  rw [holes_sequence, holesAll_nil] at exchange
  omega

/-- A term is no smaller in holes than any of its subterms. -/
theorem holes_subterm?_le {path : Path} {term found : Term}
    (reached : term.subterm? path = some found) : found.holes ≤ term.holes := by
  induction path generalizing term with
  | nil =>
    rw [subterm?_nil] at reached
    exact Nat.le_of_eq (by rw [Option.some.inj reached])
  | cons index rest ih =>
    obtain ⟨items, item, rfl, listed, inner⟩ := subterm?_cons.mp reached
    have bound := holes_le_holesAll listed
    have within := ih inner
    rw [holes_sequence]
    omega

/-- No hole is found exactly in terms without holes. -/
theorem findHole_eq_none {term : Term} : term.findHole = none ↔ term.holes = 0 := by
  refine walkInduction (motive := fun term => term.findHole = none ↔ term.holes = 0)
    (fun start items => findHoleFrom start items = none ↔ holesAll items = 0)
    ?atom ?hole ?sequence ?nil ?cons term
  case atom => exact fun value => iff_of_true rfl rfl
  case hole => exact iff_of_false (Option.some_ne_none _) Nat.one_ne_zero
  case sequence => exact fun items each => each
  case nil => exact fun start => iff_of_true rfl rfl
  case cons =>
    intro start item rest first others
    rw [findHoleFrom_cons, holesAll_cons]
    cases search : item.findHole with
    | none =>
      have empty := first.mp search
      simp only [others, empty, Nat.zero_add]
    | some path =>
      have some : item.holes ≠ 0 := fun none => by
        rw [first.mpr none] at search
        cases search
      simp only [reduceCtorEq, false_iff]
      omega

/-- The first hole of consecutive items is the first hole of an item before which there are
none. -/
theorem findHoleFrom_eq_some {items : List Term} {start : Nat} {path : Path} :
    findHoleFrom start items = some path ↔
      ∃ before item after rest, items = before ++ item :: after ∧ holesAll before = 0 ∧
        item.findHole = some rest ∧ path = (start + before.length) :: rest := by
  induction items generalizing start with
  | nil => simp [findHoleFrom]
  | cons first others ih =>
    rw [findHoleFrom_cons]
    cases search : first.findHole with
    | some found =>
      simp only [Option.some.injEq]
      constructor
      · rintro rfl
        exact ⟨[], first, others, found, rfl, rfl, search, rfl⟩
      · rintro ⟨before, item, after, rest, split, none, inner, rfl⟩
        cases before with
        | nil =>
          obtain ⟨rfl, rfl⟩ := List.cons.inj split
          rw [search] at inner
          rw [Option.some.inj inner]
          rfl
        | cons head tail =>
          obtain ⟨rfl, rfl⟩ := List.cons.inj split
          rw [holesAll_cons] at none
          have empty := findHole_eq_none.mpr (show first.holes = 0 by omega)
          rw [search] at empty
          cases empty
    | none =>
      have empty := findHole_eq_none.mp search
      simp only [ih]
      constructor
      · rintro ⟨before, item, after, rest, rfl, none, inner, rfl⟩
        refine ⟨first :: before, item, after, rest, rfl, ?_, inner, ?_⟩
        · rw [holesAll_cons, empty, none]
        · rw [List.length_cons, Nat.add_assoc, Nat.add_comm 1]
      · rintro ⟨before, item, after, rest, split, none, inner, rfl⟩
        cases before with
        | nil =>
          obtain ⟨rfl, rfl⟩ := List.cons.inj split
          rw [search] at inner
          cases inner
        | cons head tail =>
          obtain ⟨rfl, rfl⟩ := List.cons.inj split
          rw [holesAll_cons] at none
          refine ⟨tail, item, after, rest, rfl, by omega, inner, ?_⟩
          rw [List.length_cons, Nat.add_assoc, Nat.add_comm 1]

/-- The path of the first hole leads to a hole. -/
theorem subterm?_findHole {term : Term} {path : Path} (search : term.findHole = some path) :
    term.subterm? path = some .hole := by
  induction path generalizing term with
  | nil =>
    cases term with
    | hole => rfl
    | atom value => cases search
    | sequence items =>
      rw [findHole_sequence, findHoleFrom_eq_some] at search
      obtain ⟨_, _, _, _, _, _, _, mismatch⟩ := search
      cases mismatch
  | cons index rest ih =>
    cases term with
    | hole => cases search
    | atom value => cases search
    | sequence items =>
      rw [findHole_sequence, findHoleFrom_eq_some] at search
      obtain ⟨before, item, after, below, rfl, _, inner, same⟩ := search
      obtain ⟨rfl, rfl⟩ := List.cons.inj same
      exact subterm?_cons.mpr ⟨_, item, rfl, by simp, ih inner⟩

/-- In a term with a single hole, a path that leads to a hole is the path of the first hole. -/
theorem findHole_of_single {path : Path} {term : Term} (single : term.holes = 1)
    (reached : term.subterm? path = some .hole) : term.findHole = some path := by
  induction path generalizing term with
  | nil =>
    rw [subterm?_nil] at reached
    rw [Option.some.inj reached]
    rfl
  | cons index rest ih =>
    obtain ⟨items, item, rfl, listed, inner⟩ := subterm?_cons.mp reached
    obtain ⟨inside, rfl⟩ := List.getElem?_eq_some_iff.mp listed
    have split : items = items.take index ++ items[index] :: items.drop (index + 1) := by
      rw [List.getElem_cons_drop, List.take_append_drop]
    have positive := holes_subterm?_le inner
    have total : holesAll (items.take index) + ((items.get ⟨index, inside⟩).holes +
        holesAll (items.drop (index + 1))) = 1 := by
      rw [holes_sequence, split, holesAll_append, holesAll_cons] at single
      exact single
    rw [show holes .hole = 1 from rfl] at positive
    have one : items[index].holes = 1 := by
      change 1 ≤ (items.get ⟨index, inside⟩).holes at positive
      change (items.get ⟨index, inside⟩).holes = 1
      omega
    rw [findHole_sequence, findHoleFrom_eq_some]
    refine ⟨items.take index, items[index], items.drop (index + 1), rest, split, ?_, ih one inner,
      ?_⟩
    · change (items.get ⟨index, inside⟩).holes = 1 at one
      omega
    · rw [List.length_take, Nat.min_eq_left (Nat.le_of_lt inside), Nat.zero_add]

/-- Plugging exchanges one hole of the context for the holes of the contents. -/
theorem holes_plug? {context contents term : Term} (plugged : context.plug? contents = some term) :
    term.holes + 1 = context.holes + contents.holes := by
  obtain ⟨path, search, replaced⟩ := Option.bind_eq_some_iff.mp plugged
  exact holes_replace? (subterm?_findHole search) replaced

/-- Every context with a hole can be plugged. -/
theorem exists_plug? {context : Term} (holed : 0 < context.holes) (contents : Term) :
    ∃ term, context.plug? contents = some term := by
  cases search : context.findHole with
  | none =>
    rw [findHole_eq_none] at search
    omega
  | some path =>
    obtain ⟨term, replaced⟩ := (exists_replace?_iff contents).mpr ⟨_, subterm?_findHole search⟩
    exact ⟨term, by rw [plug?, search]; exact replaced⟩

/-- What was plugged in stands at the path of the hole, and cutting it out gives the context. -/
theorem cut_of_plug? {context contents term : Term} (plugged : context.plug? contents = some term) :
    ∃ path, term.subterm? path = some contents ∧ term.replace? path .hole = some context := by
  obtain ⟨path, search, replaced⟩ := Option.bind_eq_some_iff.mp plugged
  refine ⟨path, subterm?_replace? replaced, ?_⟩
  rw [replace?_replace? replaced]
  exact replace?_self (subterm?_findHole search)

/-- Cutting out a subterm so that a single hole is left, and plugging it back, gives the term. -/
theorem plug?_of_cut {path : Path} {context contents term : Term}
    (reached : term.subterm? path = some contents)
    (cut : term.replace? path .hole = some context) (single : context.holes = 1) :
    context.plug? contents = some term := by
  have search := findHole_of_single single (subterm?_replace? cut)
  rw [plug?, search]
  change context.replace? path contents = some term
  rw [replace?_replace? cut]
  exact replace?_self reached

/-- A term decomposes into a context and contents: the contents stand at a path where the context
has a hole, and everything else is the same. -/
def Decomposes (term context contents : Term) : Prop :=
  ∃ path, term.subterm? path = some contents ∧ term.replace? path .hole = some context

/-- The holes of a term are those of its context, but the one that is filled, and those of the
contents. -/
theorem Decomposes.holes {term context contents : Term}
    (decomposed : term.Decomposes context contents) :
    term.holes + 1 = context.holes + contents.holes := by
  obtain ⟨path, reached, cut⟩ := decomposed
  exact (holes_replace? reached cut).symm

/-- A context with a single hole decomposes from a term exactly when plugging gives the term. -/
theorem decomposes_iff_plug? {term context contents : Term} (single : context.holes = 1) :
    term.Decomposes context contents ↔ context.plug? contents = some term := by
  constructor
  · rintro ⟨path, reached, cut⟩
    exact plug?_of_cut reached cut single
  · exact cut_of_plug?

/-- Every context with a hole is part of a decomposition. -/
theorem exists_decomposes {context : Term} (holed : 0 < context.holes) (contents : Term) :
    ∃ term : Term, term.Decomposes context contents := by
  obtain ⟨term, plugged⟩ := exists_plug? holed contents
  exact ⟨term, cut_of_plug? plugged⟩

/-- The subterms of consecutive items are those of each item, behind its position. -/
theorem mem_subtermsFrom {items : List Term} {start : Nat} {path : Path} {found : Term} :
    (path, found) ∈ subtermsFrom start items ↔
      ∃ index item rest, items[index]? = some item ∧ (rest, found) ∈ item.subterms ∧
        path = (start + index) :: rest := by
  induction items generalizing start with
  | nil => simp [subtermsFrom]
  | cons first others ih =>
    rw [subtermsFrom_cons, List.mem_append, ih, List.mem_map]
    constructor
    · rintro (⟨⟨rest, _⟩, listed, same⟩ | ⟨index, item, rest, there, listed, rfl⟩)
      · obtain ⟨rfl, rfl⟩ := Prod.mk.inj same
        exact ⟨0, first, rest, rfl, listed, rfl⟩
      · refine ⟨index + 1, item, rest, by simpa using there, listed, ?_⟩
        rw [Nat.add_assoc, Nat.add_comm 1]
    · rintro ⟨index, item, rest, there, listed, rfl⟩
      cases index with
      | zero =>
        obtain rfl : first = item := by simpa using there
        exact .inl ⟨(rest, found), listed, rfl⟩
      | succ index =>
        refine .inr ⟨index, item, rest, by simpa using there, listed, ?_⟩
        rw [Nat.add_assoc, Nat.add_comm 1]

/-- The listing of subterms holds the subterm at every path, and nothing else. -/
theorem mem_subterms {term : Term} :
    ∀ {path : Path} {found : Term}, (path, found) ∈ term.subterms ↔
      term.subterm? path = some found := by
  induction term using Term.induction with
  | atom value =>
    intro path found
    cases path <;> simp [subterms, subterm?, eq_comm]
  | hole =>
    intro path found
    cases path <;> simp [subterms, subterm?, eq_comm]
  | sequence items ih =>
    intro path found
    rw [subterms_sequence, List.mem_cons, mem_subtermsFrom]
    cases path with
    | nil => simp [subterm?_nil, eq_comm]
    | cons index rest =>
      rw [subterm?_cons]
      constructor
      · rintro (same | ⟨position, item, below, there, listed, same⟩)
        · cases same
        · obtain ⟨rfl, rfl⟩ := List.cons.inj same
          rw [Nat.zero_add]
          exact ⟨items, item, rfl, there, (ih item (List.mem_of_getElem? there)).mp listed⟩
      · rintro ⟨_, item, ⟨⟩, there, reached⟩
        refine .inr ⟨index, item, rest, there, ?_, by rw [Nat.zero_add]⟩
        exact (ih item (List.mem_of_getElem? there)).mpr reached

/-- The paths of the listing increase: a path stands before those that go on from it, and a smaller
position before a greater one. -/
theorem increasing_subterms {term : Term} :
    (term.subterms.map (·.1)).Pairwise (List.Lex (· < ·)) := by
  refine walkInduction
    (motive := fun term => (term.subterms.map (·.1)).Pairwise (List.Lex (· < ·)))
    (fun start items => ((subtermsFrom start items).map (·.1)).Pairwise (List.Lex (· < ·)))
    ?atom ?hole ?sequence ?nil ?cons term
  case atom => exact fun value => List.pairwise_singleton _ _
  case hole => exact List.pairwise_singleton _ _
  case sequence =>
    intro items each
    rw [subterms_sequence, List.map_cons, List.pairwise_cons]
    refine ⟨?_, each⟩
    intro path root
    obtain ⟨⟨_, other⟩, listed, rfl⟩ := List.mem_map.mp root
    obtain ⟨index, _, below, _, _, rfl⟩ := mem_subtermsFrom.mp listed
    exact .nil
  case nil => exact fun start => List.Pairwise.nil
  case cons =>
    intro start item rest paths others
    have first := List.Pairwise.map (S := List.Lex (· < ·)) (start :: ·)
      (fun left right less => .cons less) paths
    rw [List.map_map] at first
    rw [subtermsFrom_cons, List.map_append, List.map_map, List.pairwise_append]
    refine ⟨first, others, ?_⟩
    intro left here right there
    obtain ⟨found, _, rfl⟩ := List.mem_map.mp here
    obtain ⟨⟨path, other⟩, listed, rfl⟩ := List.mem_map.mp there
    obtain ⟨index, _, below, _, _, rfl⟩ := mem_subtermsFrom.mp listed
    exact .rel (by omega)

/-- Every path is listed once among the subterms. -/
theorem nodup_subterms {term : Term} : (term.subterms.map (·.1)).Nodup := by
  refine increasing_subterms.imp ?_
  rintro path _ less rfl
  exact List.lex_irrefl Nat.lt_irrefl path less

end Reduct.Term
