import Reduct.Proofs.ReadingBack

/-!
# Sequences with ellipses

In a sequence an ellipsis repeats the item before it, and patterns and templates share the fold that
finds this out. A sequence is converted exactly if every ellipsis follows another item and all else
is converted. What comes of it is written as the items are, and the places of the items play no part
in it.
-/

namespace Reduct

namespace Text

theorem spaced_cons_cons (first second : String) (rest : List String) :
    spaced (first :: second :: rest) = first ++ " " ++ spaced (second :: rest) :=
  String.intercalate_cons_cons

/-- Parts go on in the same way after equal parts. -/
theorem spaced_cons_congr (part : String) {rest others : List String}
    (empty : rest = [] ↔ others = []) (same : spaced rest = spaced others) :
    spaced (part :: rest) = spaced (part :: others) := by
  cases rest with
  | nil => rw [empty.mp rfl]
  | cons first rest =>
    cases others with
    | nil => cases empty.mpr rfl
    | cons second others => rw [spaced_cons_cons, spaced_cons_cons, same]

/-- A part with a blank in it is two parts. -/
theorem spaced_split (first second : String) (rest : List String) :
    spaced ((first ++ " " ++ second) :: rest) = spaced (first :: second :: rest) := by
  rw [spaced_cons_cons, spaced, join, String.intercalate_cons_append]
  rfl

end Text

namespace Sexp

/-- Induction over expressions, with a hypothesis for every item of a list. -/
theorem induction {motive : Sexp → Prop} (atom : ∀ value span, motive (.atom value span))
    (list : ∀ items span, (∀ item ∈ items, motive item) → motive (.list items span)) :
    ∀ sexp, motive sexp
  | .atom value span => atom value span
  | .list items span => list items span fun item _ => induction atom list item

/-! ## Expressions without their places -/

mutual

/-- An expression without its places. -/
def bare : Sexp → Sexp
  | .atom value _ => .atom value default
  | .list items _ => .list (bareAll items) default

/-- Expressions without their places. -/
def bareAll : List Sexp → List Sexp
  | [] => []
  | item :: rest => item.bare :: bareAll rest

end

theorem bareAll_eq_map (items : List Sexp) : bareAll items = items.map bare := by
  induction items with
  | nil => rfl
  | cons item rest ih => rw [bareAll, ih, List.map_cons]

theorem symbol?_bare (sexp : Sexp) : sexp.bare.symbol? = sexp.symbol? := by
  cases sexp with
  | atom value span => cases value <;> rfl
  | list items span => rfl

theorem symbol?_of_bare {one two : Sexp} (same : two.bare = one.bare) :
    two.symbol? = one.symbol? := by
  rw [← symbol?_bare two, same, symbol?_bare]

theorem isSymbol_of_bare {one two : Sexp} (same : two.bare = one.bare) (name : Symbol) :
    two.isSymbol name = one.isSymbol name := by
  rw [isSymbol, symbol?_of_bare same, isSymbol]

theorem symbols?_of_bare : ∀ {items others : List Sexp}, others.map bare = items.map bare →
    symbols? others = symbols? items
  | [], [], _ => rfl
  | [], _ :: _, same | _ :: _, [], same => nomatch same
  | item :: rest, other :: others, same => by
    obtain ⟨here, later⟩ := List.cons.inj same
    rw [symbols?, symbols?, symbol?_of_bare here, symbols?_of_bare later]

theorem head?_of_bare {items others : List Sexp} {one two : Span}
    (same : others.map bare = items.map bare) :
    (Sexp.list others two).head? = (Sexp.list items one).head? := by
  cases items with
  | nil =>
    cases others with
    | nil => rfl
    | cons => cases same
  | cons item rest =>
    cases others with
    | nil => cases same
    | cons other others => exact symbol?_of_bare (List.cons.inj same).1

mutual

/-- The expression that writes a term, without a place. -/
def ofTerm : Term → Sexp
  | .atom value => .atom value default
  | .hole => .atom (.symbol "hole") default
  | .sequence items => .list (ofTerms items) default

/-- The expressions that write terms, without places. -/
def ofTerms : List Term → List Sexp
  | [] => []
  | term :: rest => ofTerm term :: ofTerms rest

end

mutual

/-- An expression is told by the term that it writes, up to its places. -/
theorem ofTerm_toTerm : (sexp : Sexp) → ofTerm sexp.toTerm = sexp.bare
  | .atom value span => by
    cases value with
    | symbol name =>
      rw [toTerm]
      split
      · rename_i named
        rw [named]
        rfl
      · rfl
    | _ => rfl
  | .list items span => by rw [toTerm, ofTerm, ofTerms_toTerms items, bare]

theorem ofTerms_toTerms : (items : List Sexp) → ofTerms (toTerms items) = bareAll items
  | [] => rfl
  | item :: rest => by rw [toTerms, ofTerms, ofTerm_toTerm item, ofTerms_toTerms rest, bareAll]

end

theorem bare_eq_of_toTerm {one two : Sexp} (same : two.toTerm = one.toTerm) :
    two.bare = one.bare := by
  rw [← ofTerm_toTerm, same, ofTerm_toTerm]

/-! ## Sequences with ellipses -/

/-- A symbol is written as its name. -/
theorem text_toTerm {sexp : Sexp} {name : Symbol} (named : sexp.symbol? = some name) :
    sexp.toTerm.text = name := by
  cases sexp with
  | list => cases named
  | atom value span =>
    cases value with
    | symbol other =>
      cases named
      rw [toTerm]
      split
      · rename_i hole
        rw [hole]
        rfl
      · rfl
    | _ => cases named

section Folding

variable {α : Type}

/-- The items of a sequence, converted one by one; the one before an ellipsis is repeated. -/
def foldEllipses (convert : Sexp → Except Fault α) (again : α → α) (fault : EllipsisFault) :
    List Sexp → Except Fault (List α)
  | [] => .ok []
  | [item] =>
    if item.isSymbol ellipsis then .error (ellipsisFault fault item.span)
    else do
      let first ← convert item
      .ok [first]
  | item :: next :: rest =>
    if item.isSymbol ellipsis then .error (ellipsisFault fault item.span)
    else do
      let first ← convert item
      if next.isSymbol ellipsis then do
        let others ← foldEllipses convert again .doubled rest
        .ok (again first :: others)
      else do
        let others ← foldEllipses convert again .leading (next :: rest)
        .ok (first :: others)

theorem toPatternsAfter_eq (fault : EllipsisFault) : (items : List Sexp) →
    toPatternsAfter fault items = foldEllipses toPattern (.repeated · .exhaustive) fault items
  | [] => rfl
  | [item] => by rw [toPatternsAfter, foldEllipses]
  | item :: next :: rest => by
    rw [toPatternsAfter, foldEllipses, toPatternsAfter_eq .doubled rest,
      toPatternsAfter_eq .leading (next :: rest)]

theorem toTemplatesAfter_eq (fault : EllipsisFault) : (items : List Sexp) →
    toTemplatesAfter fault items = foldEllipses toTemplate .repeated fault items
  | [] => rfl
  | [item] => by rw [toTemplatesAfter, foldEllipses]
  | item :: next :: rest => by
    rw [toTemplatesAfter, foldEllipses, toTemplatesAfter_eq .doubled rest,
      toTemplatesAfter_eq .leading (next :: rest)]

/-- What a sequence with ellipses is converted to. -/
inductive Folded (convert : Sexp → Except Fault α) (again : α → α) : List Sexp → List α → Prop
  | nil : Folded convert again [] []
  | plain {item : Sexp} {value : α} {rest : List Sexp} {values : List α}
      (solid : item.isSymbol ellipsis = false) (made : convert item = .ok value)
      (later : Folded convert again rest values) :
      Folded convert again (item :: rest) (value :: values)
  | repeated {item dots : Sexp} {value : α} {rest : List Sexp} {values : List α}
      (solid : item.isSymbol ellipsis = false) (made : convert item = .ok value)
      (dotted : dots.isSymbol ellipsis = true) (later : Folded convert again rest values) :
      Folded convert again (item :: dots :: rest) (again value :: values)

variable {convert : Sexp → Except Fault α} {again : α → α}

theorem Folded.head {item : Sexp} {rest : List Sexp} {values : List α}
    (folded : Folded convert again (item :: rest) values) : item.isSymbol ellipsis = false := by
  cases folded with
  | plain solid => exact solid
  | repeated solid => exact solid

theorem foldEllipses_eq_ok : (items : List Sexp) → {fault : EllipsisFault} → {values : List α} →
    (foldEllipses convert again fault items = .ok values ↔ Folded convert again items values)
  | [], fault, values => by
    constructor
    · rintro ⟨⟩
      exact .nil
    · rintro ⟨⟩
      rfl
  | [item], fault, values => by
    rw [foldEllipses]
    constructor
    · intro read
      split at read
      · cases read
      · rename_i solid
        obtain ⟨value, made, last⟩ := Except.bind_eq_ok.mp read
        cases last
        exact .plain (Bool.eq_false_iff.mpr solid) made .nil
    · rintro (_ | ⟨solid, made, later⟩)
      cases later
      rw [solid, made]
      rfl
  | item :: next :: rest, fault, values => by
    rw [foldEllipses]
    constructor
    · intro read
      split at read
      · cases read
      · rename_i solid
        obtain ⟨value, made, read⟩ := Except.bind_eq_ok.mp read
        split at read
        · rename_i dotted
          obtain ⟨others, after, last⟩ := Except.bind_eq_ok.mp read
          cases last
          exact .repeated (Bool.eq_false_iff.mpr solid) made dotted
            ((foldEllipses_eq_ok rest).mp after)
        · obtain ⟨others, after, last⟩ := Except.bind_eq_ok.mp read
          cases last
          exact .plain (Bool.eq_false_iff.mpr solid) made
            ((foldEllipses_eq_ok (next :: rest)).mp after)
    · intro folded
      rw [folded.head]
      cases folded with
      | plain solid made later =>
        refine Except.bind_eq_ok.mpr ⟨_, made, ?_⟩
        rw [later.head]
        exact Except.bind_eq_ok.mpr ⟨_, (foldEllipses_eq_ok (next :: rest)).mpr later, rfl⟩
      | repeated solid made dotted later =>
        refine Except.bind_eq_ok.mpr ⟨_, made, ?_⟩
        rw [dotted]
        exact Except.bind_eq_ok.mpr ⟨_, (foldEllipses_eq_ok rest).mpr later, rfl⟩

/-- Every ellipsis stands right after an item that is not one. -/
def EllipsesFollow (items : List Sexp) : Prop :=
  ∀ index item, items[index]? = some item → item.isSymbol ellipsis = true →
    ∃ before other, index = before + 1 ∧ items[before]? = some other ∧
      other.isSymbol ellipsis = false

theorem EllipsesFollow.cons {item : Sexp} {rest : List Sexp}
    (solid : item.isSymbol ellipsis = false) (follow : EllipsesFollow rest) :
    EllipsesFollow (item :: rest) := by
  intro index found there dotted
  cases index with
  | zero =>
    cases there
    rw [solid] at dotted
    cases dotted
  | succ index =>
    obtain ⟨before, other, rfl, placed, free⟩ := follow index found there dotted
    exact ⟨before + 1, other, rfl, placed, free⟩

theorem EllipsesFollow.dotted {item dots : Sexp} {rest : List Sexp}
    (solid : item.isSymbol ellipsis = false) (follow : EllipsesFollow rest) :
    EllipsesFollow (item :: dots :: rest) := by
  intro index found there dotted
  match index with
  | 0 =>
    cases there
    rw [solid] at dotted
    cases dotted
  | 1 => exact ⟨0, item, rfl, rfl, solid⟩
  | index + 2 =>
    obtain ⟨before, other, rfl, placed, free⟩ := follow index found there dotted
    exact ⟨before + 2, other, rfl, placed, free⟩

theorem EllipsesFollow.head {item : Sexp} {rest : List Sexp}
    (follow : EllipsesFollow (item :: rest)) : item.isSymbol ellipsis = false := by
  refine Bool.eq_false_iff.mpr fun dotted => ?_
  obtain ⟨_, _, same, _⟩ := follow 0 item rfl dotted
  cases same

/-- After an item the ellipses follow as before, unless one repeats this item. -/
theorem EllipsesFollow.tail {item : Sexp} {rest : List Sexp}
    (follow : EllipsesFollow (item :: rest))
    (next : ∀ other ∈ rest.head?, other.isSymbol ellipsis = false) : EllipsesFollow rest := by
  intro index found there dotted
  obtain ⟨before, other, same, placed, free⟩ := follow (index + 1) found there dotted
  cases Nat.succ.inj same
  cases index with
  | zero =>
    rw [next found (List.head?_eq_getElem?.trans there)] at dotted
    cases dotted
  | succ index => exact ⟨index, other, rfl, placed, free⟩

/-- Nor does an ellipsis follow an ellipsis. -/
theorem EllipsesFollow.afterDots {item dots : Sexp} {rest : List Sexp}
    (follow : EllipsesFollow (item :: dots :: rest)) (dotted : dots.isSymbol ellipsis = true) :
    EllipsesFollow rest := by
  intro index found there again
  obtain ⟨before, other, same, placed, free⟩ := follow (index + 2) found there again
  cases Nat.succ.inj same
  cases index with
  | zero =>
    cases placed
    rw [dotted] at free
    cases free
  | succ index => exact ⟨index, other, rfl, placed, free⟩

theorem Folded.follow {items : List Sexp} {values : List α}
    (folded : Folded convert again items values) : EllipsesFollow items := by
  induction folded with
  | nil => nofun
  | plain solid _ _ ih => exact ih.cons solid
  | repeated solid _ _ _ ih => exact ih.dotted solid

theorem Folded.each {items : List Sexp} {values : List α}
    (folded : Folded convert again items values) :
    ∀ item ∈ items, item.isSymbol ellipsis = false → ∃ value, convert item = .ok value := by
  induction folded with
  | nil => nofun
  | plain _ made _ ih => exact List.forall_mem_cons.mpr ⟨fun _ => ⟨_, made⟩, ih⟩
  | repeated _ made dotted _ ih =>
    refine List.forall_mem_cons.mpr ⟨fun _ => ⟨_, made⟩, List.forall_mem_cons.mpr ⟨?_, ih⟩⟩
    rw [dotted]
    nofun

/-- A sequence is converted if its ellipses follow what they repeat and all else is converted. -/
theorem exists_folded : (items : List Sexp) → EllipsesFollow items →
    (∀ item ∈ items, item.isSymbol ellipsis = false → ∃ value, convert item = .ok value) →
    ∃ values, Folded convert again items values
  | [], _, _ => ⟨[], .nil⟩
  | [item], follow, each => by
    obtain ⟨value, made⟩ := each item List.mem_cons_self follow.head
    exact ⟨[value], .plain follow.head made .nil⟩
  | item :: next :: rest, follow, each => by
    obtain ⟨here, others⟩ := List.forall_mem_cons.mp each
    obtain ⟨value, made⟩ := here follow.head
    by_cases dotted : next.isSymbol ellipsis = true
    · obtain ⟨values, later⟩ := exists_folded rest (follow.afterDots dotted)
        (List.forall_mem_cons.mp others).2
      exact ⟨_, .repeated follow.head made dotted later⟩
    · have solid : ∀ other ∈ (next :: rest).head?, other.isSymbol ellipsis = false := by
        rintro other ⟨rfl⟩
        exact Bool.eq_false_iff.mpr dotted
      obtain ⟨values, later⟩ := exists_folded (next :: rest) (follow.tail solid) others
      exact ⟨_, .plain follow.head made later⟩

/-- Nothing but an empty sequence is converted to an empty one. -/
theorem Folded.map_eq_nil_iff {β γ : Type} {items : List Sexp} {values : List α}
    (folded : Folded convert again items values) (left : α → β) (right : Sexp → γ) :
    values.map left = [] ↔ items.map right = [] := by
  cases folded <;> simp

/-- The values of a sequence are written as its items. -/
theorem Folded.spaced {text : α → String} {items : List Sexp} {values : List α}
    (folded : Folded convert again items values)
    (repeats : ∀ value, text (again value) = text value ++ " ...")
    (each : ∀ item ∈ items, ∀ value, convert item = .ok value → text value = item.toTerm.text) :
    Text.spaced (values.map text) = Text.spaced (items.map (·.toTerm.text)) := by
  induction folded with
  | nil => rfl
  | plain _ made later ih =>
    obtain ⟨here, others⟩ := List.forall_mem_cons.mp each
    rw [List.map_cons, List.map_cons, here _ made]
    exact Text.spaced_cons_congr _ (later.map_eq_nil_iff _ _) (ih others)
  | @repeated item dots value rest values _ made dotted later ih =>
    obtain ⟨here, others⟩ := List.forall_mem_cons.mp each
    have word : dots.toTerm.text = "..." := text_toTerm (of_decide_eq_true dotted)
    have parted : text (again value) = item.toTerm.text ++ " " ++ "..." := by
      rw [repeats, here _ made, String.append_assoc]
      rfl
    rw [List.map_cons, List.map_cons, List.map_cons, parted, word, Text.spaced_split]
    have after := ih (List.forall_mem_cons.mp others).2
    exact Text.spaced_cons_congr _ (by simp)
      (Text.spaced_cons_congr _ (later.map_eq_nil_iff _ _) after)

/-- Places play no part in the conversion of a sequence, if they play none in that of its items. -/
theorem Folded.of_bare {items : List Sexp} {values : List α}
    (folded : Folded convert again items values) :
    ∀ {others : List Sexp}, others.map bare = items.map bare →
      (∀ item ∈ items, ∀ other : Sexp, other.bare = item.bare → ∀ value,
        convert item = .ok value → convert other = .ok value) →
      Folded convert again others values := by
  induction folded with
  | nil =>
    intro others same _
    rw [List.map_eq_nil_iff.mp same]
    exact .nil
  | plain solid made _ ih =>
    intro others same each
    obtain ⟨other, rest, rfl, here, later⟩ := List.map_eq_cons_iff.mp same
    obtain ⟨one, more⟩ := List.forall_mem_cons.mp each
    refine .plain ?_ (one other here _ made) (ih later more)
    rw [isSymbol_of_bare here, solid]
  | repeated solid made dotted _ ih =>
    intro others same each
    obtain ⟨other, rest, rfl, here, later⟩ := List.map_eq_cons_iff.mp same
    obtain ⟨dots, rest, rfl, next, later⟩ := List.map_eq_cons_iff.mp later
    obtain ⟨one, more⟩ := List.forall_mem_cons.mp each
    refine .repeated ?_ (one other here _ made) ?_ (ih later (List.forall_mem_cons.mp more).2)
    · rw [isSymbol_of_bare here, solid]
    · rw [isSymbol_of_bare next, dotted]

end Folding

end Sexp

end Reduct
