import Reduct.Proofs.Replacement

/-!
# Subterms in pre-order

The listing of subterms has every path of a term that leads somewhere, each once, in the order of
a walk that visits a term before its children and these from the first on. As lists of positions
the paths increase. The search for a hole goes the same way and stops at the first one, so it finds
the first entry of the listing that is a hole, and holes are what the listing counts. Plugging
changes the term at that path only.
-/

namespace Reduct.Term

/-- The entry of a hole in a listing of subterms. -/
def isHoleEntry (entry : Path × Term) : Bool := decide (entry.2 = .hole)

/-- Behind a step, the search among subterms goes on as before. -/
theorem find?_behind (index : Nat) (entries : List (Path × Term)) :
    (entries.map fun found => (index :: found.1, found.2)).find? isHoleEntry =
      (entries.find? isHoleEntry).map fun found => (index :: found.1, found.2) := by
  rw [List.find?_map]
  rfl

/-- The search for a hole finds the first one of the listing. -/
theorem findHole_eq (term : Term) :
    term.findHole = (term.subterms.find? isHoleEntry).map (·.1) := by
  refine walkInduction
    (motive := fun term => term.findHole = (term.subterms.find? isHoleEntry).map (·.1))
    (fun start items =>
      findHoleFrom start items = ((subtermsFrom start items).find? isHoleEntry).map (·.1))
    ?atom ?hole ?sequence ?nil ?cons term
  case atom => exact fun value => rfl
  case hole => rfl
  case sequence =>
    intro items each
    rw [findHole_sequence, subterms_sequence, List.find?_cons_of_neg (by simp [isHoleEntry])]
    exact each
  case nil => exact fun start => rfl
  case cons =>
    intro start item rest first others
    rw [findHoleFrom_cons, subtermsFrom_cons, List.find?_append, find?_behind, first, others]
    cases item.subterms.find? isHoleEntry <;> rfl

/-- The holes of a term are those of its listing. -/
theorem holes_eq_countP (term : Term) : term.holes = term.subterms.countP isHoleEntry := by
  refine walkInduction (motive := fun term => term.holes = term.subterms.countP isHoleEntry)
    (fun start items => holesAll items = (subtermsFrom start items).countP isHoleEntry)
    ?atom ?hole ?sequence ?nil ?cons term
  case atom => exact fun value => rfl
  case hole => rfl
  case sequence =>
    intro items each
    rw [holes_sequence, subterms_sequence, List.countP_cons_of_neg (by simp [isHoleEntry])]
    exact each
  case nil => exact fun start => rfl
  case cons =>
    intro start item rest first others
    rw [holesAll_cons, subtermsFrom_cons, List.countP_append, List.countP_map, first, others]
    rfl

/-- A term has no hole exactly if none of its paths leads to one. -/
theorem holes_eq_zero_iff {term : Term} :
    term.holes = 0 ↔ ∀ path, term.subterm? path ≠ some .hole := by
  rw [holes_eq_countP, List.countP_eq_zero]
  constructor
  · intro without path reached
    exact without _ (mem_subterms.mpr reached) (decide_eq_true rfl)
  · intro without entry listed hole
    refine without entry.1 ?_
    rw [← show entry.2 = .hole from of_decide_eq_true hole]
    exact mem_subterms.mp listed

/-- What plugging a term does at the path of its first hole. -/
structure Plugged (term contents result : Term) (path : Path) : Prop where
  /-- One hole of the term gives way to the holes of the contents. -/
  holes : result.holes + 1 = term.holes + contents.holes
  /-- The contents stand at the path. -/
  inside : result.subterm? path = some contents
  /-- Every path apart from it leads where it led. -/
  outside : ∀ other, path.Apart other → result.subterm? other = term.subterm? other
  /-- With a hole at the path again, it is the term again. -/
  undone : result.replace? path .hole = some term

/-- A term with a hole can be plugged, which changes it at the path of the first one only. -/
theorem exists_plugged {term : Term} {path : Path} (search : term.findHole = some path)
    (contents : Term) :
    ∃ result, term.plug? contents = some result ∧ term.Plugged contents result path := by
  have reached := subterm?_findHole search
  obtain ⟨result, replaced⟩ := (exists_replace?_iff contents).mpr ⟨_, reached⟩
  have plugged : term.plug? contents = some result := by
    unfold plug?
    rw [search]
    exact replaced
  refine ⟨result, plugged, holes_plug? plugged, subterm?_replace? replaced, ?_, ?_⟩
  · intro other apart
    exact subterm?_of_apart apart replaced
  · rw [replace?_replace? replaced]
    exact replace?_self reached

/-- The listing of the subterms of a term, and the search for a hole in it. -/
structure Walk (term : Term) : Prop where
  /-- The listing has the subterm at every path that leads to one, and nothing else. -/
  complete : ∀ path found, (path, found) ∈ term.subterms ↔ term.subterm? path = some found
  /-- It has every path once. -/
  once : (term.subterms.map (·.1)).Nodup
  /-- The paths increase: a path before those that go on from it, and a smaller position before a
  greater one. -/
  increasing : (term.subterms.map (·.1)).Pairwise (List.Lex (· < ·))
  /-- The search finds the path of the first hole of the listing. -/
  first : term.findHole = (term.subterms.find? isHoleEntry).map (·.1)
  /-- It finds none exactly if no path leads to a hole. -/
  without : term.findHole = none ↔ ∀ path, term.subterm? path ≠ some .hole
  /-- The holes are the entries of the listing that are one. -/
  counted : term.holes = term.subterms.countP isHoleEntry
  /-- Plugging changes the term at the path of the first hole only. -/
  plugged : ∀ path, term.findHole = some path → ∀ contents,
    ∃ result, term.plug? contents = some result ∧ term.Plugged contents result path

/-- The subterms of every term are walked in pre-order. -/
theorem subterms_preorder (term : Term) : term.Walk where
  complete _ _ := mem_subterms
  once := nodup_subterms
  increasing := increasing_subterms
  first := findHole_eq term
  without := findHole_eq_none.trans holes_eq_zero_iff
  counted := holes_eq_countP term
  plugged _ := exists_plugged

end Reduct.Term
