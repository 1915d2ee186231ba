import Reduct.Proofs.LoadedPrograms

/-!
# Printed terms

A term whose atoms can be written is read from its written form, and every term that is read from
a text is one. So the constants of a module hold the terms that they were made for once it is
loaded, unless a pattern excludes the variable named `hole`: that name is read as the hole.
-/

namespace Reduct

namespace Atom

/-- An atom that can be written: a double is finite, and the name of a variable is scanned as this
one symbol and is not `hole`. -/
def Writable : Atom → Prop
  | float value => value.isFinite = true
  | symbol name => name ≠ "hole" ∧ ∃ span, Token.scan name = .ok [⟨.atom (.symbol name), span⟩]
  | _ => True

/-- A legible atom is scanned as the one token of its written form. -/
theorem Legible.scan_text {value : Atom} (legible : value.Legible) :
    ∃ span, Token.scan value.text = .ok [⟨.atom value, span⟩] := by
  obtain ⟨tokens, stop, kinds, scanned⟩ :=
    Token.scans_atom legible value.text.utf8ByteSize 0 [] (.inl rfl)
  obtain ⟨⟨kind, span⟩, rfl, same⟩ := List.map_eq_singleton_iff.mp kinds
  have ended : Token.scanFrom value.text.utf8ByteSize stop [] = .ok [] := by rw [Token.scanFrom]
  rw [List.append_nil, ended] at scanned
  cases same
  exact ⟨span, scanned⟩

/-- The atoms that can be written are the legible ones other than the variable named `hole`. -/
theorem writable_iff {value : Atom} :
    value.Writable ↔ value.Legible ∧ value ≠ .symbol "hole" := by
  cases value with
  | symbol name =>
    constructor
    · rintro ⟨named, span, scanned⟩
      have legible := (Token.legible_of_scanFrom name.toList scanned).2 _ (List.mem_singleton.mpr rfl)
      refine ⟨legible _ rfl, ?_⟩
      rintro ⟨rfl⟩
      exact named rfl
    · rintro ⟨legible, named⟩
      refine ⟨?_, legible.scan_text⟩
      rintro rfl
      exact named rfl
  | float value => exact ⟨fun finite => ⟨finite, by simp⟩, And.left⟩
  | _ => exact ⟨fun _ => ⟨trivial, by simp⟩, fun _ => trivial⟩

end Atom

namespace Term

/-- A term that can be written. -/
abbrev Writable : Term → Prop := Composed Atom.Writable

theorem Composed.imp {good fine : Atom → Prop} (weaker : ∀ value, good value → fine value)
    {term : Term} (composed : term.Composed good) : term.Composed fine := by
  induction composed with
  | atom here => exact .atom (weaker _ here)
  | hole => exact .hole
  | sequence _ each => exact .sequence each

theorem Writable.legible {term : Term} (writable : term.Writable) : term.Legible :=
  Composed.imp (fun _ here => (Atom.writable_iff.mp here).1) writable

/-- No variable of a term that can be written is named `hole`. -/
theorem Writable.reread {term : Term} (writable : term.Writable) : term.reread = term := by
  induction writable with
  | atom here => exact reread_atom (Atom.writable_iff.mp here).2
  | hole => rfl
  | sequence _ each =>
    rw [Term.reread, rereadAll_eq_map, List.map_congr_left each, List.map_id']

/-- A term that can be written is read from its written form. -/
theorem Writable.read_text {term : Term} (writable : term.Writable) :
    Term.read term.text = .ok term := by
  rw [writable.legible.read_text, writable.reread]

/-- A term that is read from what was written for it can be written. -/
theorem Plain.writable {term : Term} (plain : term.Plain) : term.Writable := by
  obtain ⟨legible, proper⟩ := plain
  induction legible with
  | atom here =>
    cases proper with
    | atom named => exact .atom (Atom.writable_iff.mpr ⟨here, named⟩)
  | hole => exact .hole
  | sequence _ each =>
    cases proper with
    | sequence _ inside => exact .sequence fun item listed => each item listed (inside item listed)

end Term

/-- The term of a readable expression can be written. -/
theorem Sexp.Readable.writable {bound : Nat} {sexp : Sexp} (readable : sexp.Readable bound) :
    sexp.toTerm.Writable := by
  induction readable with
  | @atom value span legible =>
    cases value with
    | symbol name =>
      rw [Sexp.toTerm]
      split
      · exact .hole
      · rename_i named
        refine .atom (Atom.writable_iff.mpr ⟨legible, ?_⟩)
        rintro ⟨rfl⟩
        exact named rfl
    | _ => exact .atom (Atom.writable_iff.mpr ⟨legible, by simp⟩)
  | list _ _ each =>
    rw [Sexp.toTerm, toTerms_eq_map]
    refine .sequence fun term listed => ?_
    obtain ⟨item, among, rfl⟩ := List.mem_map.mp listed
    exact each item among

/-- What is read from a text can be written. -/
theorem Term.writable_of_read {source : String} {term : Term}
    (read : Term.read source = .ok term) : term.Writable := by
  cases one : Sexp.readOne source with
  | error fault =>
    rw [Term.read, one] at read
    cases read
  | ok sexp =>
    rw [Term.read, one] at read
    cases read
    obtain ⟨sexps, all, only⟩ := Except.bind_eq_ok.mp one
    have listed : sexp ∈ sexps := by
      split at only
      · cases only
        exact List.mem_singleton.mpr rfl
      · cases only
    exact (Sexp.readable_of_readAll all sexp listed).writable

namespace Pattern

mutual

/-- Whether a pattern excludes the variable named `hole`, which no term holds. -/
def exceptsHole : Pattern → Bool
  | .builtIn (.variableExcept excluded) _ => excluded.contains "hole"
  | .sequence items => exceptsHoleAny items
  | .repeated inner _ => inner.exceptsHole
  | .inHole context contents _ => context.exceptsHole || contents.exceptsHole
  | _ => false

/-- Whether some pattern of a list excludes the variable named `hole`. -/
def exceptsHoleAny : List Pattern → Bool
  | [] => false
  | item :: rest => item.exceptsHole || exceptsHoleAny rest

end

mutual

/-- A pattern compares with the variable named `hole` only where it excludes it. -/
theorem ne_hole_of_mem_atoms : (pattern : Pattern) → pattern.spellsHole = false →
    pattern.exceptsHole = false → ∀ value ∈ pattern.atoms, value ≠ .symbol "hole"
  | .literal value, plain, _ => by
    have named : value ≠ .symbol "hole" := of_decide_eq_false plain
    exact List.forall_mem_singleton.mpr named
  | .builtIn kind symbol, _, kept => by
    cases kind with
    | variableExcept excluded =>
      intro value listed same
      obtain ⟨name, among, rfl⟩ := List.mem_map.mp listed
      cases same
      have found : excluded.contains "hole" = true := List.contains_iff_mem.mpr among
      rw [exceptsHole, found] at kept
      cases kept
    | _ => nofun
  | .sequence items, plain, kept => ne_hole_of_mem_atomsAll items plain kept
  | .repeated inner _, plain, kept => ne_hole_of_mem_atoms inner plain kept
  | .inHole context contents _, plain, kept => by
    rw [spellsHole, Bool.or_eq_false_iff] at plain
    rw [exceptsHole, Bool.or_eq_false_iff] at kept
    exact List.forall_mem_append.mpr ⟨ne_hole_of_mem_atoms context plain.1 kept.1,
      ne_hole_of_mem_atoms contents plain.2 kept.2⟩
  | .unresolved name, _, _ => by
    rw [atoms]
    split
    · nofun
    · rename_i named
      refine List.forall_mem_singleton.mpr ?_
      rintro ⟨rfl⟩
      exact named rfl
  | .nonTerminal _ _, _, _ | .check _, _, _ => nofun

theorem ne_hole_of_mem_atomsAll : (items : List Pattern) → spellsHoleAny items = false →
    exceptsHoleAny items = false → ∀ value ∈ atomsAll items, value ≠ .symbol "hole"
  | [], _, _ => nofun
  | item :: rest, plain, kept => by
    rw [spellsHoleAny, Bool.or_eq_false_iff] at plain
    rw [exceptsHoleAny, Bool.or_eq_false_iff] at kept
    exact List.forall_mem_append.mpr ⟨ne_hole_of_mem_atoms item plain.1 kept.1,
      ne_hole_of_mem_atomsAll rest plain.2 kept.2⟩

end

/-- The atoms of a pattern that is read can be written, if it does not exclude `hole`. -/
theorem Read.writable {pattern : Pattern} (read : pattern.Read)
    (kept : pattern.exceptsHole = false) : ∀ value ∈ pattern.atoms, value.Writable := by
  intro value listed
  have named := ne_hole_of_mem_atoms pattern read.plain kept value listed
  exact Atom.writable_iff.mpr ⟨read.legible value listed, named⟩

end Pattern

namespace Form

/-- Whether a pattern of a form excludes the variable named `hole`. -/
def exceptsHole (form : Form) : Bool :=
  (form.productions ++ form.uses.map (·.2)).any Pattern.exceptsHole

/-- The atoms of a form that is read can be written, if none of its patterns excludes `hole`. -/
theorem Read.writable {form : Form} (read : form.Read) (kept : form.exceptsHole = false) :
    form.Composed Atom.Writable := by
  have each : ∀ pattern ∈ form.productions ++ form.uses.map (·.2),
      pattern.exceptsHole = false := by
    intro pattern listed
    have none_ := List.any_eq_false.mp kept pattern listed
    exact Bool.eq_false_iff.mpr none_
  refine ⟨fun pattern listed => ?_, fun use listed => ?_, fun template listed => ?_,
    fun term listed => (read.terms term listed).writable⟩
  · have inside := each pattern (List.mem_append_left _ listed)
    exact (read.productions pattern listed).writable inside
  · have inside := each use.2 (List.mem_append_right _ (List.mem_map_of_mem listed))
    exact (read.uses use listed).writable inside
  · exact (read.templates template listed).imp fun _ plain => plain.writable

end Form

namespace Program

open Draft

/-- A compilation makes a constant for a term and names it: one of its steps asks for the constant,
and the constants that are there after the step stay. -/
def Compilation.Hoists {forms : List Form} {prints : Bool} (compilation : Compilation forms prints)
    (name : Symbol) (term : Term) : Prop :=
  ∃ before after, Yields (constant term) before name after ∧
    after.constants <+: compilation.draft.constants

/-- A constant that a compilation makes is one of its draft. -/
theorem Compilation.Hoists.names {forms : List Form} {prints : Bool}
    {compilation : Compilation forms prints} {name : Symbol} {term : Term}
    (hoists : compilation.Hoists name term) : compilation.draft.Names name term := by
  obtain ⟨before, after, yields, more, same⟩ := hoists
  obtain ⟨_, index, named, there⟩ := yields_constant yields
  have bound := (List.getElem?_eq_some_iff.mp there).1
  exact ⟨index, named, by rw [← same, List.getElem?_append_left bound, there]⟩

namespace Accepted

variable {source : String} {prints : Bool} (accepted : Accepted source prints)

/-- The constants of an accepted specification hold the terms that they were made for, if no
pattern excludes `hole`. -/
theorem holds_constants (kept : ∀ form ∈ accepted.forms, form.exceptsHole = false) {host : Host}
    {limit : Option Nat} {loaded : Machine} (ready : Loaded accepted.compilation.draft host limit loaded)
    {name : Symbol} {term : Term} (names : accepted.compilation.draft.Names name term) :
    loaded.globals.find? name = some (.term term) := by
  obtain ⟨index, rfl, there⟩ := names
  obtain ⟨_, _, writable, _⟩ := accepted.compilation.final accepted.read fun form listed =>
    (accepted.read form listed).writable (kept form listed)
  have back : term.reread = term :=
    Term.Writable.reread (writable term (List.mem_of_getElem? there))
  rw [ready.carries.constants index term there, back]

end Accepted

end Program

open Program in
/-- Printed terms read back: a term whose atoms can be written is read from its written form, and so
is every term that was read from a text. A module of a specification whose patterns do not exclude
`hole` loads, and each of its constants then holds the term that it was made for; so different terms
have different constants. -/
theorem printed_terms_read_back :
    (∀ term : Term, term.Writable → Term.read term.text = .ok term) ∧
    (∀ source term, Term.read source = .ok term → Term.read term.text = .ok term) ∧
    ∀ (source : String) (prints : Bool) (accepted : Accepted source prints),
      (∀ form ∈ accepted.forms, form.exceptsHole = false) →
      ∀ host limit silent, ∃ loaded, accepted.program.Loads host limit silent loaded ∧
        (∀ name term, accepted.compilation.draft.Names name term →
          loaded.globals.find? name = some (.term term)) ∧
        (∀ name term, accepted.compilation.Hoists name term →
          loaded.globals.find? name = some (.term term)) ∧
        ∀ first second one two, accepted.compilation.Hoists first one →
          accepted.compilation.Hoists second two → one ≠ two → first ≠ second := by
  refine ⟨fun term writable => writable.read_text, ?_, ?_⟩
  · intro source term read
    exact (Term.writable_of_read read).read_text
  · intro source prints accepted kept host limit silent
    obtain ⟨loaded, loads, ready⟩ := accepted.exists_loads host limit silent
    have holds : ∀ name term, accepted.compilation.draft.Names name term →
        loaded.globals.find? name = some (.term term) :=
      fun name term names => accepted.holds_constants kept ready names
    refine ⟨loaded, loads, holds, fun name term hoists => holds name term hoists.names, ?_⟩
    intro first second one two left right differ same
    have held := holds first one left.names
    rw [same, holds second two right.names] at held
    cases held
    exact differ rfl

/-- A term with a quoted text, a double, a variable and an empty sequence. -/
def assortedTerm : Term :=
  .sequence [.atom (.string "a \"\\;\n("), .atom (.float ⟨0x4000000000000000⟩), .symbol "x",
    .sequence []]

/-- A pattern with a literal variable, matched once. -/
def matchedOnce : String := "(define-language L (n ::= number)) (redex-match L (foo n) (foo 1))"

/-- Whether a draft has a constant for the term that is matched, and no pattern excludes `hole`. -/
def hoistsMatched (stages : List Form × Draft) : Bool :=
  stages.1.all (fun form => !form.exceptsHole) &&
    decide (stages.2.constants.findIdx? (fun known => known = .symbol "foo") = some 0)

open Program in
theorem printed_terms_read_back_matchedOnce :
    Term.read assortedTerm.text = .ok assortedTerm ∧
    Term.read (Term.sequence [.symbol "a", .sequence [.hole]]).text =
      .ok (.sequence [.symbol "a", .sequence [.hole]]) ∧
    ∃ accepted : Accepted matchedOnce false, ∃ loaded name,
      accepted.program.Loads .empty none true loaded ∧
      accepted.compilation.Hoists name (.symbol "foo") ∧
      loaded.globals.find? name = some (.term (.symbol "foo")) := by
  obtain ⟨written, again, modules⟩ := printed_terms_read_back
  have named : Atom.Writable (.symbol "x") := by
    refine Atom.writable_iff.mpr ⟨⟨by decide, List.all_eq_true.mp ?_, ?_⟩, by decide⟩ <;> decide
  have finite : Atom.Writable (.float ⟨0x4000000000000000⟩) :=
    show Binary64.isFinite _ = true by decide
  have writable : assortedTerm.Writable := by
    refine .sequence fun item listed => ?_
    simp only [List.mem_cons, List.not_mem_nil, or_false] at listed
    rcases listed with rfl | rfl | rfl | rfl
    · exact .atom trivial
    · exact .atom finite
    · exact .atom named
    · exact .sequence (List.forall_mem_nil _)
  have read : Term.read "( a[\thole ])" = .ok (.sequence [.symbol "a", .sequence [.hole]]) := by
    have checked : (Term.read "( a[\thole ])").toOption =
        some (.sequence [.symbol "a", .sequence [.hole]]) := by decide +kernel
    cases found : Term.read "( a[\thole ])" with
    | error fault =>
      rw [found] at checked
      cases checked
    | ok term =>
      rw [found] at checked
      cases checked
      rfl
  refine ⟨written _ writable, again _ _ read, ?_⟩
  have tested : (stages? matchedOnce false).any hoistsMatched = true := by decide +kernel
  rcases stages : stages? matchedOnce false with _ | ⟨forms, draft⟩
  · rw [stages] at tested
    cases tested
  · rw [stages] at tested
    obtain ⟨accepted, rfl, rfl⟩ := exists_accepted (by decide +kernel) stages
    obtain ⟨spared, found⟩ := Bool.and_eq_true_iff.mp tested
    have kept : ∀ form ∈ accepted.forms, form.exceptsHole = false := by
      intro form listed
      have spares := List.all_eq_true.mp spared form listed
      exact Bool.not_eq_true' _ ▸ spares
    have hoists : accepted.compilation.Hoists (Draft.constantName 0) (.symbol "foo") := by
      refine ⟨accepted.compilation.draft, _, ?_, List.prefix_refl _⟩
      unfold Draft.constant
      refine Draft.yields_bind.mpr ⟨_, _, rfl, ?_⟩
      rw [of_decide_eq_true found]
      rfl
    obtain ⟨loaded, loads, _, holds, _⟩ := modules _ _ accepted kept .empty none true
    exact ⟨accepted, loaded, _, loads, hoists, holds _ _ hoists⟩

end Reduct
