import Reduct.Proofs.WrittenForms

/-!
# The places of faults

A fault that is found while a source is read points into the source: it has a primary label, and
every label covers bytes of the source. The tokens, the expressions and the forms that are read
stand in the source too, so that later faults can point to them.
-/

namespace Reduct

/-- A span covers bytes of a source. -/
structure Span.Within (total : Nat) (span : Span) : Prop where
  ordered : span.start ≤ span.stop
  bounded : span.stop ≤ total

namespace Span

variable {total : Nat}

theorem within_point (total : Nat) : Within total (.point total) := ⟨Nat.le_refl _, Nat.le_refl _⟩

theorem Within.merge {left right : Span} (one : left.Within total) (two : right.Within total) :
    (left.merge right).Within total where
  ordered := by
    have covers := merge_covers left right
    have ordered := one.ordered
    omega
  bounded := Nat.max_le.mpr ⟨one.bounded, two.bounded⟩

end Span

/-- A fault of a specification that points into its source. -/
structure Fault.Points (total : Nat) (fault : Fault) : Prop where
  external : fault.cause.code ≠ .internal
  primary : ∃ label ∈ fault.labels, label.isPrimary = true
  within : ∀ label ∈ fault.labels, label.span.Within total

/-- A fault of a specification whose place is not known yet. -/
structure Fault.Placeless (fault : Fault) : Prop where
  external : fault.cause.code ≠ .internal
  unlabelled : fault.labels = []

namespace Fault

variable {total : Nat} {cause : Cause} {span : Span} {message : String}

theorem points_located (external : cause.code ≠ .internal) (within : span.Within total)
    (message : String) : (located cause span message).Points total where
  external := external
  primary := ⟨_, List.mem_singleton.mpr rfl, rfl⟩
  within := List.forall_mem_singleton.mpr within

theorem points_related {other : Span} (external : cause.code ≠ .internal)
    (within : span.Within total) (beside : other.Within total) (message context : String) :
    (related cause span message other context).Points total where
  external := external
  primary := ⟨_, List.mem_cons_self, rfl⟩
  within := List.forall_mem_cons.mpr ⟨within, List.forall_mem_singleton.mpr beside⟩

theorem placeless_unlocated (external : cause.code ≠ .internal) : (unlocated cause).Placeless :=
  ⟨external, rfl⟩

/-- A fault that points somewhere keeps its place. -/
theorem Points.orLabel {fault : Fault} (points : fault.Points total) (span : Span)
    (message : String) : fault.orLabel span message = fault := by
  obtain ⟨label, among, primary⟩ := points.primary
  have known : (Label.primarySpan? fault.labels).isSome = true := by
    rw [Label.primarySpan?, Option.isSome_map, List.find?_isSome]
    exact ⟨label, among, primary⟩
  unfold Fault.orLabel Label.orPrimary
  rw [if_pos known]

/-- A fault without a place gets the one that is given. -/
theorem Placeless.orLabel {fault : Fault} (placeless : fault.Placeless) (within : span.Within total)
    (message : String) : (fault.orLabel span message).Points total := by
  obtain ⟨cause, labels⟩ := fault
  obtain ⟨external, rfl⟩ := placeless
  exact points_located external within message

/-- A fault is right before it gets a place, if it has one or needs one. -/
def Placed (total : Nat) (fault : Fault) : Prop := fault.Points total ∨ fault.Placeless

theorem Placed.orLabel {fault : Fault} (placed : fault.Placed total) (within : span.Within total)
    (message : String) : (fault.orLabel span message).Points total := by
  rcases placed with points | placeless
  · rw [points.orLabel]
    exact points
  · exact placeless.orLabel within message

end Fault

/-- A result is good, or its fault is right. -/
def Meets {α : Type} (right : Fault → Prop) (good : α → Prop) : Except Fault α → Prop
  | .ok value => good value
  | .error fault => right fault

namespace Meets

variable {α β : Type} {right : Fault → Prop} {good : α → Prop} {fine : β → Prop}

theorem imp {other : Fault → Prop} {weaker : α → Prop} {result : Except Fault α}
    (meets : Meets right good result) (faults : ∀ fault, right fault → other fault)
    (values : ∀ value, good value → weaker value) : Meets other weaker result := by
  cases result with
  | ok value => exact values value meets
  | error fault => exact faults fault meets

theorem weaken {weaker : α → Prop} {result : Except Fault α} (meets : Meets right good result)
    (values : ∀ value, good value → weaker value) : Meets right weaker result :=
  meets.imp (fun _ => id) values

/-- What is good is the result. -/
theorem known {result : Except Fault α} (meets : Meets right good result) :
    Meets right (fun value => good value ∧ result = .ok value) result := by
  cases result with
  | ok value => exact ⟨meets, rfl⟩
  | error fault => exact meets

theorem bind {first : Except Fault α} {next : α → Except Fault β} (one : Meets right good first)
    (two : ∀ value, good value → Meets right fine (next value)) :
    Meets right fine (first >>= next) := by
  cases first with
  | ok value => exact two value one
  | error fault => exact one

theorem map {first : Except Fault α} {change : α → β} (one : Meets right good first)
    (two : ∀ value, good value → fine (change value)) : Meets right fine (first.map change) := by
  cases first with
  | ok value => exact two value one
  | error fault => exact one

theorem mapM {step : α → Except Fault β} {items : List α}
    (each : ∀ item ∈ items, Meets right fine (step item)) :
    Meets right (fun results => ∀ result ∈ results, fine result) (items.mapM step) := by
  induction items with
  | nil => exact List.forall_mem_nil _
  | cons item rest ih =>
    obtain ⟨here, later⟩ := List.forall_mem_cons.mp each
    rw [List.mapM_cons]
    refine here.bind fun first one => (ih later).bind fun others two => ?_
    exact List.forall_mem_cons.mpr ⟨one, two⟩

theorem optionMapM {step : α → Except Fault β} {part : Option α}
    (each : ∀ item ∈ part, Meets right fine (step item)) :
    Meets right (fun result => ∀ value ∈ result, fine value) (part.mapM step) := by
  cases part with
  | none => exact fun _ none_ => nomatch none_
  | some item =>
    refine (each item rfl).bind fun value one => ?_
    rintro _ ⟨⟩
    exact one

theorem locate {total : Nat} {span : Span} {result : Except Fault α}
    (meets : Meets (Fault.Placed total) good result) (within : span.Within total)
    (message : String) : Meets (Fault.Points total) good (Fault.locate span message result) := by
  cases result with
  | ok value => exact meets
  | error fault => exact Fault.Placed.orLabel meets within message

end Meets

/-! ## Tokens -/

namespace Token

variable {total : Nat}

theorem byteLength_cons (c : Char) (rest : List Char) :
    byteLength (c :: rest) = c.utf8Size + byteLength rest := rfl

theorem byteLength_append (first second : List Char) :
    byteLength (first ++ second) = byteLength first + byteLength second := by
  induction first with
  | nil => exact (Nat.zero_add _).symm
  | cons c rest ih => rw [List.cons_append, byteLength_cons, byteLength_cons, ih, Nat.add_assoc]

theorem byteLength_toList (source : String) :
    byteLength source.toList = source.utf8ByteSize := by
  have bytes : ∀ chars : List Char, byteLength chars = String.utf8Len chars := by
    intro chars
    induction chars with
    | nil => rfl
    | cons c rest ih => rw [byteLength_cons, String.utf8Len_cons, ih, Nat.add_comm]
  have whole := String.utf8ByteSize_ofList source.toList
  rw [String.ofList_toList] at whole
  rw [whole, bytes]

/-- The body of a string literal is followed by its closing quote. -/
theorem stringBody?_eq_some : ∀ {chars body rest : List Char},
    stringBody? chars = some (body, rest) → chars = body ++ '"' :: rest := by
  intro chars
  induction chars using stringBody?.induct with
  | case1 => nofun
  | case2 rest =>
    intro body after found
    cases found
    rfl
  | case3 => nofun
  | case4 rest =>
    intro body after found
    rw [stringBody?, if_pos rfl] at found
    cases found
  | case5 c rest other ih =>
    intro body after found
    rw [stringBody?, if_neg other, Option.map_eq_some_iff] at found
    obtain ⟨⟨inner, left⟩, inside, same⟩ := found
    cases same
    rw [ih inside, List.cons_append, List.cons_append]
  | case6 c rest unquoted alone ends ih =>
    intro body after found
    rw [stringBody?.eq_5 _ _ unquoted alone ends] at found
    obtain ⟨⟨inner, left⟩, inside, same⟩ := Option.map_eq_some_iff.mp found
    cases same
    rw [ih inside, List.cons_append]

/-- A lexeme takes characters from the front of the text. -/
theorem lexeme_taken_prefix (total offset : Nat) (first : Char) (rest : List Char) :
    (lexeme total offset first rest).2 <+: first :: rest := by
  have single : [first] <+: first :: rest := ⟨rest, rfl⟩
  have run : ∀ passes : Char → Bool, first :: rest.takeWhile passes <+: first :: rest :=
    fun passes => (List.prefix_cons_inj first).mpr (List.takeWhile_prefix passes)
  unfold lexeme
  split
  · exact single
  · split
    · exact run _
    · split
      · exact single
      · split
        · split
          · exact single
          · rename_i body after found
            refine (List.prefix_cons_inj first).mpr ⟨after, ?_⟩
            rw [stringBody?_eq_some found]
            exact List.append_assoc body ['"'] after
        · split
          · exact run _
          · exact single

/-- The lexeme of an atom is refused for the fault of the atom. -/
theorem points_of_ofAtom {found : Except Fault Atom} {fault : Fault}
    (meets : Meets (Fault.Points total) (fun _ => True) found)
    (refused : Lexeme.ofAtom found = .refused fault) : fault.Points total := by
  cases found with
  | ok value => cases refused
  | error other =>
    cases refused
    exact meets

theorem meets_stringAtom (body : List Char) {span : Span} (within : span.Within total) :
    Meets (Fault.Points total) (fun _ => True) (stringAtom body span) := by
  unfold stringAtom
  split
  · trivial
  · exact Fault.points_located (by simp [Cause.code]) within _
  · exact Fault.points_located (by simp [Cause.code]) within _

theorem meets_plainAtom (chars : List Char) {span : Span} (within : span.Within total) :
    Meets (Fault.Points total) (fun _ => True) (plainAtom chars span) := by
  unfold plainAtom
  split
  · trivial
  · exact Fault.points_located (by simp [Cause.code]) within _
  · exact Fault.points_located (by simp [Cause.code]) within _

/-- A fault at the front of a text points into the source. -/
theorem points_of_lexeme {offset : Nat} {first : Char} {rest : List Char} {fault : Fault}
    (room : offset + byteLength (first :: rest) ≤ total)
    (refused : (lexeme total offset first rest).1 = .refused fault) : fault.Points total := by
  have covers : ∀ taken, taken <+: first :: rest →
      Span.Within total ⟨offset, offset + byteLength taken⟩ := by
    rintro taken ⟨after, whole⟩
    have bytes := congrArg byteLength whole
    rw [byteLength_append] at bytes
    refine ⟨Nat.le_add_right _ _, ?_⟩
    change offset + byteLength taken ≤ total
    omega
  have taking := lexeme_taken_prefix total offset first rest
  unfold lexeme at refused taking
  split at refused
  · cases refused
  · rename_i visible
    rw [if_neg visible] at taking
    split at refused
    · cases refused
    · rename_i code
      rw [if_neg code] at taking
      split at refused
      · cases refused
      · rename_i undelimited
        simp only [undelimited] at taking
        split at refused
        · rename_i quoted
          rw [if_pos quoted] at taking
          split at refused
          · cases refused
            have covered : Span.Within total ⟨offset, total⟩ :=
              ⟨Nat.le_trans (Nat.le_add_right _ _) room, Nat.le_refl total⟩
            exact Fault.points_located (by simp [Cause.code]) covered _
          · rename_i body after found
            simp only [found] at taking
            exact points_of_ofAtom (meets_stringAtom body (covers _ taking)) refused
        · rename_i unquoted
          rw [if_neg unquoted] at taking
          by_cases plain : isAtomChar first = true
          · rw [if_pos plain] at refused taking
            exact points_of_ofAtom (meets_plainAtom _ (covers _ taking)) refused
          · rw [if_neg plain] at refused
            cases refused
            exact Fault.points_located (by simp [Cause.code]) (covers [first] ⟨rest, rfl⟩) _

/-- The tokens of a text stand in the source, and so do the faults. -/
theorem meets_scanFrom (chars : List Char) : ∀ {offset : Nat}, offset + byteLength chars ≤ total →
    Meets (Fault.Points total) (fun tokens => ∀ token ∈ tokens, token.span.Within total)
      (scanFrom total offset chars) := by
  induction size : chars.length using Nat.strong_induction_on generalizing chars with
  | _ count ih =>
    intro offset room
    cases chars with
    | nil =>
      rw [scanFrom]
      exact List.forall_mem_nil _
    | cons first rest =>
      have taken := lexeme_taken_pos total offset first rest
      have fewer : ((first :: rest).drop (lexeme total offset first rest).2.length).length < count := by
        rw [List.length_drop]
        simp only [List.length_cons] at size ⊢
        omega
      have parts : byteLength (first :: rest) = byteLength (lexeme total offset first rest).2 +
          byteLength ((first :: rest).drop (lexeme total offset first rest).2.length) := by
        rw [← byteLength_append]
        obtain ⟨after, whole⟩ := lexeme_taken_prefix total offset first rest
        have left : ((lexeme total offset first rest).2 ++ after).drop
            (lexeme total offset first rest).2.length = after := List.drop_left
        rw [whole] at left
        rw [left, whole]
      have later := @ih _ fewer _ rfl (offset + byteLength (lexeme total offset first rest).2)
        (by omega)
      rw [scanFrom]
      split
      · rename_i fault refused
        exact points_of_lexeme room refused
      · exact later
      · refine later.bind fun tokens within => ?_
        have stop : offset + byteLength (lexeme total offset first rest).2 ≤ total := by omega
        exact List.forall_mem_cons.mpr ⟨⟨Nat.le_add_right _ _, stop⟩, within⟩

theorem meets_scan (source : String) : Meets (Fault.Points source.utf8ByteSize)
    (fun tokens => ∀ token ∈ tokens, token.span.Within source.utf8ByteSize) (scan source) := by
  refine meets_scanFrom source.toList ?_
  rw [Nat.zero_add, byteLength_toList]

end Token

/-! ## Expressions -/

namespace Sexp

variable {total : Nat}

/-- An expression stands in a source, with all of its parts. -/
inductive Within (total : Nat) : Sexp → Prop
  | atom {value : Atom} {span : Span} (within : span.Within total) : Within total (.atom value span)
  | list {items : List Sexp} {span : Span} (within : span.Within total)
      (each : ∀ item ∈ items, Within total item) : Within total (.list items span)

theorem Within.span {sexp : Sexp} (within : sexp.Within total) : sexp.span.Within total := by
  cases within with
  | atom within => exact within
  | list within _ => exact within

theorem Within.items {items : List Sexp} {span : Span} (within : Within total (.list items span)) :
    ∀ item ∈ items, item.Within total := by
  cases within with
  | list _ each => exact each

/-- Tokens of a source are collected into expressions of the source. -/
theorem meets_collect {stop : Span} (ends : stop.Within total) {tokens : List Token} :
    ∀ {stack : List Opened} {items : List Sexp}, (∀ token ∈ tokens, token.span.Within total) →
      (∀ opened ∈ stack, opened.span.Within total ∧ ∀ item ∈ opened.before, item.Within total) →
      (∀ item ∈ items, item.Within total) →
      Meets (Fault.Points total) (fun sexps => ∀ sexp ∈ sexps, sexp.Within total)
        (collect stop tokens stack items) := by
  induction tokens with
  | nil =>
    intro stack items _ open_ fine
    cases stack with
    | nil =>
      rw [collect]
      exact fun sexp listed => fine sexp (List.mem_reverse.mp listed)
    | cons opened outer =>
      rw [collect]
      exact Fault.points_related (by simp [Cause.code]) ends (open_ opened List.mem_cons_self).1 _ _
  | cons token rest ih =>
    intro stack items tokens open_ fine
    obtain ⟨here, later⟩ := List.forall_mem_cons.mp tokens
    obtain ⟨kind, span⟩ := token
    cases kind with
    | atom value => exact ih later open_ (List.forall_mem_cons.mpr ⟨.atom here, fine⟩)
    | opening delimiter =>
      exact ih later (List.forall_mem_cons.mpr ⟨⟨here, fine⟩, open_⟩) (List.forall_mem_nil _)
    | closing delimiter =>
      cases stack with
      | nil =>
        rw [collect]
        exact Fault.points_located (by simp [Cause.code]) here _
      | cons opened outer =>
        obtain ⟨⟨begun, before⟩, outside⟩ := List.forall_mem_cons.mp open_
        rw [collect]
        split
        · refine ih later outside (List.forall_mem_cons.mpr ⟨.list (begun.merge here) ?_, before⟩)
          exact fun item listed => fine item (List.mem_reverse.mp listed)
        · exact Fault.points_related (by simp [Cause.code]) here begun _ _

theorem meets_readAll (source : String) : Meets (Fault.Points source.utf8ByteSize)
    (fun sexps => ∀ sexp ∈ sexps, sexp.Within source.utf8ByteSize) (readAll source) :=
  (Token.meets_scan source).bind fun _ within =>
    meets_collect (Span.within_point _) within (List.forall_mem_nil _) (List.forall_mem_nil _)

theorem points_ellipsisFault (fault : EllipsisFault) {span : Span} (within : span.Within total) :
    (ellipsisFault fault span).Points total :=
  Fault.points_located (by simp [Cause.code]) within _

theorem points_keywordFault (fault : KeywordFault) {span : Span} (within : span.Within total) :
    (keywordFault fault span).Points total :=
  Fault.points_located (by simp [Cause.code]) within _

mutual

/-- The faults of a pattern point to its expressions. -/
theorem meets_toPattern : (sexp : Sexp) → sexp.Within total →
    Meets (Fault.Points total) (fun _ => True) sexp.toPattern
  | .atom (.symbol name) span, within => by
    rw [toPattern]
    split
    · exact points_ellipsisFault _ within.span
    · trivial
  | .atom (.integer _) _, _ | .atom (.float _) _, _ | .atom (.string _) _, _
  | .atom (.boolean _) _, _ => trivial
  | .list items span, within => by
    have each := within.items
    unfold toPattern
    split
    · split
      · rename_i context contents _
        refine (meets_toPattern context (each _ (by simp))).bind fun _ _ => ?_
        exact (meets_toPattern contents (each _ (by simp))).bind fun _ _ => trivial
      · exact points_keywordFault _ within.span
    · split
      · trivial
      · exact points_keywordFault _ within.span
    · exact (meets_toPatternsAfter .leading items each).bind fun _ _ => trivial
termination_by sexp => sizeOf sexp

theorem meets_toPatternsAfter (fault : EllipsisFault) : (items : List Sexp) →
    (∀ item ∈ items, item.Within total) →
    Meets (Fault.Points total) (fun _ => True) (toPatternsAfter fault items)
  | [], _ => trivial
  | [item], each => by
    have here := each item List.mem_cons_self
    rw [toPatternsAfter]
    split
    · exact points_ellipsisFault _ here.span
    · exact (meets_toPattern item here).bind fun _ _ => trivial
  | item :: next :: rest, each => by
    obtain ⟨here, later⟩ := List.forall_mem_cons.mp each
    rw [toPatternsAfter]
    split
    · exact points_ellipsisFault _ here.span
    · refine (meets_toPattern item here).bind fun _ _ => ?_
      split
      · refine (meets_toPatternsAfter .doubled rest ?_).bind fun _ _ => trivial
        exact fun other listed => later other (List.mem_cons_of_mem _ listed)
      · exact (meets_toPatternsAfter .leading (next :: rest) later).bind fun _ _ => trivial
termination_by items => sizeOf items

end

mutual

/-- The faults of a template point to its expressions. -/
theorem meets_toTemplate : (sexp : Sexp) → sexp.Within total →
    Meets (Fault.Points total) (fun _ => True) sexp.toTemplate
  | .atom (.symbol name) span, within => by
    rw [toTemplate]
    split
    · exact points_ellipsisFault _ within.span
    · split <;> trivial
  | .atom (.integer _) _, _ | .atom (.float _) _, _ | .atom (.string _) _, _
  | .atom (.boolean _) _, _ => trivial
  | .list items span, within => by
    have each := within.items
    unfold toTemplate
    split
    · split
      · rename_i context contents _
        refine (meets_toTemplate context (each _ (by simp))).bind fun _ _ => ?_
        exact (meets_toTemplate contents (each _ (by simp))).bind fun _ _ => trivial
      · exact points_keywordFault _ within.span
    · split
      · split
        · rename_i keyword function rest _ _
          split
          · refine (meets_toTemplatesAfter .leading rest ?_).bind fun _ _ => trivial
            exact fun item listed => each item (by simp [listed])
          · exact points_keywordFault _ within.span
        · exact points_keywordFault _ within.span
      · exact (meets_toTemplatesAfter .leading items each).bind fun _ _ => trivial
termination_by sexp => sizeOf sexp

theorem meets_toTemplatesAfter (fault : EllipsisFault) : (items : List Sexp) →
    (∀ item ∈ items, item.Within total) →
    Meets (Fault.Points total) (fun _ => True) (toTemplatesAfter fault items)
  | [], _ => trivial
  | [item], each => by
    have here := each item List.mem_cons_self
    rw [toTemplatesAfter]
    split
    · exact points_ellipsisFault _ here.span
    · exact (meets_toTemplate item here).bind fun _ _ => trivial
  | item :: next :: rest, each => by
    obtain ⟨here, later⟩ := List.forall_mem_cons.mp each
    rw [toTemplatesAfter]
    split
    · exact points_ellipsisFault _ here.span
    · refine (meets_toTemplate item here).bind fun _ _ => ?_
      split
      · refine (meets_toTemplatesAfter .doubled rest ?_).bind fun _ _ => trivial
        exact fun other listed => later other (List.mem_cons_of_mem _ listed)
      · exact (meets_toTemplatesAfter .leading (next :: rest) later).bind fun _ _ => trivial
termination_by items => sizeOf items

end

end Sexp

end Reduct
