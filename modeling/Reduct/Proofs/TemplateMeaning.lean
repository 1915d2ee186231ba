import Reduct.Proofs.Frontier
import Reduct.Proofs.Occurrences
import Reduct.Proofs.Plugging
import Reduct.Template.Annotated

/-!
# What templates build

The meaning of a template, given values for its variables and what the functions that it calls
may give. A variable of depth `b` stands for the element of its value that the rounds of the `b`
outermost ellipses around it select. An ellipsis has as many rounds as every variable that it
walks has elements.

Annotation is related to this: it decides the symbols as the meaning does, and the drivers of an
ellipsis are the variables that it walks.
-/

namespace Reduct

theorem Term.subterm?_append {term : Term} {first second : Path} :
    term.subterm? (first ++ second) =
      (term.subterm? first).bind fun part => part.subterm? second := by
  induction first generalizing term with
  | nil => cases term <;> rfl
  | cons index rest ih =>
    cases term with
    | sequence items =>
      rw [List.cons_append, subterm?_sequence, subterm?_sequence]
      cases items[index]? with
      | none => rfl
      | some item => exact ih
    | atom value => rfl
    | hole => rfl

namespace Template

/-- Induction over templates, with a hypothesis for every item of a list. -/
theorem induction {motive : Template → Prop} (literal : ∀ term, motive (.literal term))
    (symbol : ∀ name, motive (.symbol name))
    (sequence : ∀ items, (∀ item ∈ items, motive item) → motive (.sequence items))
    (repeated : ∀ inner, motive inner → motive (.repeated inner))
    (inHole : ∀ context contents, motive context → motive contents →
      motive (.inHole context contents))
    (foreign : ∀ function arguments mode, (∀ argument ∈ arguments, motive argument) →
      motive (.foreign function arguments mode)) : ∀ template, motive template
  | .literal term => literal term
  | .symbol name => symbol name
  | .sequence items => sequence items fun item _ =>
    induction literal symbol sequence repeated inHole foreign item
  | .repeated inner =>
    repeated inner (induction literal symbol sequence repeated inHole foreign inner)
  | .inHole context contents => inHole context contents
    (induction literal symbol sequence repeated inHole foreign context)
    (induction literal symbol sequence repeated inHole foreign contents)
  | .foreign function arguments mode => foreign function arguments mode fun argument _ =>
    induction literal symbol sequence repeated inHole foreign argument

mutual

/-- The symbols of a template, from left to right. -/
def symbols : Template → List Symbol
  | .literal _ => []
  | .symbol name => [name]
  | .sequence items => symbolsAll items
  | .repeated inner => inner.symbols
  | .inHole context contents => context.symbols ++ contents.symbols
  | .foreign _ arguments _ => symbolsAll arguments

/-- The symbols of a list of templates, from left to right. -/
def symbolsAll : List Template → List Symbol
  | [] => []
  | item :: rest => item.symbols ++ symbolsAll rest

end

mutual

/-- The host functions that a template calls, from left to right, with the way in which their
results enter. -/
def foreigns : Template → List (Symbol × InsertMode)
  | .literal _ => []
  | .symbol _ => []
  | .sequence items => foreignsAll items
  | .repeated inner => inner.foreigns
  | .inHole context contents => context.foreigns ++ contents.foreigns
  | .foreign function arguments mode => (function, mode) :: foreignsAll arguments

/-- The host functions that a list of templates calls. -/
def foreignsAll : List Template → List (Symbol × InsertMode)
  | [] => []
  | item :: rest => item.foreigns ++ foreignsAll rest

end

mutual

/-- Every constant of a template is in a set of terms, the symbols without a depth among them. -/
def Constants (depths : Depths) (good : Term → Prop) : Template → Prop
  | .literal term => good term
  | .symbol name => depths.find? name = none → good (.symbol name)
  | .sequence items => ConstantsAll depths good items
  | .repeated inner => inner.Constants depths good
  | .inHole context contents => context.Constants depths good ∧ contents.Constants depths good
  | .foreign _ arguments _ => ConstantsAll depths good arguments

/-- Every constant of a list of templates is in a set of terms. -/
def ConstantsAll (depths : Depths) (good : Term → Prop) : List Template → Prop
  | [] => True
  | item :: rest => item.Constants depths good ∧ ConstantsAll depths good rest

end

/-- What a template gives to the templates around it. -/
inductive Part where
  /-- One term. -/
  | term (content : Term)
  /-- A term whose children enter a sequence. -/
  | spliced (content : Term)
  /-- The terms of an ellipsis. -/
  | terms (contents : List Term)

namespace Part

/-- What a part is where one term is needed. -/
def whole : Part → Term
  | term content => content
  | spliced content => content
  | terms contents => .sequence contents

/-- What a part adds to a sequence. -/
def items? : Part → Option (List Term)
  | term content => some [content]
  | spliced content => content.children?
  | terms contents => some contents

/-- What parts add to a sequence, in order. -/
def join (parts : List Part) : Option (List Term) := gather items? parts

/-- All terms of a part are in a set. -/
def Within (suits : Term → Prop) : Part → Prop
  | term content => suits content
  | spliced content => suits content
  | terms contents => ∀ content ∈ contents, suits content

end Part

/-- What the meaning of a template depends on. -/
structure Setting where
  /-- The depths of the variables. -/
  depths : Depths
  metafunctions : SymbolSet
  /-- The values of the variables. -/
  assignment : Symbol → Option Term
  /-- What a metafunction may give for the sequence of its arguments. -/
  applied : Symbol → Term → Term → Prop
  /-- What a host function may give for its arguments. -/
  called : Symbol → List Term → Term → Prop

namespace Setting

variable (setting : Setting)

/-- What a variable stands for in rounds of the ellipses around it, the outermost first. -/
def element? (rounds : List Nat) (name : Symbol) : Option Term :=
  (setting.depths.find? name).bind fun depth =>
    (setting.assignment name).bind fun value => value.subterm? (rounds.take depth)

/-- An ellipsis under `depth` others walks a variable. -/
def Walks (depth : Nat) (inner : Template) (name : Symbol) : Prop :=
  name ∈ inner.symbols ∧ ∃ bound, setting.depths.find? name = some bound ∧ depth < bound

/-- Every variable that an ellipsis walks has as many elements. -/
def Counts (rounds : List Nat) (inner : Template) (count : Nat) : Prop :=
  ∀ name, setting.Walks rounds.length inner name →
    ∃ items, setting.element? rounds name = some (.sequence items) ∧ items.length = count

/-- The elements that a walked variable has in rounds of the ellipses around. -/
def elements (rounds : List Nat) (name : Symbol) : List Term :=
  ((setting.element? rounds name).bind Term.children?).getD []

end Setting

mutual

/-- What a template builds in rounds of the ellipses around it, the outermost first. -/
inductive Builds (setting : Setting) : List Nat → Template → Part → Prop
  | literal {rounds : List Nat} {term : Term} : Builds setting rounds (.literal term) (.term term)
  | unbound {rounds : List Nat} {name : Symbol} (free : setting.depths.find? name = none) :
      Builds setting rounds (.symbol name) (.term (.symbol name))
  | bound {rounds : List Nat} {name : Symbol} {term : Term}
      (selected : setting.element? rounds name = some term) :
      Builds setting rounds (.symbol name) (.term term)
  | sequence {rounds : List Nat} {items : List Template} {parts : List Part} {terms : List Term}
      (plain : applied? setting.depths setting.metafunctions items = none)
      (each : BuildsAll setting rounds items parts) (joined : Part.join parts = some terms) :
      Builds setting rounds (.sequence items) (.term (.sequence terms))
  | application {rounds : List Nat} {items : List Template} {function : Symbol}
      {parts : List Part} {terms : List Term} {result : Term}
      (applied : applied? setting.depths setting.metafunctions items = some function)
      (each : BuildsAll setting rounds items.tail parts) (joined : Part.join parts = some terms)
      (gives : setting.applied function (.sequence terms) result) :
      Builds setting rounds (.sequence items) (.term result)
  | repeated {rounds : List Nat} {inner : Template} {count : Nat} {part : Nat → Part}
      {terms : List Term} (driven : ∃ name, setting.Walks rounds.length inner name)
      (counts : setting.Counts rounds inner count)
      (each : ∀ round < count, Builds setting (rounds ++ [round]) inner (part round))
      (joined : Part.join ((List.range count).map part) = some terms) :
      Builds setting rounds (.repeated inner) (.terms terms)
  | inHole {rounds : List Nat} {context contents : Template} {outer inner : Part} {term : Term}
      (around : Builds setting rounds context outer)
      (within : Builds setting rounds contents inner)
      (plugged : outer.whole.plug? inner.whole = some term) :
      Builds setting rounds (.inHole context contents) (.term term)
  | call {rounds : List Nat} {function : Symbol} {arguments : List Template} {parts : List Part}
      {result : Term} (each : BuildsAll setting rounds arguments parts)
      (gives : setting.called function (parts.map Part.whole) result) :
      Builds setting rounds (.foreign function arguments .append) (.term result)
  | splice {rounds : List Nat} {function : Symbol} {arguments : List Template}
      {parts : List Part} {result : Term} (each : BuildsAll setting rounds arguments parts)
      (gives : setting.called function (parts.map Part.whole) result) :
      Builds setting rounds (.foreign function arguments .splice) (.spliced result)

/-- What templates build, one by one. -/
inductive BuildsAll (setting : Setting) : List Nat → List Template → List Part → Prop
  | nil {rounds : List Nat} : BuildsAll setting rounds [] []
  | cons {rounds : List Nat} {item : Template} {rest : List Template} {part : Part}
      {parts : List Part} (first : Builds setting rounds item part)
      (others : BuildsAll setting rounds rest parts) :
      BuildsAll setting rounds (item :: rest) (part :: parts)

end

/-- What can go wrong where a template is built, beside the functions that it calls: ellipses of
variables of different lengths, a context without a hole, or children that are wanted of a term
that is no sequence. -/
inductive Fails (setting : Setting) : List Nat → Template → TermError → Prop
  | item {rounds : List Nat} {items : List Template} {item : Template} {cause : TermError}
      (listed : item ∈ items) (inside : Fails setting rounds item cause) :
      Fails setting rounds (.sequence items) cause
  | spliced {rounds : List Nat} {items : List Template} {item : Template} {content : Term}
      (listed : item ∈ items) (built : Builds setting rounds item (.spliced content))
      (childless : content.children? = none) :
      Fails setting rounds (.sequence items) (.wrongKind .sequence content)
  | uneven {rounds : List Nat} {inner : Template} {name other : Symbol}
      {items others : List Term} (walked : setting.Walks rounds.length inner name)
      (beside : setting.Walks rounds.length inner other)
      (selected : setting.element? rounds name = some (.sequence items))
      (found : setting.element? rounds other = some (.sequence others))
      (differ : others.length ≠ items.length) :
      Fails setting rounds (.repeated inner) (.inconsistentCounts items.length others.length)
  | round {rounds : List Nat} {inner : Template} {count round : Nat} {cause : TermError}
      (counts : setting.Counts rounds inner count) (below : round < count)
      (inside : Fails setting (rounds ++ [round]) inner cause) :
      Fails setting rounds (.repeated inner) cause
  | roundSpliced {rounds : List Nat} {inner : Template} {count round : Nat} {content : Term}
      (counts : setting.Counts rounds inner count) (below : round < count)
      (built : Builds setting (rounds ++ [round]) inner (.spliced content))
      (childless : content.children? = none) :
      Fails setting rounds (.repeated inner) (.wrongKind .sequence content)
  | context {rounds : List Nat} {context contents : Template} {cause : TermError}
      (inside : Fails setting rounds context cause) :
      Fails setting rounds (.inHole context contents) cause
  | contents {rounds : List Nat} {context contents : Template} {cause : TermError}
      (inside : Fails setting rounds contents cause) :
      Fails setting rounds (.inHole context contents) cause
  | closed {rounds : List Nat} {context contents : Template} {outer : Part}
      (around : Builds setting rounds context outer) (closed : outer.whole.holes = 0) :
      Fails setting rounds (.inHole context contents) (.noHole outer.whole)
  | argument {rounds : List Nat} {function : Symbol} {arguments : List Template}
      {mode : InsertMode} {argument : Template} {cause : TermError}
      (listed : argument ∈ arguments) (inside : Fails setting rounds argument cause) :
      Fails setting rounds (.foreign function arguments mode) cause

/-- The term that a template denotes. -/
def Denotes (setting : Setting) (template : Template) (term : Term) : Prop :=
  ∃ part, Builds setting [] template part ∧ part.whole = term

end Template

/-- A sequence of sequences and so on, to a depth, all of which can be counted. -/
def Term.NestedTo : Nat → Term → Prop
  | 0, _ => True
  | depth + 1, term => ∃ items, term = .sequence items ∧ items.length ≤ mostCount ∧
      ∀ item ∈ items, item.NestedTo depth

namespace Template

variable {depths : Depths} {metafunctions : SymbolSet}

namespace Setting

variable {setting : Setting} {rounds : List Nat} {name : Symbol} {bound : Nat}

/-- A further round selects among the elements of a walked variable. -/
theorem element?_walked (known : setting.depths.find? name = some bound)
    (below : rounds.length < bound) {items : List Term}
    (selected : setting.element? rounds name = some (.sequence items)) (round : Nat) :
    setting.element? (rounds ++ [round]) name = items[round]? := by
  unfold element? at selected ⊢
  rw [known, Option.bind_some] at selected ⊢
  obtain ⟨value, found, reached⟩ := Option.bind_eq_some_iff.mp selected
  rw [List.take_of_length_le (Nat.le_of_lt below)] at reached
  have deeper : (rounds ++ [round]).length ≤ bound := by
    rw [List.length_append, List.length_singleton]
    exact below
  rw [found, Option.bind_some, List.take_of_length_le deeper, Term.subterm?_append, reached,
    Option.bind_some, Term.subterm?_sequence]
  cases items[round]? with
  | none => rfl
  | some item => exact Term.subterm?_nil item

/-- A further round leaves the other variables alone. -/
theorem element?_kept (known : setting.depths.find? name = some bound)
    (above : bound ≤ rounds.length) (round : Nat) :
    setting.element? (rounds ++ [round]) name = setting.element? rounds name := by
  unfold element?
  rw [known, Option.bind_some, Option.bind_some, List.take_append_of_le_length above]

end Setting

/-- Only an ellipsis gives the terms of an ellipsis. -/
theorem Builds.repeated_of_terms {setting : Setting} {rounds : List Nat} {template : Template}
    {contents : List Term} (builds : Builds setting rounds template (.terms contents)) :
    ∃ inner, template = .repeated inner := by
  cases builds with
  | repeated => exact ⟨_, rfl⟩

/-- The functions of a setting give at most one result for the same arguments. -/
structure Setting.Functional (setting : Setting) : Prop where
  applied : ∀ function argument first second, setting.applied function argument first →
    setting.applied function argument second → first = second
  called : ∀ function arguments first second, setting.called function arguments first →
    setting.called function arguments second → first = second

/-- A template builds at most one part in the same rounds, if its functions give at most one
result. -/
theorem Builds.unique {setting : Setting} (functional : setting.Functional) {template : Template} :
    ∀ {rounds : List Nat} {first second : Part}, Builds setting rounds template first →
      Builds setting rounds template second → first = second := by
  have all : ∀ {items : List Template},
      (∀ item ∈ items, ∀ {rounds : List Nat} {first second : Part},
        Builds setting rounds item first → Builds setting rounds item second → first = second) →
      ∀ {rounds : List Nat} {first second : List Part}, BuildsAll setting rounds items first →
        BuildsAll setting rounds items second → first = second := by
    intro items each rounds first second one two
    induction items generalizing first second with
    | nil =>
      cases one
      cases two
      rfl
    | cons item rest ih =>
      obtain ⟨here, later⟩ := List.forall_mem_cons.mp each
      cases one with
      | cons left lefts =>
        cases two with
        | cons right rights => rw [here left right, ih later lefts rights]
  induction template using Template.induction with
  | literal term =>
    intro rounds first second one two
    cases one
    cases two
    rfl
  | symbol name =>
    intro rounds first second one two
    have apart : ∀ {term : Term}, setting.depths.find? name = none →
        setting.element? rounds name ≠ some term := by
      intro term free selected
      rw [Setting.element?, free] at selected
      cases selected
    cases one with
    | unbound free =>
      cases two with
      | unbound => rfl
      | bound selected => exact absurd selected (apart free)
    | bound selected =>
      cases two with
      | unbound free => exact absurd selected (apart free)
      | bound found =>
        rw [selected] at found
        cases found
        rfl
  | sequence items each =>
    intro rounds first second one two
    cases one with
    | sequence plain inner joined =>
      cases two with
      | sequence _ other joins =>
        rw [all each inner other] at joined
        rw [joined] at joins
        cases joins
        rfl
      | application applied =>
        rw [plain] at applied
        cases applied
    | application applied inner joined gives =>
      cases two with
      | sequence plain =>
        rw [plain] at applied
        cases applied
      | application again other joins results =>
        rw [applied] at again
        cases again
        rw [all (fun item listed => each item (List.mem_of_mem_tail listed)) inner other] at joined
        rw [joined] at joins
        cases joins
        rw [functional.applied _ _ _ _ gives results]
  | repeated inner ih =>
    intro rounds first second one two
    cases one with
    | repeated driven counts builds joined =>
      cases two with
      | repeated _ others building joins =>
        obtain ⟨name, walks⟩ := driven
        obtain ⟨items, selected, rfl⟩ := counts name walks
        obtain ⟨again, found, same⟩ := others name walks
        rw [selected] at found
        cases found
        subst same
        rw [List.map_congr_left fun round below => ih (builds round (List.mem_range.mp below))
          (building round (List.mem_range.mp below))] at joined
        rw [joined] at joins
        cases joins
        rfl
  | inHole context contents around within =>
    intro rounds first second one two
    cases one with
    | inHole outer inner plugged =>
      cases two with
      | inHole other fill plugs =>
        rw [around outer other, within inner fill] at plugged
        rw [plugged] at plugs
        cases plugs
        rfl
  | foreign function arguments mode each =>
    intro rounds first second one two
    cases one with
    | call inner gives =>
      cases two with
      | call other results =>
        rw [all each inner other] at gives
        rw [functional.called _ _ _ _ gives results]
    | splice inner gives =>
      cases two with
      | splice other results =>
        rw [all each inner other] at gives
        rw [functional.called _ _ _ _ gives results]

theorem mem_symbolsAll {items : List Template} {name : Symbol} :
    name ∈ symbolsAll items ↔ ∃ item ∈ items, name ∈ item.symbols := by
  induction items with
  | nil => simp [symbolsAll]
  | cons item rest ih => simp [symbolsAll, ih]

theorem constantsAll_iff {good : Term → Prop} {items : List Template} :
    ConstantsAll depths good items ↔ ∀ item ∈ items, item.Constants depths good := by
  induction items with
  | nil => simp [ConstantsAll]
  | cons item rest ih => simp [ConstantsAll, ih]

/-- An application starts with the symbol of its metafunction, which is not bound. -/
theorem applied?_eq_some {items : List Template} {function : Symbol}
    (applied : applied? depths metafunctions items = some function) :
    ∃ arguments, items = .symbol function :: arguments ∧ depths.find? function = none ∧
      metafunctions.contains function = true := by
  unfold applied? at applied
  split at applied
  · rename_i name arguments
    split at applied
    · rename_i known
      cases applied
      rw [Bool.and_eq_true, Bool.not_eq_true', Table.contains] at known
      exact ⟨arguments, rfl, Option.isSome_eq_false_iff.mp known.1 |> Option.isNone_iff_eq_none.mp,
        known.2⟩
    · cases applied
  · cases applied

theorem annotateAllAt_cons {depth : Nat} {item : Template} {rest : List Template}
    {annotated : List Annotated} :
    annotateAllAt depths metafunctions depth (item :: rest) = .ok annotated ↔
      ∃ first others, item.annotateAt depths metafunctions depth = .ok first ∧
        annotateAllAt depths metafunctions depth rest = .ok others ∧
        annotated = first :: others := by
  rw [annotateAllAt_cons_eq]
  constructor
  · intro accepted
    obtain ⟨first, one, accepted⟩ := Except.bind_eq_ok.mp accepted
    obtain ⟨others, two, made⟩ := Except.bind_eq_ok.mp accepted
    cases made
    exact ⟨first, others, one, two, rfl⟩
  · rintro ⟨first, others, one, two, rfl⟩
    exact Except.bind_eq_ok.mpr ⟨first, one, Except.bind_eq_ok.mpr ⟨others, two, rfl⟩⟩

/-- What annotation makes of a sequence. -/
theorem annotateAt_sequence {depth : Nat} {items : List Template} {annotated : Annotated}
    (accepted : (Template.sequence items).annotateAt depths metafunctions depth = .ok annotated) :
    (applied? depths metafunctions items = none ∧ ∃ all,
      annotateAllAt depths metafunctions depth items = .ok all ∧ annotated = .sequence all) ∨
    ∃ function arguments all, applied? depths metafunctions items = some function ∧
      items = .symbol function :: arguments ∧ depths.find? function = none ∧
      metafunctions.contains function = true ∧
      annotateAllAt depths metafunctions depth arguments = .ok all ∧
      annotated = .metafunction function all := by
  rw [annotateAt.eq_def] at accepted
  cases found : applied? depths metafunctions items with
  | none =>
    simp only [found] at accepted
    obtain ⟨all, one, made⟩ := Except.bind_eq_ok.mp accepted
    cases made
    exact .inl ⟨rfl, all, one, rfl⟩
  | some function =>
    obtain ⟨arguments, rfl, free, known⟩ := applied?_eq_some found
    simp only [found] at accepted
    obtain ⟨all, one, made⟩ := Except.bind_eq_ok.mp accepted
    cases made
    exact .inr ⟨function, arguments, all, rfl, rfl, free, known, one, rfl⟩

/-- What annotation makes of an ellipsis. -/
theorem annotateAt_repeated {depth : Nat} {inner : Template} {annotated : Annotated}
    (accepted : (Template.repeated inner).annotateAt depths metafunctions depth = .ok annotated) :
    ∃ body, inner.annotateAt depths metafunctions (depth + 1) = .ok body ∧
      body.driversAt depth ≠ [] ∧ annotated = .repeated body (body.driversAt depth) := by
  rw [annotateAt_repeated_eq] at accepted
  obtain ⟨body, one, accepted⟩ := Except.bind_eq_ok.mp accepted
  split at accepted
  · cases accepted
  · rename_i driven
    cases accepted
    exact ⟨body, one, driven, rfl⟩

theorem annotateAt_inHole {depth : Nat} {context contents : Template} {annotated : Annotated}
    (accepted : (Template.inHole context contents).annotateAt depths metafunctions depth =
      .ok annotated) :
    ∃ outer inner, context.annotateAt depths metafunctions depth = .ok outer ∧
      contents.annotateAt depths metafunctions depth = .ok inner ∧
      annotated = .inHole outer inner := by
  rw [annotateAt_inHole_eq] at accepted
  obtain ⟨outer, one, accepted⟩ := Except.bind_eq_ok.mp accepted
  obtain ⟨inner, two, made⟩ := Except.bind_eq_ok.mp accepted
  cases made
  exact ⟨outer, inner, one, two, rfl⟩

theorem annotateAt_foreign {depth : Nat} {function : Symbol} {arguments : List Template}
    {mode : InsertMode} {annotated : Annotated}
    (accepted : (Template.foreign function arguments mode).annotateAt depths metafunctions depth =
      .ok annotated) :
    ∃ all, annotateAllAt depths metafunctions depth arguments = .ok all ∧
      annotated = .foreign function all mode := by
  rw [annotateAt_foreign_eq] at accepted
  obtain ⟨all, one, made⟩ := Except.bind_eq_ok.mp accepted
  cases made
  exact ⟨all, one, rfl⟩

/-- The occurrences of an annotated template are the variables among the symbols of the template,
with their depths, in the same order. -/
theorem occurrences_eq {template : Template} : ∀ {depth : Nat} {annotated : Annotated},
    template.annotateAt depths metafunctions depth = .ok annotated →
      annotated.occurrences =
        template.symbols.filterMap fun name => (depths.find? name).map fun bound => (name, bound) := by
  have list : ∀ items : List Template,
      (∀ item ∈ items, ∀ {depth : Nat} {annotated : Annotated},
        item.annotateAt depths metafunctions depth = .ok annotated →
        annotated.occurrences =
          item.symbols.filterMap fun name => (depths.find? name).map fun bound => (name, bound)) →
      ∀ {depth : Nat} {annotated : List Annotated},
        annotateAllAt depths metafunctions depth items = .ok annotated →
        Annotated.occurrencesAll annotated =
          (symbolsAll items).filterMap fun name =>
            (depths.find? name).map fun bound => (name, bound) := by
    intro items each depth annotated accepted
    induction items generalizing annotated with
    | nil =>
      cases accepted
      rfl
    | cons item rest ih =>
      obtain ⟨first, others, one, two, rfl⟩ := annotateAllAt_cons.mp accepted
      obtain ⟨here, later⟩ := List.forall_mem_cons.mp each
      rw [Annotated.occurrencesAll, symbolsAll, List.filterMap_append, here one, ih later two]
  induction template using Template.induction with
  | literal term =>
    intro depth annotated accepted
    cases accepted
    rfl
  | symbol name =>
    intro depth annotated accepted
    rw [annotateAt_symbol_eq, annotateSymbol] at accepted
    split at accepted
    · rename_i free
      cases accepted
      simp [Annotated.occurrences, symbols, free]
    · rename_i bound known
      split at accepted
      · cases accepted
      · cases accepted
        simp [Annotated.occurrences, symbols, known]
  | sequence items each =>
    intro depth annotated accepted
    rcases annotateAt_sequence accepted with
      ⟨_, all, one, rfl⟩ | ⟨function, arguments, all, _, rfl, free, _, one, rfl⟩
    · exact list items each one
    · have rest := list arguments (fun item listed => each item (List.mem_cons_of_mem _ listed)) one
      simp [Annotated.occurrences, symbols, symbolsAll, free, rest]
  | repeated inner ih =>
    intro depth annotated accepted
    obtain ⟨body, one, _, rfl⟩ := annotateAt_repeated accepted
    rw [Annotated.occurrences, symbols, ih one]
  | inHole context contents around within =>
    intro depth annotated accepted
    obtain ⟨outer, inner, one, two, rfl⟩ := annotateAt_inHole accepted
    rw [Annotated.occurrences, symbols, List.filterMap_append, around one, within two]
  | foreign function arguments mode each =>
    intro depth annotated accepted
    obtain ⟨all, one, rfl⟩ := annotateAt_foreign accepted
    exact list arguments each one

theorem mem_occurrences {template : Template} {depth : Nat} {annotated : Annotated}
    (accepted : template.annotateAt depths metafunctions depth = .ok annotated) {name : Symbol}
    {bound : Nat} : (name, bound) ∈ annotated.occurrences ↔
      name ∈ template.symbols ∧ depths.find? name = some bound := by
  simp [occurrences_eq accepted]

/-- The variables that an ellipsis under `depth` others walks, each once, in the order of their
first occurrences. -/
def walked (depths : Depths) (depth : Nat) (inner : Template) : List Symbol :=
  (inner.symbols.filter fun name => (depths.find? name).any (depth < ·)).foldl Pattern.addOnce []

/-- The drivers of an ellipsis are the variables that it walks. -/
theorem driversAt_eq {inner : Template} {depth above : Nat} {body : Annotated}
    (accepted : inner.annotateAt depths metafunctions above = .ok body) :
    body.driversAt depth = walked depths depth inner := by
  have same : ∀ names : List Symbol,
      ((names.filterMap fun name => (depths.find? name).map fun bound => (name, bound)).filter
        fun found => depth < found.2).map (·.1) =
      names.filter fun name => (depths.find? name).any (depth < ·) := by
    intro names
    induction names with
    | nil => rfl
    | cons name rest ih =>
      cases known : depths.find? name with
      | none => simp [known, ih]
      | some bound => by_cases below : depth < bound <;> simp [known, below, ih]
  rw [Annotated.driversAt, walked, occurrences_eq accepted, same]

theorem mem_walked {depth : Nat} {inner : Template} {name : Symbol} :
    name ∈ walked depths depth inner ↔
      name ∈ inner.symbols ∧ ∃ bound, depths.find? name = some bound ∧ depth < bound := by
  simp [walked, Pattern.mem_foldl_addOnce, Option.any_eq_true]

theorem mem_driversAt {inner : Template} {depth above : Nat} {body : Annotated}
    (accepted : inner.annotateAt depths metafunctions above = .ok body) {name : Symbol} :
    name ∈ body.driversAt depth ↔
      name ∈ inner.symbols ∧ ∃ bound, depths.find? name = some bound ∧ depth < bound := by
  rw [driversAt_eq accepted, mem_walked]

/-- The variables that an annotated template reads are those among the symbols. -/
theorem mem_readSymbols {template : Template} {depth : Nat} {annotated : Annotated}
    (accepted : template.annotateAt depths metafunctions depth = .ok annotated) {name : Symbol} :
    name ∈ annotated.readSymbols ↔ name ∈ template.symbols ∧ ∃ bound, depths.find? name = some bound := by
  unfold Annotated.readSymbols
  rw [Pattern.mem_foldl_addOnce]
  simp only [List.not_mem_nil, false_or, List.mem_map, Prod.exists, exists_and_right,
    exists_eq_right, mem_occurrences accepted]
  constructor
  · rintro ⟨bound, listed, known⟩
    exact ⟨listed, bound, known⟩
  · rintro ⟨listed, bound, known⟩
    exact ⟨bound, listed, known⟩

end Template

end Reduct
