import Reduct.Proofs.FaultPlaces
import Reduct.Proofs.TemplateMeaning

/-!
# The choice of drivers

A template is annotated exactly if every variable stands under as many ellipses as it was bound
under, and every ellipsis has a variable to walk. A fault tells which of the two is violated. In an
annotated template the ellipses that walk a variable are the outermost ones around it, as many as
it was bound under.
-/

namespace Reduct

namespace Template

/-- A part of a template stands under `depth` ellipses, if the template stands under some. -/
inductive Stands (part : Template) (depth : Nat) : Nat → Template → Prop
  | here : Stands part depth depth part
  | item {above : Nat} {items : List Template} {item : Template} (listed : item ∈ items)
      (inside : Stands part depth above item) : Stands part depth above (.sequence items)
  | round {above : Nat} {inner : Template} (inside : Stands part depth (above + 1) inner) :
      Stands part depth above (.repeated inner)
  | context {above : Nat} {context contents : Template}
      (inside : Stands part depth above context) :
      Stands part depth above (.inHole context contents)
  | contents {above : Nat} {context contents : Template}
      (inside : Stands part depth above contents) :
      Stands part depth above (.inHole context contents)
  | argument {above : Nat} {function : Symbol} {arguments : List Template} {mode : InsertMode}
      {argument : Template} (listed : argument ∈ arguments)
      (inside : Stands part depth above argument) :
      Stands part depth above (.foreign function arguments mode)

/-- Every variable stands under at least as many ellipses as it was bound under. -/
def DeepEnough (depths : Depths) (above : Nat) (template : Template) : Prop :=
  ∀ name bound depth, Stands (.symbol name) depth above template →
    depths.find? name = some bound → bound ≤ depth

/-- Every ellipsis has a variable under it that was bound under more ellipses than there are
around this one. -/
def Iterates (depths : Depths) (above : Nat) (template : Template) : Prop :=
  ∀ inner depth, Stands (.repeated inner) depth above template →
    ∃ name bound below, Stands (.symbol name) below (depth + 1) inner ∧
      depths.find? name = some bound ∧ depth < bound

end Template

namespace Annotated

/-- A part of an annotated template stands under ellipses with some drivers, the outermost
first. -/
inductive Stands (part : Annotated) : List (List Symbol) → Annotated → Prop
  | here : Stands part [] part
  | item {levels : List (List Symbol)} {items : List Annotated} {item : Annotated}
      (listed : item ∈ items) (inside : Stands part levels item) :
      Stands part levels (.sequence items)
  | round {levels : List (List Symbol)} {drivers : List Symbol} {inner : Annotated}
      (inside : Stands part levels inner) :
      Stands part (drivers :: levels) (.repeated inner drivers)
  | context {levels : List (List Symbol)} {context contents : Annotated}
      (inside : Stands part levels context) : Stands part levels (.inHole context contents)
  | contents {levels : List (List Symbol)} {context contents : Annotated}
      (inside : Stands part levels contents) : Stands part levels (.inHole context contents)
  | application {levels : List (List Symbol)} {function : Symbol} {arguments : List Annotated}
      {argument : Annotated} (listed : argument ∈ arguments)
      (inside : Stands part levels argument) : Stands part levels (.metafunction function arguments)
  | argument {levels : List (List Symbol)} {function : Symbol} {arguments : List Annotated}
      {mode : InsertMode} {argument : Annotated} (listed : argument ∈ arguments)
      (inside : Stands part levels argument) :
      Stands part levels (.foreign function arguments mode)

/-- Every variable is walked by the outermost ellipses around it, as many as it was bound under;
and every ellipsis walks variables that stand under it, each listed once. -/
structure Driven (annotated : Annotated) : Prop where
  outermost : ∀ name bound levels, Stands (.bound name bound) levels annotated →
    bound ≤ levels.length ∧
      ∀ index drivers, levels[index]? = some drivers → (name ∈ drivers ↔ index < bound)
  needed : ∀ inner drivers levels, Stands (.repeated inner drivers) levels annotated →
    drivers ≠ [] ∧ drivers.Nodup ∧
      ∀ name ∈ drivers, ∃ bound below, Stands (.bound name bound) below inner

/-- An ellipsis around a part stands in the whole, with the part under it. -/
theorem Stands.level {part whole : Annotated} {levels : List (List Symbol)}
    (stands : Stands part levels whole) : ∀ {index : Nat} {drivers : List Symbol},
    levels[index]? = some drivers →
      ∃ inner, Stands (.repeated inner drivers) (levels.take index) whole ∧
        Stands part (levels.drop (index + 1)) inner := by
  induction stands with
  | here => nofun
  | item listed _ ih =>
    intro index drivers found
    obtain ⟨inner, around, within⟩ := ih found
    exact ⟨inner, .item listed around, within⟩
  | @round levels outer inner inside ih =>
    intro index drivers found
    cases index with
    | zero =>
      cases found
      exact ⟨inner, .here, inside⟩
    | succ index =>
      obtain ⟨body, around, within⟩ := ih found
      exact ⟨body, .round around, within⟩
  | context _ ih =>
    intro index drivers found
    obtain ⟨inner, around, within⟩ := ih found
    exact ⟨inner, .context around, within⟩
  | contents _ ih =>
    intro index drivers found
    obtain ⟨inner, around, within⟩ := ih found
    exact ⟨inner, .contents around, within⟩
  | application listed _ ih =>
    intro index drivers found
    obtain ⟨inner, around, within⟩ := ih found
    exact ⟨inner, .application listed around, within⟩
  | argument listed _ ih =>
    intro index drivers found
    obtain ⟨inner, around, within⟩ := ih found
    exact ⟨inner, .argument listed around, within⟩

end Annotated

namespace Template

variable {depths : Depths} {metafunctions : SymbolSet}

/-- The symbols of a template are those that stand in it. -/
theorem mem_symbols_iff {name : Symbol} {template : Template} : ∀ {above : Nat},
    name ∈ template.symbols ↔ ∃ depth, Stands (.symbol name) depth above template := by
  induction template using Template.induction with
  | literal term =>
    intro above
    constructor
    · nofun
    · rintro ⟨_, ⟨⟩⟩
  | symbol other =>
    intro above
    rw [symbols, List.mem_singleton]
    constructor
    · rintro rfl
      exact ⟨above, .here⟩
    · rintro ⟨_, ⟨⟩⟩
      rfl
  | sequence items each =>
    intro above
    rw [symbols, mem_symbolsAll]
    constructor
    · rintro ⟨item, listed, among⟩
      obtain ⟨depth, stands⟩ := (each item listed).mp among
      exact ⟨depth, .item listed stands⟩
    · rintro ⟨depth, ⟨⟩ | ⟨listed, stands⟩⟩
      exact ⟨_, listed, (each _ listed).mpr ⟨depth, stands⟩⟩
  | repeated inner ih =>
    intro above
    rw [symbols, @ih (above + 1)]
    constructor
    · rintro ⟨depth, stands⟩
      exact ⟨depth, .round stands⟩
    · rintro ⟨depth, ⟨⟩ | ⟨⟩ | stands⟩
      exact ⟨depth, stands⟩
  | inHole context contents around within =>
    intro above
    rw [symbols, List.mem_append, @around above, @within above]
    constructor
    · rintro (⟨depth, stands⟩ | ⟨depth, stands⟩)
      · exact ⟨depth, .context stands⟩
      · exact ⟨depth, .contents stands⟩
    · rintro ⟨depth, stands⟩
      cases stands with
      | context stands => exact .inl ⟨depth, stands⟩
      | contents stands => exact .inr ⟨depth, stands⟩
  | foreign function arguments mode each =>
    intro above
    rw [symbols, mem_symbolsAll]
    constructor
    · rintro ⟨item, listed, among⟩
      obtain ⟨depth, stands⟩ := (each item listed).mp among
      exact ⟨depth, .argument listed stands⟩
    · rintro ⟨depth, stands⟩
      cases stands with
      | argument listed stands => exact ⟨_, listed, (each _ listed).mpr ⟨depth, stands⟩⟩

/-- Annotation of a list succeeds for its members. -/
theorem annotateAllAt_of_mem {depth : Nat} {items : List Template} {all : List Annotated}
    (accepted : annotateAllAt depths metafunctions depth items = .ok all) {item : Template}
    (listed : item ∈ items) :
    ∃ annotated ∈ all, item.annotateAt depths metafunctions depth = .ok annotated := by
  induction items generalizing all with
  | nil => cases listed
  | cons first rest ih =>
    obtain ⟨one, others, here, later, rfl⟩ := annotateAllAt_cons.mp accepted
    rcases List.mem_cons.mp listed with rfl | listed
    · exact ⟨one, List.mem_cons_self, here⟩
    · obtain ⟨annotated, among, made⟩ := ih later listed
      exact ⟨annotated, List.mem_cons_of_mem _ among, made⟩

/-- What annotation makes of a list comes from its members. -/
theorem mem_of_annotateAllAt {depth : Nat} {items : List Template} {all : List Annotated}
    (accepted : annotateAllAt depths metafunctions depth items = .ok all) {annotated : Annotated}
    (listed : annotated ∈ all) :
    ∃ item ∈ items, item.annotateAt depths metafunctions depth = .ok annotated := by
  induction items generalizing all with
  | nil =>
    cases accepted
    cases listed
  | cons first rest ih =>
    obtain ⟨one, others, here, later, rfl⟩ := annotateAllAt_cons.mp accepted
    rcases List.mem_cons.mp listed with rfl | listed
    · exact ⟨first, List.mem_cons_self, here⟩
    · obtain ⟨item, among, made⟩ := ih later listed
      exact ⟨item, List.mem_cons_of_mem _ among, made⟩

/-- A part of a template is annotated where it stands, unless it is a symbol without a depth. -/
theorem Stands.annotated {part template : Template} {depth above : Nat}
    (stands : Stands part depth above template) : ∀ {whole : Annotated},
    template.annotateAt depths metafunctions above = .ok whole →
      (∀ name, part = .symbol name → ∃ bound, depths.find? name = some bound) →
      ∃ own levels, part.annotateAt depths metafunctions depth = .ok own ∧
        above + levels.length = depth ∧ Annotated.Stands own levels whole := by
  induction stands with
  | here =>
    intro whole accepted _
    exact ⟨whole, [], accepted, rfl, .here⟩
  | @item above items item listed inside ih =>
    intro whole accepted variable_
    rcases annotateAt_sequence accepted with
      ⟨_, all, one, rfl⟩ | ⟨function, arguments, all, _, rfl, free, _, one, rfl⟩
    · obtain ⟨made, among, inner⟩ := annotateAllAt_of_mem one listed
      obtain ⟨own, levels, annotates, count, stands⟩ := ih inner variable_
      exact ⟨own, levels, annotates, count, .item among stands⟩
    · rcases List.mem_cons.mp listed with rfl | listed
      · cases inside
        obtain ⟨bound, known⟩ := variable_ function rfl
        rw [free] at known
        cases known
      · obtain ⟨made, among, inner⟩ := annotateAllAt_of_mem one listed
        obtain ⟨own, levels, annotates, count, stands⟩ := ih inner variable_
        exact ⟨own, levels, annotates, count, .application among stands⟩
  | round _ ih =>
    intro whole accepted variable_
    obtain ⟨body, one, _, rfl⟩ := annotateAt_repeated accepted
    obtain ⟨own, levels, annotates, count, stands⟩ := ih one variable_
    refine ⟨own, _ :: levels, annotates, ?_, .round stands⟩
    rw [List.length_cons]
    omega
  | context _ ih =>
    intro whole accepted variable_
    obtain ⟨outer, inner, one, _, rfl⟩ := annotateAt_inHole accepted
    obtain ⟨own, levels, annotates, count, stands⟩ := ih one variable_
    exact ⟨own, levels, annotates, count, .context stands⟩
  | contents _ ih =>
    intro whole accepted variable_
    obtain ⟨outer, inner, _, two, rfl⟩ := annotateAt_inHole accepted
    obtain ⟨own, levels, annotates, count, stands⟩ := ih two variable_
    exact ⟨own, levels, annotates, count, .contents stands⟩
  | argument listed _ ih =>
    intro whole accepted variable_
    obtain ⟨all, one, rfl⟩ := annotateAt_foreign accepted
    obtain ⟨made, among, inner⟩ := annotateAllAt_of_mem one listed
    obtain ⟨own, levels, annotates, count, stands⟩ := ih inner variable_
    exact ⟨own, levels, annotates, count, .argument among stands⟩

/-- A symbol is annotated as a constant if it has no depth, else as a variable that stands deep
enough. -/
theorem annotateAt_symbol {name : Symbol} {depth : Nat} {annotated : Annotated}
    (accepted : (Template.symbol name).annotateAt depths metafunctions depth = .ok annotated) :
    (depths.find? name = none ∧ annotated = .literal (.symbol name)) ∨
    ∃ bound, depths.find? name = some bound ∧ bound ≤ depth ∧ annotated = .bound name bound := by
  rw [annotateAt_symbol_eq, annotateSymbol] at accepted
  split at accepted
  · rename_i free
    cases accepted
    exact .inl ⟨free, rfl⟩
  · rename_i bound known
    split at accepted
    · cases accepted
    · rename_i deep
      cases accepted
      exact .inr ⟨bound, known, Nat.le_of_not_lt deep, rfl⟩

/-- A part of an annotated template comes from a part of the template that stands as deep. -/
theorem exists_stands {template : Template} : ∀ {above : Nat} {own whole : Annotated}
    {levels : List (List Symbol)}, template.annotateAt depths metafunctions above = .ok whole →
      Annotated.Stands own levels whole →
      ∃ part, Stands part (above + levels.length) above template ∧
        part.annotateAt depths metafunctions (above + levels.length) = .ok own := by
  induction template using Template.induction with
  | literal term =>
    intro above own whole levels accepted stands
    cases accepted
    cases stands
    exact ⟨_, .here, rfl⟩
  | symbol name =>
    intro above own whole levels accepted stands
    rcases annotateAt_symbol accepted with ⟨_, rfl⟩ | ⟨bound, _, _, rfl⟩
    · cases stands
      exact ⟨_, .here, accepted⟩
    · cases stands
      exact ⟨_, .here, accepted⟩
  | sequence items each =>
    intro above own whole levels accepted stands
    rcases annotateAt_sequence accepted with
      ⟨_, all, one, rfl⟩ | ⟨function, arguments, all, _, rfl, _, _, one, rfl⟩
    · cases stands with
      | here => exact ⟨_, .here, accepted⟩
      | item among inside =>
        obtain ⟨item, listed, made⟩ := mem_of_annotateAllAt one among
        obtain ⟨part, within, annotates⟩ := each item listed made inside
        exact ⟨part, .item listed within, annotates⟩
    · cases stands with
      | here => exact ⟨_, .here, accepted⟩
      | application among inside =>
        obtain ⟨item, listed, made⟩ := mem_of_annotateAllAt one among
        have member := List.mem_cons_of_mem (Template.symbol function) listed
        obtain ⟨part, within, annotates⟩ := each item member made inside
        exact ⟨part, .item member within, annotates⟩
  | repeated inner ih =>
    intro above own whole levels accepted stands
    obtain ⟨body, one, _, rfl⟩ := annotateAt_repeated accepted
    cases stands with
    | here => exact ⟨_, .here, accepted⟩
    | @round levels _ _ inside =>
      obtain ⟨part, within, annotates⟩ := ih one inside
      have depth : above + 1 + levels.length =
          above + (body.driversAt above :: levels).length := by
        rw [List.length_cons]
        omega
      rw [depth] at within annotates
      exact ⟨part, .round within, annotates⟩
  | inHole context contents around beside =>
    intro above own whole levels accepted stands
    obtain ⟨outer, inner, one, two, rfl⟩ := annotateAt_inHole accepted
    cases stands with
    | here => exact ⟨_, .here, accepted⟩
    | context inside =>
      obtain ⟨part, within, annotates⟩ := around one inside
      exact ⟨part, .context within, annotates⟩
    | contents inside =>
      obtain ⟨part, within, annotates⟩ := beside two inside
      exact ⟨part, .contents within, annotates⟩
  | foreign function arguments mode each =>
    intro above own whole levels accepted stands
    obtain ⟨all, one, rfl⟩ := annotateAt_foreign accepted
    cases stands with
    | here => exact ⟨_, .here, accepted⟩
    | argument among inside =>
      obtain ⟨item, listed, made⟩ := mem_of_annotateAllAt one among
      obtain ⟨part, within, annotates⟩ := each item listed made inside
      exact ⟨part, .argument listed within, annotates⟩

/-- Only a variable is annotated as one. -/
theorem eq_symbol_of_annotateAt {template : Template} {depth bound : Nat} {name : Symbol}
    (accepted : template.annotateAt depths metafunctions depth = .ok (.bound name bound)) :
    template = .symbol name ∧ depths.find? name = some bound ∧ bound ≤ depth := by
  cases template with
  | literal term => cases accepted
  | symbol other =>
    rcases annotateAt_symbol accepted with ⟨_, made⟩ | ⟨_, known, deep, made⟩
    · cases made
    · cases made
      exact ⟨rfl, known, deep⟩
  | sequence items =>
    rcases annotateAt_sequence accepted with ⟨_, _, _, made⟩ | ⟨_, _, _, _, _, _, _, _, made⟩
    · cases made
    · cases made
  | repeated inner =>
    obtain ⟨_, _, _, made⟩ := annotateAt_repeated accepted
    cases made
  | inHole context contents =>
    obtain ⟨_, _, _, _, made⟩ := annotateAt_inHole accepted
    cases made
  | foreign function arguments mode =>
    obtain ⟨_, _, made⟩ := annotateAt_foreign accepted
    cases made

/-- Only an ellipsis is annotated as one, with the variables that it walks as its drivers. -/
theorem eq_repeated_of_annotateAt {template : Template} {depth : Nat} {body : Annotated}
    {drivers : List Symbol}
    (accepted : template.annotateAt depths metafunctions depth = .ok (.repeated body drivers)) :
    ∃ inner, template = .repeated inner ∧
      inner.annotateAt depths metafunctions (depth + 1) = .ok body ∧
      body.driversAt depth ≠ [] ∧ drivers = body.driversAt depth := by
  cases template with
  | literal term => cases accepted
  | symbol other =>
    rcases annotateAt_symbol accepted with ⟨_, made⟩ | ⟨_, _, _, made⟩
    · cases made
    · cases made
  | sequence items =>
    rcases annotateAt_sequence accepted with ⟨_, _, _, made⟩ | ⟨_, _, _, _, _, _, _, _, made⟩
    · cases made
    · cases made
  | repeated inner =>
    obtain ⟨_, one, driven, made⟩ := annotateAt_repeated accepted
    cases made
    exact ⟨inner, rfl, one, driven, rfl⟩
  | inHole context contents =>
    obtain ⟨_, _, _, _, made⟩ := annotateAt_inHole accepted
    cases made
  | foreign function arguments mode =>
    obtain ⟨_, _, made⟩ := annotateAt_foreign accepted
    cases made

/-- The variables that stand in a template, with their depths, are those of the annotated one. -/
theorem stands_bound_iff {template : Template} {whole : Annotated} {above : Nat}
    (accepted : template.annotateAt depths metafunctions above = .ok whole) {name : Symbol}
    {bound depth : Nat} :
    (Stands (.symbol name) depth above template ∧ depths.find? name = some bound) ↔
      ∃ levels, above + levels.length = depth ∧
        Annotated.Stands (.bound name bound) levels whole := by
  constructor
  · rintro ⟨stands, known⟩
    obtain ⟨own, levels, annotates, count, within⟩ := stands.annotated accepted (by
      rintro _ ⟨⟩
      exact ⟨bound, known⟩)
    rcases annotateAt_symbol annotates with ⟨free, _⟩ | ⟨other, found, _, rfl⟩
    · rw [free] at known
      cases known
    · rw [known] at found
      cases found
      exact ⟨levels, count, within⟩
  · rintro ⟨levels, rfl, within⟩
    obtain ⟨part, stands, annotates⟩ := exists_stands accepted within
    obtain ⟨rfl, known, _⟩ := eq_symbol_of_annotateAt annotates
    exact ⟨stands, known⟩

/-- An annotated template is driven by its variables. -/
theorem driven_of_annotate {template : Template} {whole : Annotated}
    (accepted : template.annotateAt depths metafunctions 0 = .ok whole) : whole.Driven where
  outermost := by
    intro name bound levels stands
    obtain ⟨part, _, annotates⟩ := exists_stands accepted stands
    obtain ⟨rfl, known, deep⟩ := eq_symbol_of_annotateAt annotates
    rw [Nat.zero_add] at deep
    refine ⟨deep, fun index drivers found => ?_⟩
    obtain ⟨body, around, within⟩ := stands.level found
    obtain ⟨ellipsis, _, made⟩ := exists_stands accepted around
    obtain ⟨inner, rfl, one, _, rfl⟩ := eq_repeated_of_annotateAt made
    have inside : name ∈ inner.symbols := by
      have below := (stands_bound_iff one).mpr ⟨_, rfl, within⟩
      exact mem_symbols_iff.mpr ⟨_, below.1⟩
    have short : index < levels.length := (List.getElem?_eq_some_iff.mp found).1
    have count : 0 + (levels.take index).length = index := by
      rw [List.length_take]
      omega
    rw [mem_driversAt one, count]
    constructor
    · rintro ⟨_, other, same, below⟩
      rw [known] at same
      cases same
      exact below
    · intro below
      exact ⟨inside, bound, known, below⟩
  needed := by
    intro body drivers levels stands
    obtain ⟨ellipsis, _, made⟩ := exists_stands accepted stands
    obtain ⟨inner, rfl, one, driven, rfl⟩ := eq_repeated_of_annotateAt made
    refine ⟨driven, Pattern.nodup_foldl_addOnce .nil, fun name among => ?_⟩
    obtain ⟨inside, bound, known, _⟩ := (mem_driversAt one).mp among
    obtain ⟨depth, below⟩ := mem_symbols_iff.mp inside
    obtain ⟨own, _, within⟩ := (stands_bound_iff one).mp ⟨below, known⟩
    exact ⟨bound, own, within⟩

/-- Why a template is refused: a variable does not stand deep enough, or an ellipsis has nothing
to walk. -/
inductive Violated (depths : Depths) (above : Nat) (template : Template) : Fault → Prop
  | shallow {name : Symbol} {bound depth : Nat}
      (stands : Stands (.symbol name) depth above template)
      (known : depths.find? name = some bound) (below : depth < bound) :
      Violated depths above template (.unlocated (.tooShallow name bound depth))
  | idle {inner : Template} {depth : Nat}
      (stands : Stands (.repeated inner) depth above template)
      (fixed : ∀ name bound below, Stands (.symbol name) below (depth + 1) inner →
        depths.find? name = some bound → bound ≤ depth) :
      Violated depths above template (.unlocated (.nothingIterated (.repeated inner)))

/-- What is violated by a part is violated by the whole. -/
theorem Violated.around {above outer : Nat} {part template : Template} {fault : Fault}
    (violated : Violated depths above part fault)
    (carries : ∀ {own depth}, Stands own depth above part → Stands own depth outer template) :
    Violated depths outer template fault := by
  cases violated with
  | shallow stands known below => exact .shallow (carries stands) known below
  | idle stands fixed => exact .idle (carries stands) fixed

/-- A list is refused for one of its members. -/
theorem meets_annotateAllAt_of_mem {above : Nat} {right : Fault → Prop} {items : List Template}
    (each : ∀ item ∈ items,
      Meets right (fun _ => True) (item.annotateAt depths metafunctions above)) :
    Meets right (fun _ => True) (annotateAllAt depths metafunctions above items) := by
  induction items with
  | nil => trivial
  | cons item rest ih =>
    obtain ⟨here, later⟩ := List.forall_mem_cons.mp each
    rw [annotateAllAt_cons_eq]
    exact here.bind fun _ _ => (ih later).bind fun _ _ => trivial

/-- A template is refused for what it violates. -/
theorem violated_of_annotateAt (template : Template) : ∀ above : Nat,
    Meets (Violated depths above template) (fun _ => True)
      (template.annotateAt depths metafunctions above) := by
  induction template using Template.induction with
  | literal term => exact fun _ => trivial
  | symbol name =>
    intro above
    rw [annotateAt_symbol_eq, annotateSymbol]
    split
    · trivial
    · rename_i bound known
      split
      · rename_i below
        exact .shallow .here known below
      · trivial
  | sequence items each =>
    intro above
    have inner : ∀ item ∈ items, Meets (Violated depths above (.sequence items)) (fun _ => True)
        (item.annotateAt depths metafunctions above) := fun item listed =>
      (each item listed above).imp (fun _ violated => violated.around (.item listed)) fun _ => id
    unfold annotateAt
    split
    · rename_i arguments _
      obtain ⟨_, later⟩ := List.forall_mem_cons.mp inner
      exact (meets_annotateAllAt_of_mem later).bind fun _ _ => trivial
    · exact (meets_annotateAllAt_of_mem inner).bind fun _ _ => trivial
  | repeated inner ih =>
    intro above
    rw [annotateAt_repeated_eq]
    have body := ((ih (above + 1)).imp (fun _ violated => violated.around .round) fun _ => id).known
    refine body.bind fun annotated made => ?_
    split
    · rename_i empty
      refine .idle .here fun name bound below stands known => ?_
      by_contra deeper
      have walked := (mem_driversAt made.2).mpr
        ⟨mem_symbols_iff.mpr ⟨below, stands⟩, bound, known, Nat.lt_of_not_le deeper⟩
      rw [empty] at walked
      cases walked
    · trivial
  | inHole context contents around within =>
    intro above
    rw [annotateAt_inHole_eq]
    have outer : Meets (Violated depths above (.inHole context contents)) (fun _ => True)
        (context.annotateAt depths metafunctions above) :=
      (around above).imp (fun _ violated => violated.around .context) fun _ => id
    have inner : Meets (Violated depths above (.inHole context contents)) (fun _ => True)
        (contents.annotateAt depths metafunctions above) :=
      (within above).imp (fun _ violated => violated.around .contents) fun _ => id
    exact outer.bind fun _ _ => inner.bind fun _ _ => trivial
  | foreign function arguments mode each =>
    intro above
    rw [annotateAt_foreign_eq]
    have inner : ∀ argument ∈ arguments,
        Meets (Violated depths above (.foreign function arguments mode)) (fun _ => True)
          (argument.annotateAt depths metafunctions above) := fun argument listed =>
      (each argument listed above).imp (fun _ violated => violated.around (.argument listed))
        fun _ => id
    exact (meets_annotateAllAt_of_mem inner).bind fun _ _ => trivial

theorem deepEnough_of_annotateAt {template : Template} {whole : Annotated} {above : Nat}
    (accepted : template.annotateAt depths metafunctions above = .ok whole) :
    DeepEnough depths above template := by
  intro name bound depth stands known
  obtain ⟨levels, rfl, within⟩ := (stands_bound_iff accepted).mp ⟨stands, known⟩
  obtain ⟨part, _, annotates⟩ := exists_stands accepted within
  exact (eq_symbol_of_annotateAt annotates).2.2

theorem iterates_of_annotateAt {template : Template} {whole : Annotated} {above : Nat}
    (accepted : template.annotateAt depths metafunctions above = .ok whole) :
    Iterates depths above template := by
  intro inner depth stands
  obtain ⟨own, _, annotates, _, _⟩ := stands.annotated accepted nofun
  obtain ⟨body, one, driven, _⟩ := annotateAt_repeated annotates
  obtain ⟨name, among⟩ := List.exists_mem_of_ne_nil _ driven
  obtain ⟨inside, bound, known, below⟩ := (mem_driversAt one).mp among
  obtain ⟨under, within⟩ := mem_symbols_iff.mp inside
  exact ⟨name, bound, under, within, known, below⟩

/-- A template is annotated exactly if its variables stand deep enough and its ellipses have
something to walk, and is refused for one of these only if it is violated. Annotation keeps the
variables where they stand, and drives them by their outermost ellipses. -/
theorem annotation_chooses_drivers (depths : Depths) (metafunctions : SymbolSet)
    (template : Template) :
    ((∃ whole, template.annotate depths metafunctions = .ok whole) ↔
      DeepEnough depths 0 template ∧ Iterates depths 0 template) ∧
    (∀ fault, template.annotate depths metafunctions = .error fault →
      (fault.cause.code.text = "E3002" ∧ ¬ DeepEnough depths 0 template) ∨
      (fault.cause.code.text = "E3003" ∧ ¬ Iterates depths 0 template)) ∧
    ∀ whole, template.annotate depths metafunctions = .ok whole →
      (∀ name bound depth,
        (Stands (.symbol name) depth 0 template ∧ depths.find? name = some bound) ↔
          ∃ levels, levels.length = depth ∧
            Annotated.Stands (.bound name bound) levels whole) ∧
      whole.Driven := by
  have refused : ∀ fault, template.annotate depths metafunctions = .error fault →
      (fault.cause.code.text = "E3002" ∧ ¬ DeepEnough depths 0 template) ∨
      (fault.cause.code.text = "E3003" ∧ ¬ Iterates depths 0 template) := by
    intro fault fails
    have violated : Meets (Violated depths 0 template) (fun _ => True)
        (template.annotateAt depths metafunctions 0) := violated_of_annotateAt template 0
    rw [annotate] at fails
    rw [fails] at violated
    cases violated with
    | shallow stands known below =>
      exact .inl ⟨rfl, fun deep => Nat.not_le_of_lt below (deep _ _ _ stands known)⟩
    | idle stands fixed =>
      refine .inr ⟨rfl, fun iterates => ?_⟩
      obtain ⟨name, bound, under, within, known, below⟩ := iterates _ _ stands
      exact Nat.not_le_of_lt below (fixed _ _ _ within known)
  refine ⟨⟨?_, ?_⟩, refused, ?_⟩
  · rintro ⟨whole, accepted⟩
    exact ⟨deepEnough_of_annotateAt accepted, iterates_of_annotateAt accepted⟩
  · rintro ⟨deep, iterates⟩
    cases result : template.annotate depths metafunctions with
    | ok whole => exact ⟨whole, rfl⟩
    | error fault =>
      rcases refused fault result with ⟨_, shallow⟩ | ⟨_, idle⟩
      · exact absurd deep shallow
      · exact absurd iterates idle
  · intro whole accepted
    refine ⟨fun name bound depth => ?_, driven_of_annotate accepted⟩
    have stands := @stands_bound_iff depths metafunctions template whole 0 accepted name bound depth
    simpa only [Nat.zero_add] using stands

/-- A variable that was bound under one ellipsis and stands under two is walked by the outer one;
the inner one needs another variable. -/
theorem annotation_chooses_drivers_nested :
    Template.annotate ⟨[("x", 1), ("y", 2)]⟩ .empty (.repeated (.sequence
        [.repeated (.sequence [.symbol "x", .symbol "y"])])) =
      .ok (.repeated (.sequence
        [.repeated (.sequence [.bound "x" 1, .bound "y" 2]) ["y"]]) ["x", "y"]) ∧
    Annotated.Driven (.repeated (.sequence
      [.repeated (.sequence [.bound "x" 1, .bound "y" 2]) ["y"]]) ["x", "y"]) ∧
    ¬ (DeepEnough ⟨[("x", 1)]⟩ 0 (.symbol "x")) := by
  have made : Template.annotate ⟨[("x", 1), ("y", 2)]⟩ .empty (.repeated (.sequence
        [.repeated (.sequence [.symbol "x", .symbol "y"])])) =
      .ok (.repeated (.sequence
        [.repeated (.sequence [.bound "x" 1, .bound "y" 2]) ["y"]]) ["x", "y"]) := by rfl
  refine ⟨made, ((annotation_chooses_drivers _ _ _).2.2 _ made).2, ?_⟩
  rcases (annotation_chooses_drivers ⟨[("x", 1)]⟩ .empty (.symbol "x")).2.1
    (.unlocated (.tooShallow "x" 1 0)) rfl with ⟨_, shallow⟩ | ⟨other, _⟩
  · exact shallow
  · exact absurd other (by decide)

end Template

end Reduct
