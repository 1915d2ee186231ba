import Reduct.Proofs.Instantiation

/-!
# Instantiations with more outcomes

An instantiation only looks at what the functions that it calls come to. So it keeps its outcome
when more of their calls have one, and it depends on the depths of the symbols of its template
only. What it fails with is a failure of such a call, or one of the three that templates have by
themselves.
-/

namespace Reduct

namespace Attempt

variable {α β : Type}

/-- A computation that cannot fail comes to what is found. -/
theorem lift_eq_some {found : Option α} {outcome : Except EvalError α} :
    (ExceptT.lift found : Attempt α) = some outcome ↔
      ∃ result, found = some result ∧ outcome = .ok result := by
  cases found with
  | none => exact ⟨nofun, nofun⟩
  | some result =>
    constructor
    · intro same
      cases same
      exact ⟨result, rfl, rfl⟩
    · rintro ⟨other, same, rfl⟩
      cases same
      rfl

/-- Whatever the first computation comes to, the second one does. -/
def Below (one two : Attempt α) : Prop := ∀ outcome, one = some outcome → two = some outcome

theorem Below.refl (one : Attempt α) : Below one one := fun _ same => same

theorem Below.trans {one two three : Attempt α} (first : Below one two) (second : Below two three) :
    Below one three := fun outcome same => second outcome (first outcome same)

theorem below_none (two : Attempt α) : Below none two := nofun

theorem Below.bind {one two : Attempt α} {next after : α → Attempt β} (first : Below one two)
    (rest : ∀ result, one = some (.ok result) → Below (next result) (after result)) :
    Below (one >>= next) (two >>= after) := by
  intro outcome same
  cases outcome with
  | ok result =>
    obtain ⟨middle, found, same⟩ := bind_ok.mp same
    exact bind_ok.mpr ⟨middle, first _ found, rest middle found _ same⟩
  | error cause =>
    rcases bind_error.mp same with failed | ⟨middle, found, failed⟩
    · exact bind_error.mpr (.inl (first _ failed))
    · exact bind_error.mpr (.inr ⟨middle, first _ found, rest middle found _ failed⟩)

/-- Computations for the items of a list, one after another. -/
theorem Below.mapM {one two : α → Attempt β} {items : List α}
    (each : ∀ item ∈ items, Below (one item) (two item)) :
    Below (items.mapM one) (items.mapM two) := by
  induction items with
  | nil => exact .refl _
  | cons item rest ih =>
    obtain ⟨here, later⟩ := List.forall_mem_cons.mp each
    rw [List.mapM_cons, List.mapM_cons]
    exact here.bind fun _ _ => (ih later).bind fun _ _ => .refl _

/-- Each of two computations comes to whatever the other does, so they are the same. -/
theorem Below.antisymm {one two : Attempt α} (first : Below one two) (second : Below two one) :
    one = two := by
  cases one with
  | some outcome => exact (first outcome rfl).symm
  | none =>
    cases two with
    | none => rfl
    | some outcome => exact second outcome rfl

/-- A computation that comes to less is fine if the other one is, as far as it need not end. -/
theorem Below.fine {one two : Attempt α} (below : Below one two) {ends : Prop}
    {excuses : EvalError → Prop} (fine : Fine ends excuses two) : Fine False excuses one :=
  ⟨False.elim, fun cause failed => fine.2 cause (below _ failed)⟩

/-- A failure of computations for the items of a list is one of an item. -/
theorem exists_of_mapM_error {step : α → Attempt β} {items : List α} {cause : EvalError}
    (failed : items.mapM step = some (.error cause)) :
    ∃ item ∈ items, step item = some (.error cause) := by
  induction items with
  | nil => cases failed
  | cons item rest ih =>
    rw [List.mapM_cons] at failed
    rcases bind_error.mp failed with here | ⟨_, _, later⟩
    · exact ⟨item, List.mem_cons_self, here⟩
    · rcases bind_error.mp later with there | ⟨_, _, never⟩
      · obtain ⟨other, listed, there⟩ := ih there
        exact ⟨other, List.mem_cons_of_mem _ listed, there⟩
      · cases never

end Attempt

/-- Tests that agree on the items of a list find the same one. -/
theorem find?_congr_mem {α : Type} {items : List α} {one two : α → Bool}
    (same : ∀ item ∈ items, one item = two item) : items.find? one = items.find? two := by
  induction items with
  | nil => rfl
  | cons item rest ih =>
    obtain ⟨here, later⟩ := List.forall_mem_cons.mp same
    rw [List.find?_cons, List.find?_cons, here, ih later]

namespace Template

open Attempt

/-- The functions of the second scene come to whatever those of the first do, and the scenes agree
on some symbols. -/
structure Scene.Below (names : List Symbol) (one two : Scene) : Prop where
  depths : ∀ name ∈ names, one.depths.find? name = two.depths.find? name
  metafunctions : ∀ name, one.metafunctions.contains name = two.metafunctions.contains name
  assignment : one.assignment = two.assignment
  apply : ∀ function argument, Attempt.Below (one.apply function argument)
    (two.apply function argument)
  call : one.call = two.call

namespace Scene.Below

variable {one two : Scene} {names : List Symbol}

theorem mono (below : Scene.Below names one two) {fewer : List Symbol}
    (within : ∀ name ∈ fewer, name ∈ names) : Scene.Below fewer one two :=
  { below with depths := fun name listed => below.depths name (within name listed) }

theorem applied? {items : List Template} (below : Scene.Below (symbolsAll items) one two) :
    Template.applied? one.depths one.metafunctions items =
      Template.applied? two.depths two.metafunctions items := by
  match items, below with
  | [], _ => rfl
  | .symbol name :: rest, below =>
    have same := below.depths name (List.mem_append_left _ (List.mem_singleton.mpr rfl))
    rw [Template.applied?, Template.applied?, Table.contains, Table.contains, same,
      below.metafunctions name]
  | .literal _ :: _, _ => rfl
  | .sequence _ :: _, _ => rfl
  | .repeated _ :: _, _ => rfl
  | .inHole .. :: _, _ => rfl
  | .foreign .. :: _, _ => rfl

theorem element? (below : Scene.Below names one two) {name : Symbol} (listed : name ∈ names)
    (rounds : List Nat) : one.setting.element? rounds name = two.setting.element? rounds name := by
  unfold Setting.element? Scene.setting
  simp only [below.depths name listed, below.assignment]

theorem walked {inner : Template} (below : Scene.Below inner.symbols one two) (depth : Nat) :
    Template.walked one.depths depth inner = Template.walked two.depths depth inner := by
  unfold Template.walked
  refine congrArg (List.foldl Pattern.addOnce []) (List.filter_congr fun name listed => ?_)
  rw [below.depths name listed]

theorem elements {inner : Template} (below : Scene.Below inner.symbols one two) {name : Symbol}
    {depth : Nat} (walked : name ∈ Template.walked two.depths depth inner) (rounds : List Nat) :
    one.setting.elements rounds name = two.setting.elements rounds name := by
  unfold Setting.elements
  rw [below.element? (mem_walked.mp walked).1]

/-- The ellipses of both scenes have the same rounds. -/
theorem rounds {inner : Template} (below : Scene.Below inner.symbols one two) (rounds : List Nat) :
    one.setting.mismatch? rounds inner = two.setting.mismatch? rounds inner ∧
      one.roundCount rounds inner = two.roundCount rounds inner := by
  have same := below.walked rounds.length
  have each := fun name (listed : name ∈ Template.walked two.depths rounds.length inner) =>
    below.elements listed rounds
  have here : one.setting.depths = one.depths := rfl
  have there : two.setting.depths = two.depths := rfl
  unfold Setting.mismatch? Scene.roundCount
  rw [here, there, same]
  cases listed : Template.walked two.depths rounds.length inner with
  | nil => exact ⟨rfl, rfl⟩
  | cons first others =>
    rw [listed] at each
    obtain ⟨leading, following⟩ := List.forall_mem_cons.mp each
    refine ⟨?_, congrArg List.length leading⟩
    have differs : ∀ name ∈ others,
        decide ((one.setting.elements rounds name).length ≠
          (one.setting.elements rounds first).length) =
        decide ((two.setting.elements rounds name).length ≠
          (two.setting.elements rounds first).length) := by
      intro name inside
      rw [leading, following name inside]
    simp only
    rw [find?_congr_mem differs]
    cases mismatch : others.find? fun name => decide ((two.setting.elements rounds name).length ≠
        (two.setting.elements rounds first).length) with
    | none => rfl
    | some name =>
      rw [Option.map_some, Option.map_some, leading,
        following name (List.mem_of_find?_eq_some mismatch)]

end Scene.Below

theorem below_inRounds {one two : Nat → Attempt (List Term)}
    (each : ∀ round, Attempt.Below (one round) (two round)) (count : Nat) :
    Attempt.Below (inRounds one count) (inRounds two count) := by
  induction count with
  | zero => exact .refl _
  | succ count ih => exact ih.bind fun _ _ => (each count).bind fun _ _ => .refl _

/-- A template that is instantiated keeps its outcome in a scene with more outcomes. -/
theorem evaluate_below {one two : Scene} {template : Template} :
    Scene.Below template.symbols one two → ∀ rounds : List Nat,
      Attempt.Below (evaluate one template rounds) (evaluate two template rounds) := by
  have all : ∀ items : List Template, (∀ item ∈ items, Scene.Below item.symbols one two →
        ∀ rounds : List Nat,
          Attempt.Below (evaluate one item rounds) (evaluate two item rounds)) →
      Scene.Below (symbolsAll items) one two → ∀ rounds : List Nat,
        Attempt.Below (evaluateAll one items rounds) (evaluateAll two items rounds) ∧
          Attempt.Below (evaluateEach one items rounds) (evaluateEach two items rounds) := by
    intro items
    induction items with
    | nil => exact fun _ _ _ => ⟨.refl _, .refl _⟩
    | cons item rest ih =>
      intro each below rounds
      obtain ⟨here, later⟩ := List.forall_mem_cons.mp each
      have first := here (below.mono fun name listed => List.mem_append_left _ listed) rounds
      obtain ⟨together, apart⟩ :=
        ih later (below.mono fun name listed => List.mem_append_right _ listed) rounds
      exact ⟨first.bind fun _ _ => (Below.refl _).bind fun _ _ =>
        together.bind fun _ _ => .refl _, first.bind fun _ _ => apart.bind fun _ _ => .refl _⟩
  induction template using Template.induction with
  | literal term => exact fun _ _ => .refl _
  | symbol name =>
    intro below rounds
    have listed : name ∈ (Template.symbol name).symbols := List.mem_singleton.mpr rfl
    rw [evaluate, evaluate, below.depths name listed, below.element? listed]
    exact .refl _
  | sequence items each =>
    intro below rounds
    have same : applied? one.depths one.metafunctions items =
        applied? two.depths two.metafunctions items := Scene.Below.applied? below
    cases applied : applied? two.depths two.metafunctions items with
    | none =>
      rw [evaluate_sequence_plain rounds (same.trans applied),
        evaluate_sequence_plain rounds applied]
      exact (all items each below rounds).1.bind fun _ _ => .refl _
    | some function =>
      obtain ⟨arguments, rfl, _⟩ := applied?_eq_some applied
      rw [evaluate_application rounds (same.trans applied), evaluate_application rounds applied]
      have inside := (all arguments (fun item listed => each item (List.mem_cons_of_mem _ listed))
        (below.mono fun name listed => List.mem_append_right _ listed) rounds).1
      exact inside.bind fun _ _ => (below.apply _ _).bind fun _ _ => .refl _
  | repeated inner ih =>
    intro below rounds
    have drivers : Scene.Below inner.symbols one two := below
    obtain ⟨mismatch, count⟩ := drivers.rounds rounds
    rw [evaluate, evaluate, mismatch, count]
    cases two.setting.mismatch? rounds inner with
    | some cause => exact .refl _
    | none =>
      refine (below_inRounds (fun round => ?_) _).bind fun _ _ => .refl _
      exact (ih below (rounds ++ [round])).bind fun _ _ => .refl _
  | inHole context contents around within =>
    intro below rounds
    have outer := around (below.mono fun name listed => List.mem_append_left _ listed) rounds
    have inner := within (below.mono fun name listed => List.mem_append_right _ listed) rounds
    exact outer.bind fun _ _ => inner.bind fun _ _ => .refl _
  | foreign function arguments mode each =>
    intro below rounds
    rw [evaluate, evaluate, below.call]
    exact (all arguments each below rounds).2.bind fun _ _ => .refl _

/-- The same of the whole template. -/
theorem instantiate_below {one two : Scene} {template : Template}
    (below : Scene.Below template.symbols one two) :
    Attempt.Below (instantiate one template) (instantiate two template) :=
  (evaluate_below below []).bind fun _ _ => .refl _

/-- What the instantiation of templates can fail with, given the host functions that they call:
a failure of a metafunction or of such a host function, ellipses of variables of different
lengths, a context without a hole, or a result of a host function that is spliced and is no
sequence. -/
inductive Scene.Fails (scene : Scene) (foreigns : List (Symbol × InsertMode)) : EvalError → Prop
  | apply {function : Symbol} {argument : Term} {cause : EvalError}
      (failed : scene.apply function argument = some (.error cause)) : Fails scene foreigns cause
  | call {function : Symbol} {mode : InsertMode} {arguments : List Term} {cause : EvalError}
      (used : (function, mode) ∈ foreigns)
      (failed : scene.call function arguments = some (.error cause)) : Fails scene foreigns cause
  | uneven (expected found : Nat) : Fails scene foreigns (.term (.inconsistentCounts expected found))
  | closed (context : Term) : Fails scene foreigns (.term (.noHole context))
  | spliced {function : Symbol} {arguments : List Term} {content : Term}
      (used : (function, .splice) ∈ foreigns)
      (given : scene.call function arguments = some (.ok content)) :
      Fails scene foreigns (.term (.wrongKind .sequence content))

theorem Scene.Fails.mono {scene : Scene} {fewer foreigns : List (Symbol × InsertMode)}
    {cause : EvalError} (fails : scene.Fails fewer cause)
    (within : ∀ used ∈ fewer, used ∈ foreigns) : scene.Fails foreigns cause := by
  cases fails with
  | apply failed => exact .apply failed
  | call used failed => exact .call (within _ used) failed
  | uneven => exact .uneven _ _
  | closed => exact .closed _
  | spliced used given => exact .spliced (within _ used) given

variable {scene : Scene}

/-- A spliced part is what a host function gave. -/
theorem exists_call_of_spliced {template : Template} {rounds : List Nat} {content : Term}
    (built : evaluate scene template rounds = some (.ok (.spliced content))) :
    ∃ function arguments, (function, InsertMode.splice) ∈ template.foreigns ∧
      scene.call function arguments = some (.ok content) := by
  cases template with
  | literal term => cases built
  | symbol name =>
    rw [evaluate] at built
    split at built
    · cases built
    · cases found : scene.setting.element? rounds name with
      | none => rw [found] at built; cases built
      | some term => rw [found] at built; cases built
  | sequence items =>
    cases applied : applied? scene.depths scene.metafunctions items with
    | none =>
      rw [evaluate_sequence_plain rounds applied] at built
      obtain ⟨_, _, same⟩ := bind_ok.mp built
      cases same
    | some function =>
      obtain ⟨arguments, rfl, _⟩ := applied?_eq_some applied
      rw [evaluate_application rounds applied] at built
      obtain ⟨_, _, rest⟩ := bind_ok.mp built
      obtain ⟨_, _, same⟩ := bind_ok.mp rest
      cases same
  | repeated inner =>
    rw [evaluate] at built
    split at built
    · cases built
    · obtain ⟨_, _, same⟩ := bind_ok.mp built
      cases same
  | inHole context contents =>
    rw [evaluate] at built
    obtain ⟨_, _, rest⟩ := bind_ok.mp built
    obtain ⟨_, _, same⟩ := bind_ok.mp rest
    split at same
    · cases same
    · cases same
  | foreign function arguments mode =>
    rw [evaluate] at built
    obtain ⟨terms, _, rest⟩ := bind_ok.mp built
    obtain ⟨result, given, same⟩ := bind_ok.mp rest
    cases mode with
    | append => cases same
    | splice =>
      cases same
      exact ⟨function, terms, List.mem_cons_self, given⟩

/-- Only a spliced part has no terms for a sequence. -/
theorem fails_entering {template : Template} {rounds : List Nat} {part : Part}
    (built : evaluate scene template rounds = some (.ok part)) {cause : EvalError}
    (failed : part.entering = some (.error cause)) : scene.Fails template.foreigns cause := by
  cases part with
  | term content => cases failed
  | terms contents => cases failed
  | spliced content =>
    cases childless : content.children? with
    | some items =>
      rw [Part.entering_of_items? (show (Part.spliced content).items? = some items from childless)]
        at failed
      cases failed
    | none =>
      rw [Part.entering_childless childless] at failed
      cases failed
      obtain ⟨function, arguments, used, given⟩ := exists_call_of_spliced built
      exact .spliced used given

/-- What the instantiation of a template fails with. -/
theorem fails_evaluate {template : Template} : ∀ {rounds : List Nat} {cause : EvalError},
    evaluate scene template rounds = some (.error cause) →
      scene.Fails template.foreigns cause := by
  have all : ∀ items : List Template, (∀ item ∈ items, ∀ {rounds : List Nat} {cause : EvalError},
        evaluate scene item rounds = some (.error cause) → scene.Fails item.foreigns cause) →
      ∀ {rounds : List Nat} {cause : EvalError},
        (evaluateAll scene items rounds = some (.error cause) →
          scene.Fails (foreignsAll items) cause) ∧
        (evaluateEach scene items rounds = some (.error cause) →
          scene.Fails (foreignsAll items) cause) := by
    intro items
    induction items with
    | nil => exact fun _ _ _ => ⟨fun failed => (by cases failed), fun failed => by cases failed⟩
    | cons item rest ih =>
      intro each rounds cause
      obtain ⟨here, later⟩ := List.forall_mem_cons.mp each
      have first : scene.Fails item.foreigns cause → scene.Fails (foreignsAll (item :: rest)) cause :=
        fun fails => fails.mono fun used listed => List.mem_append_left _ listed
      have others : scene.Fails (foreignsAll rest) cause →
          scene.Fails (foreignsAll (item :: rest)) cause :=
        fun fails => fails.mono fun used listed => List.mem_append_right _ listed
      constructor
      · intro failed
        rw [evaluateAll] at failed
        rcases bind_error.mp failed with inside | ⟨part, built, failed⟩
        · exact first (here inside)
        rcases bind_error.mp failed with entering | ⟨_, _, failed⟩
        · exact first (fails_entering built entering)
        rcases bind_error.mp failed with after | ⟨_, _, never⟩
        · exact others ((ih later).1 after)
        · cases never
      · intro failed
        rw [evaluateEach] at failed
        rcases bind_error.mp failed with inside | ⟨part, built, failed⟩
        · exact first (here inside)
        rcases bind_error.mp failed with after | ⟨_, _, never⟩
        · exact others ((ih later).2 after)
        · cases never
  induction template using Template.induction with
  | literal term =>
    intro rounds cause failed
    cases failed
  | symbol name =>
    intro rounds cause failed
    rw [evaluate] at failed
    split at failed
    · cases failed
    · cases found : scene.setting.element? rounds name with
      | none => rw [found] at failed; cases failed
      | some term => rw [found] at failed; cases failed
  | sequence items each =>
    intro rounds cause failed
    cases applied : applied? scene.depths scene.metafunctions items with
    | none =>
      rw [evaluate_sequence_plain rounds applied] at failed
      rcases bind_error.mp failed with inside | ⟨_, _, never⟩
      · exact (all items each).1 inside
      · cases never
    | some function =>
      obtain ⟨arguments, rfl, _⟩ := applied?_eq_some applied
      rw [evaluate_application rounds applied] at failed
      rcases bind_error.mp failed with inside | ⟨_, _, failed⟩
      · exact ((all arguments fun item listed => each item (List.mem_cons_of_mem _ listed)).1
          inside).mono fun used listed => listed
      rcases bind_error.mp failed with applying | ⟨_, _, never⟩
      · exact .apply applying
      · cases never
  | repeated inner ih =>
    intro rounds cause failed
    rw [evaluate] at failed
    cases mismatch : scene.setting.mismatch? rounds inner with
    | some other =>
      rw [mismatch] at failed
      cases failed
      obtain ⟨_, _, _, _, _, rfl⟩ := Setting.exists_of_mismatch? mismatch
      exact .uneven _ _
    | none =>
      rw [mismatch] at failed
      rcases bind_error.mp failed with inside | ⟨_, _, never⟩
      · generalize scene.roundCount rounds inner = count at inside
        induction count with
        | zero => cases inside
        | succ count earlier =>
          rw [inRounds] at inside
          rcases bind_error.mp inside with before | ⟨_, _, failed⟩
          · exact earlier before
          rcases bind_error.mp failed with here | ⟨_, _, never⟩
          · rcases bind_error.mp here with building | ⟨part, built, entering⟩
            · exact ih building
            · exact fails_entering built entering
          · cases never
      · cases never
  | inHole context contents around within =>
    intro rounds cause failed
    rw [evaluate] at failed
    rcases bind_error.mp failed with outer | ⟨_, _, failed⟩
    · exact (around outer).mono fun used listed => List.mem_append_left _ listed
    rcases bind_error.mp failed with inner | ⟨_, _, failed⟩
    · exact (within inner).mono fun used listed => List.mem_append_right _ listed
    split at failed
    · cases failed
    · cases failed
      exact .closed _
  | foreign function arguments mode each =>
    intro rounds cause failed
    rw [evaluate] at failed
    rcases bind_error.mp failed with inside | ⟨_, _, failed⟩
    · exact ((all arguments each).2 inside).mono fun used listed => List.mem_cons_of_mem _ listed
    rcases bind_error.mp failed with calling | ⟨_, _, never⟩
    · exact .call List.mem_cons_self calling
    · cases mode <;> cases never

/-- The same of the whole template. -/
theorem fails_instantiate {template : Template} {cause : EvalError}
    (failed : instantiate scene template = some (.error cause)) :
    scene.Fails template.foreigns cause := by
  rcases bind_error.mp failed with inside | ⟨_, _, never⟩
  · exact fails_evaluate inside
  · cases never

end Template

end Reduct
