import Reduct.Proofs.TemplateCode

/-!
# Instantiating templates

A template is instantiated from left to right, and the first failure on the way is the failure of
the whole. The functions that it calls may fail, or may have no outcome at all. The code of a
template does just this, and whenever the instantiation has an outcome the code comes to it.
-/

namespace Reduct

theorem Performs.weaken {judgement : Judgement} {machine : Machine} {function : Symbol}
    {arguments : List Value} {store : Store} {less gives : Value → Store → Prop}
    (performs : Performs judgement machine function arguments store less)
    (giving : ∀ value store, less value store → gives value store) :
    Performs judgement machine function arguments store gives := by
  obtain ⟨definition, found, fits, runs⟩ := performs
  exact ⟨definition, found, fits, runs.weaken (fun _ _ => id) giving⟩

/-- A computation that may fail, or have no outcome. -/
abbrev Attempt := ExceptT EvalError Option

namespace Attempt

variable {α β : Type} {first : Attempt α} {next : α → Attempt β}

theorem bind_ok {result : β} : (first >>= next) = some (.ok result) ↔
    ∃ middle, first = some (.ok middle) ∧ next middle = some (.ok result) := by
  change Option.bind first _ = _ ↔ _
  cases first with
  | none => exact ⟨nofun, nofun⟩
  | some outcome =>
    cases outcome with
    | ok middle =>
      constructor
      · exact fun same => ⟨middle, rfl, same⟩
      · rintro ⟨other, same, rest⟩
        cases same
        exact rest
    | error cause => exact ⟨nofun, nofun⟩

theorem bind_error {cause : EvalError} : (first >>= next) = some (.error cause) ↔
    first = some (.error cause) ∨
      ∃ middle, first = some (.ok middle) ∧ next middle = some (.error cause) := by
  change Option.bind first _ = _ ↔ _
  cases first with
  | none => exact ⟨nofun, nofun⟩
  | some outcome =>
    cases outcome with
    | ok middle =>
      constructor
      · exact fun same => .inr ⟨middle, rfl, same⟩
      · rintro (same | ⟨other, same, rest⟩)
        · cases same
        · cases same
          exact rest
    | error other =>
      constructor
      · intro same
        cases same
        exact .inl rfl
      · rintro (same | ⟨_, same, _⟩)
        · cases same
          rfl
        · cases same

theorem bind_of_ok {middle : α} (found : first = some (.ok middle)) :
    (first >>= next) = next middle := by
  rw [found]
  rfl

theorem bind_of_error {cause : EvalError} (failed : first = some (.error cause)) :
    (first >>= next) = some (.error cause) :=
  bind_error.mpr (.inl failed)

/-- What a computation comes to is fine: it has an outcome if it has to, and its failure is
excused. -/
def Fine (ends : Prop) (excuses : EvalError → Prop) (attempt : Attempt α) : Prop :=
  (ends → Option.isSome attempt = true) ∧ ∀ cause, attempt = some (.error cause) → excuses cause

namespace Fine

variable {ends : Prop} {excuses : EvalError → Prop}

theorem ok (result : α) : Fine ends excuses (some (.ok result)) := ⟨fun _ => rfl, nofun⟩

theorem of_bind (fine : Fine ends excuses (first >>= next)) : Fine ends excuses first := by
  constructor
  · intro must
    have there := fine.1 must
    cases first with
    | none => cases there
    | some outcome => rfl
  · exact fun cause failed => fine.2 cause (bind_of_error failed)

theorem bind_some (fine : Fine ends excuses (first >>= next)) {middle : α}
    (found : first = some (.ok middle)) : Fine ends excuses (next middle) := by
  rwa [bind_of_ok found] at fine

end Fine

end Attempt

namespace Template

/-- What instantiating a template depends on. -/
structure Scene where
  /-- The depths of the variables. -/
  depths : Depths
  metafunctions : SymbolSet
  /-- The values of the variables. -/
  assignment : Symbol → Option Term
  /-- The outcome of a metafunction for the sequence of its arguments. -/
  apply : Symbol → Term → Attempt Term
  /-- The outcome of a host function. -/
  call : Symbol → List Term → Attempt Term

/-- The setting of a scene, in which functions give what they come to. -/
def Scene.setting (scene : Scene) : Setting where
  depths := scene.depths
  metafunctions := scene.metafunctions
  assignment := scene.assignment
  applied function argument term := scene.apply function argument = some (.ok term)
  called function arguments term := scene.call function arguments = some (.ok term)

/-- The terms that a part adds to a sequence. -/
def Part.entering (part : Part) : Attempt (List Term) :=
  match part.items? with
  | some contents => pure contents
  | none => throw (.term (.wrongKind .sequence part.whole))

/-- The results of a number of rounds, joined. -/
def inRounds (round : Nat → Attempt (List Term)) : Nat → Attempt (List Term)
  | 0 => pure []
  | count + 1 => do
    let front ← inRounds round count
    let last ← round count
    pure (front ++ last)

/-- The number of elements of the first driver of an ellipsis. -/
def Scene.roundCount (scene : Scene) (rounds : List Nat) (inner : Template) : Nat :=
  match walked scene.depths rounds.length inner with
  | [] => 0
  | first :: _ => (scene.setting.elements rounds first).length

mutual

/-- Instantiate a template in rounds of the ellipses around it, the outermost first. -/
def evaluate (scene : Scene) : Template → List Nat → Attempt Part
  | .literal term, _ => pure (.term term)
  | .symbol name, rounds =>
    match scene.depths.find? name with
    | none => pure (.term (.symbol name))
    | some _ => ExceptT.lift ((scene.setting.element? rounds name).map .term)
  | .sequence items, rounds =>
    match applied? scene.depths scene.metafunctions items, items with
    | some function, _ :: arguments => do
      let terms ← evaluateAll scene arguments rounds
      let result ← scene.apply function (.sequence terms)
      pure (.term result)
    | _, all => do
      let terms ← evaluateAll scene all rounds
      pure (.term (.sequence terms))
  | .repeated inner, rounds =>
    match scene.setting.mismatch? rounds inner with
    | some cause => throw (.term cause)
    | none => do
      let terms ← inRounds (fun round => do
        let part ← evaluate scene inner (rounds ++ [round])
        part.entering) (scene.roundCount rounds inner)
      pure (.terms terms)
  | .inHole context contents, rounds => do
    let outer ← evaluate scene context rounds
    let inner ← evaluate scene contents rounds
    match outer.whole.plug? inner.whole with
    | some term => pure (.term term)
    | none => throw (.term (.noHole outer.whole))
  | .foreign function arguments mode, rounds => do
    let terms ← evaluateEach scene arguments rounds
    let result ← scene.call function terms
    match mode with
    | .append => pure (.term result)
    | .splice => pure (.spliced result)

/-- Instantiate templates whose parts enter a sequence, from left to right. -/
def evaluateAll (scene : Scene) : List Template → List Nat → Attempt (List Term)
  | [], _ => pure []
  | item :: rest, rounds => do
    let part ← evaluate scene item rounds
    let first ← part.entering
    let others ← evaluateAll scene rest rounds
    pure (first ++ others)

/-- Instantiate templates to one term each, from left to right. -/
def evaluateEach (scene : Scene) : List Template → List Nat → Attempt (List Term)
  | [], _ => pure []
  | item :: rest, rounds => do
    let part ← evaluate scene item rounds
    let others ← evaluateEach scene rest rounds
    pure (part.whole :: others)

end

/-- The term that a template is instantiated to. -/
def instantiate (scene : Scene) (template : Template) : Attempt Term := do
  let part ← evaluate scene template []
  pure part.whole

variable {scene : Scene}

theorem Part.entering_of_items? {part : Part} {contents : List Term}
    (items : part.items? = some contents) : part.entering = some (.ok contents) := by
  rw [entering, items]
  rfl

theorem Part.entering_childless {content : Term} (childless : content.children? = none) :
    (Part.spliced content).entering = some (.error (.term (.wrongKind .sequence content))) := by
  have none_ : (Part.spliced content).items? = none := childless
  rw [entering, none_]
  rfl

/-- Rounds that all come to terms come to all of them together. -/
theorem inRounds_of_gather {round : Nat → Attempt (List Term)} {part : Nat → Part} {count : Nat}
    (each : ∀ index < count, round index = (part index).entering) :
    ∀ {contents : List Term}, Part.join ((List.range count).map part) = some contents →
      inRounds round count = some (.ok contents) := by
  induction count with
  | zero =>
    intro contents joined
    cases joined
    rfl
  | succ count ih =>
    intro contents joined
    rw [List.range_succ, List.map_append] at joined
    obtain ⟨front, back, one, two, rfl⟩ := gather_append_eq_some.mp joined
    obtain ⟨last, rest, here, nothing, rfl⟩ := gather_cons_eq_some.mp two
    cases nothing
    have earlier := ih (fun index below => each index (Nat.lt_succ_of_lt below)) one
    have final : round count = some (.ok last) := by
      rw [each count (Nat.lt_succ_self _), Part.entering_of_items? here]
    rw [inRounds, Attempt.bind_of_ok earlier, Attempt.bind_of_ok final, List.append_nil]
    rfl

/-- The drivers of an ellipsis have as many elements as it has rounds. -/
theorem Scene.roundCount_eq {rounds : List Nat} {inner : Template} {count : Nat}
    (driven : ∃ name, scene.setting.Walks rounds.length inner name)
    (counts : scene.setting.Counts rounds inner count) : scene.roundCount rounds inner = count := by
  obtain ⟨name, walks⟩ := driven
  have listed : name ∈ walked scene.depths rounds.length inner := mem_walked.mpr walks
  unfold roundCount
  split
  · rename_i none_
    rw [none_] at listed
    cases listed
  · rename_i first others same
    have among : first ∈ walked scene.depths rounds.length inner := by
      rw [same]
      exact List.mem_cons_self
    obtain ⟨items, selected, sized⟩ := counts first (mem_walked.mp among)
    rw [Setting.elements, selected]
    exact sized

theorem evaluate_sequence_plain {items : List Template} (rounds : List Nat)
    (plain : applied? scene.depths scene.metafunctions items = none) :
    evaluate scene (.sequence items) rounds = (do
      let contents ← evaluateAll scene items rounds
      pure (.term (.sequence contents))) := by
  rw [evaluate.eq_def]
  simp only [plain]

theorem evaluate_application {function : Symbol} {head : Template} {arguments : List Template}
    (rounds : List Nat)
    (applied : applied? scene.depths scene.metafunctions (head :: arguments) = some function) :
    evaluate scene (.sequence (head :: arguments)) rounds = (do
      let contents ← evaluateAll scene arguments rounds
      let result ← scene.apply function (.sequence contents)
      pure (.term result)) := by
  rw [evaluate.eq_def]
  simp only [applied]

/-- Templates that build parts are instantiated to them, if each of them is. -/
theorem evaluateAll_of_each {items : List Template} :
    (∀ item ∈ items, ∀ {rounds : List Nat} {part : Part},
      Builds scene.setting rounds item part → evaluate scene item rounds = some (.ok part)) →
    ∀ {rounds : List Nat} {parts : List Part}, BuildsAll scene.setting rounds items parts →
      evaluateEach scene items rounds = some (.ok (parts.map Part.whole)) ∧
      ∀ {contents : List Term}, Part.join parts = some contents →
        evaluateAll scene items rounds = some (.ok contents) := by
  induction items with
  | nil =>
    intro _ rounds parts builds
    cases builds
    refine ⟨rfl, fun joined => ?_⟩
    cases joined
    rfl
  | cons item rest ih =>
    intro each rounds parts builds
    obtain ⟨here, later⟩ := List.forall_mem_cons.mp each
    cases builds with
    | cons first others =>
      obtain ⟨apart, together⟩ := ih later others
      constructor
      · rw [evaluateEach, Attempt.bind_of_ok (here first), Attempt.bind_of_ok apart]
        rfl
      · intro contents joined
        obtain ⟨front, back, one, two, rfl⟩ := gather_cons_eq_some.mp joined
        rw [evaluateAll, Attempt.bind_of_ok (here first),
          Attempt.bind_of_ok (Part.entering_of_items? one), Attempt.bind_of_ok (together two)]
        rfl

/-- A template that builds a part is instantiated to it. -/
theorem evaluate_of_builds {template : Template} : ∀ {rounds : List Nat} {part : Part},
    Builds scene.setting rounds template part →
    evaluate scene template rounds = some (.ok part) := by
  induction template using Template.induction with
  | literal term =>
    intro rounds part builds
    cases builds
    rfl
  | symbol name =>
    intro rounds part builds
    cases builds with
    | unbound free =>
      have none_ : scene.depths.find? name = none := free
      rw [evaluate, none_]
      rfl
    | bound selected =>
      have found := selected
      obtain ⟨bound, known, _⟩ := Option.bind_eq_some_iff.mp found
      have there : scene.depths.find? name = some bound := known
      simp only [evaluate, there, selected]
      rfl
  | sequence items each =>
    intro rounds part builds
    cases builds with
    | sequence plain inner joined =>
      rw [evaluate_sequence_plain rounds plain,
        Attempt.bind_of_ok ((evaluateAll_of_each each inner).2 joined)]
      rfl
    | application applied inner joined gives =>
      obtain ⟨arguments, rfl, _⟩ := applied?_eq_some applied
      have built := (evaluateAll_of_each
        (fun item listed => each item (List.mem_cons_of_mem _ listed)) inner).2 joined
      rw [evaluate_application rounds applied, Attempt.bind_of_ok built, Attempt.bind_of_ok gives]
      rfl
  | repeated inner ih =>
    intro rounds part builds
    cases builds with
    | @repeated _ _ count part contents driven counts each joined =>
      have evenly := counts.mismatch?_eq_none
      have built : inRounds (fun round => do
          let part ← evaluate scene inner (rounds ++ [round])
          part.entering) count = some (.ok contents) := by
        apply inRounds_of_gather _ joined
        exact fun index below => Attempt.bind_of_ok (ih (each index below))
      rw [evaluate, evenly]
      simp only [scene.roundCount_eq driven counts]
      rw [Attempt.bind_of_ok built]
      rfl
  | inHole context contents around within =>
    intro rounds part builds
    cases builds with
    | inHole outer inner plugged =>
      rw [evaluate, Attempt.bind_of_ok (around outer), Attempt.bind_of_ok (within inner)]
      simp only [plugged]
      rfl
  | foreign function arguments mode each =>
    intro rounds part builds
    cases builds with
    | call inner gives =>
      rw [evaluate, Attempt.bind_of_ok (evaluateAll_of_each each inner).1, Attempt.bind_of_ok gives]
      rfl
    | splice inner gives =>
      rw [evaluate, Attempt.bind_of_ok (evaluateAll_of_each each inner).1, Attempt.bind_of_ok gives]
      rfl

theorem evaluateAll_of_builds {items : List Template} {rounds : List Nat} {parts : List Part}
    {contents : List Term} (builds : BuildsAll scene.setting rounds items parts)
    (joined : Part.join parts = some contents) :
    evaluateAll scene items rounds = some (.ok contents) :=
  (evaluateAll_of_each (fun _ _ => evaluate_of_builds) builds).2 joined

theorem evaluateEach_of_builds {items : List Template} {rounds : List Nat} {parts : List Part}
    (builds : BuildsAll scene.setting rounds items parts) :
    evaluateEach scene items rounds = some (.ok (parts.map Part.whole)) :=
  (evaluateAll_of_each (fun _ _ => evaluate_of_builds) builds).1

open Attempt

/-- The calls of a scene that are fine. -/
def Scene.allowance (scene : Scene) (ends : Prop) (excuses : EvalError → Prop) : Allowance where
  applies function argument := Fine ends excuses (scene.apply function argument)
  calls function arguments := Fine ends excuses (scene.call function arguments)

variable {ends : Prop} {excuses : EvalError → Prop}

/-- A childless term whose children are wanted is excused where its failure is. -/
theorem splicesSafely_of_fine {item : Template} {rounds : List Nat} {β : Type}
    {next : List Term → Attempt β}
    (fine : ∀ part, evaluate scene item rounds = some (.ok part) →
      Fine ends excuses (part.entering >>= next)) :
    SplicesSafely excuses scene.setting rounds item := by
  intro content builds childless
  have entering := (fine _ (evaluate_of_builds builds)).of_bind
  exact entering.2 _ (Part.entering_childless childless)

/-- A round is fine if all rounds are, and those before it come to terms. -/
theorem fine_round {round : Nat → Attempt (List Term)} {count index : Nat}
    (fine : Fine ends excuses (inRounds round count)) (below : index < count)
    (earlier : ∀ other < index, ∃ contents, round other = some (.ok contents)) :
    Fine ends excuses (round index) := by
  have front : ∀ fewer ≤ index, ∃ contents, inRounds round fewer = some (.ok contents) := by
    intro fewer
    induction fewer with
    | zero => exact fun _ => ⟨[], rfl⟩
    | succ fewer ih =>
      intro within
      obtain ⟨contents, found⟩ := ih (by omega)
      obtain ⟨last, there⟩ := earlier fewer (by omega)
      refine ⟨contents ++ last, ?_⟩
      rw [inRounds, Attempt.bind_of_ok found, Attempt.bind_of_ok there]
      rfl
  induction count with
  | zero => omega
  | succ count ih =>
    rw [inRounds] at fine
    by_cases last : index = count
    · subst last
      obtain ⟨contents, found⟩ := front index (Nat.le_refl _)
      exact (fine.bind_some found).of_bind
    · exact ih fine.of_bind (by omega)

/-- A template is built safely if its instantiation is fine. -/
theorem safe_of_fine {template : Template} : ∀ {rounds : List Nat},
    Fine ends excuses (evaluate scene template rounds) →
    Safe excuses (scene.allowance ends excuses) scene.setting rounds template := by
  have all : ∀ items : List Template,
      (∀ item ∈ items, ∀ {rounds : List Nat}, Fine ends excuses (evaluate scene item rounds) →
        Safe excuses (scene.allowance ends excuses) scene.setting rounds item) →
      ∀ {rounds : List Nat},
        (Fine ends excuses (evaluateAll scene items rounds) →
          SafeAll excuses (scene.allowance ends excuses) scene.setting rounds items) ∧
        (Fine ends excuses (evaluateEach scene items rounds) →
          SafeEach excuses (scene.allowance ends excuses) scene.setting rounds items) := by
    intro items
    induction items with
    | nil => exact fun _ _ => ⟨fun _ => trivial, fun _ => trivial⟩
    | cons item rest ih =>
      intro each rounds
      obtain ⟨here, later⟩ := List.forall_mem_cons.mp each
      obtain ⟨together, apart⟩ := @ih later rounds
      constructor
      · intro fine
        rw [evaluateAll] at fine
        have entering : ∀ part, evaluate scene item rounds = some (.ok part) → Fine ends excuses
            (part.entering >>= fun first => do
              let others ← evaluateAll scene rest rounds
              pure (first ++ others)) := fun part found => fine.bind_some found
        refine ⟨here fine.of_bind, splicesSafely_of_fine entering, ?_⟩
        intro part contents builds items
        have entered := (entering part (evaluate_of_builds builds)).bind_some
          (Part.entering_of_items? items)
        exact together entered.of_bind
      · intro fine
        rw [evaluateEach] at fine
        refine ⟨here fine.of_bind, fun part builds => ?_⟩
        exact apart (fine.bind_some (evaluate_of_builds builds)).of_bind
  induction template using Template.induction with
  | literal term => exact fun _ => trivial
  | symbol name => exact fun _ => trivial
  | sequence items each =>
    intro rounds fine
    cases applied : applied? scene.depths scene.metafunctions items with
    | none =>
      rw [evaluate_sequence_plain rounds applied] at fine
      refine ⟨(all items each).1 fine.of_bind, fun function parts contents other => ?_⟩
      have none_ : applied? scene.depths scene.metafunctions items = some function := other
      rw [applied] at none_
      cases none_
    | some function =>
      obtain ⟨arguments, rfl, _⟩ := applied?_eq_some applied
      rw [evaluate_application rounds applied] at fine
      have inside := (all arguments fun item listed =>
        each item (List.mem_cons_of_mem _ listed)).1 fine.of_bind
      refine ⟨⟨trivial, nofun, fun _ _ _ _ => inside⟩, ?_⟩
      intro other parts contents again builds joined
      have same : applied? scene.depths scene.metafunctions (.symbol function :: arguments) =
          some other := again
      rw [applied] at same
      cases same
      exact (fine.bind_some (evaluateAll_of_builds builds joined)).of_bind
  | repeated inner ih =>
    intro rounds fine
    rw [evaluate] at fine
    constructor
    · intro cause mismatch
      rw [mismatch] at fine
      exact fine.2 _ rfl
    · intro count round driven counts below earlier
      rw [counts.mismatch?_eq_none] at fine
      simp only [scene.roundCount_eq driven counts] at fine
      have here := fine_round fine.of_bind below fun other before => by
        obtain ⟨part, contents, builds, items⟩ := earlier other before
        refine ⟨contents, ?_⟩
        rw [Attempt.bind_of_ok (evaluate_of_builds builds), Part.entering_of_items? items]
      refine ⟨ih here.of_bind, fun content builds childless => ?_⟩
      have entering := here.bind_some (evaluate_of_builds builds)
      exact entering.2 _ (Part.entering_childless childless)
  | inHole context contents around within =>
    intro rounds fine
    rw [evaluate] at fine
    refine ⟨around fine.of_bind, fun outer builds => ?_⟩
    have filled := fine.bind_some (evaluate_of_builds builds)
    refine ⟨within filled.of_bind, fun inner fills unplugged => ?_⟩
    have plugged := filled.bind_some (evaluate_of_builds fills)
    rw [unplugged] at plugged
    exact plugged.2 _ rfl
  | foreign function arguments mode each =>
    intro rounds fine
    rw [evaluate] at fine
    refine ⟨(all arguments each).2 fine.of_bind, fun parts builds => ?_⟩
    exact (fine.bind_some (evaluateEach_of_builds builds)).of_bind

end Template

namespace Construction

open Draft Template Attempt

/-- The function that is compiled for an annotated template comes to what the template is
instantiated to. -/
theorem compile_instantiates {judgement : Judgement} {ends : Prop} {machine : Machine}
    {suits : Term → Prop}
    {draft : Draft} {scene : Scene} {table : Table Symbol} {template : Template}
    {annotated : Annotated} {before after : Draft} {name : Symbol} (tidy : Term.Tidy suits)
    (carries : machine.Carries draft)
    (known : ∀ function, scene.metafunctions.contains function = true →
      ∃ target, table.find? function = some target)
    (constants : template.Constants scene.depths fun term => term.reread = term ∧ suits term)
    (serves : Serves judgement machine table scene.setting (scene.allowance ends judgement.excuses) suits
      template.foreigns)
    (accepted : template.annotate scene.depths scene.metafunctions = .ok annotated)
    (yields : Yields (compile table annotated) before name after) (grows : after.Grows draft)
    (fine : Fine ends judgement.excuses (instantiate scene template)) {store : Store} {place : Nat}
    {bindings : Bindings} (held : store.cell? place = some (.bindings bindings))
    (supplies : Supplies scene.setting suits template.symbols bindings) :
    Performs judgement machine name [.bindings place] store
      (GivesTerm store fun term => instantiate scene template = some (.ok term) ∧ suits term) := by
  have performs := compile_performs tidy carries known constants serves accepted yields grows
    (safe_of_fine fine.of_bind) held supplies
  apply performs.weaken
  rintro value changed ⟨term, same, ⟨⟨part, builds, rfl⟩, suited⟩, keeps⟩
  exact ⟨part.whole, same, ⟨Attempt.bind_of_ok (evaluate_of_builds builds), suited⟩, keeps⟩

end Construction

end Reduct
