import Reduct.Compile.Program
import Reduct.Proofs.ConstructionCode
import Reduct.Proofs.InHoleCode
import Reduct.Proofs.PredicateCode

/-!
# The code of tests and messages

Clauses and entries test whether a top-level matcher finds anything, and raise messages that show
terms or results. A test leaves what was found in a variable; a message ends the call, and is
excused where the judgement says so.
-/

namespace Reduct

section Rules

variable {judgement : Judgement} {machine : Machine} {rest : List Statement}
  {locals : Table Value} {store : Store} {ends : Table Value → Store → Prop}
  {gives : Value → Store → Prop}

theorem Runs.raise {operand : Operand} {message : String}
    (known : machine.read locals operand = .ok (.string message))
    (excused : judgement.excuses (.raised message)) :
    Runs judgement machine (.raise operand :: rest) locals store ends gives := by
  intro later frames calls journal admitted
  refine judgement.step ?_
  have same : (machine.moved store calls journal).read locals operand = .ok (.string message) :=
    known
  simp only [List.cons_append, State.step, State.execute, same]
  exact judgement.more (judgement.done (.fails excused))

/-- A line is printed. -/
theorem Runs.print {operand : Operand} {value : Value}
    (known : machine.read locals operand = .ok value)
    (others : Runs judgement machine rest locals store ends gives) :
    Runs judgement machine (.print operand :: rest) locals store ends gives := by
  intro later frames calls journal admitted
  refine judgement.step ?_
  have same : (machine.moved store calls journal).read locals operand = .ok value := known
  have printed : ∀ line, ∃ noted,
      (machine.moved store calls journal).print line = machine.moved store calls noted := by
    intro line
    unfold Machine.print
    split
    · exact ⟨journal, rfl⟩
    · exact ⟨⟨journal.counts, journal.output ++ line ++ "\n"⟩, rfl⟩
  simp only [List.cons_append, State.step, State.execute, same]
  obtain ⟨noted, line⟩ := printed (value.text (machine.moved store calls journal).store)
  rw [line]
  exact judgement.more (others later frames calls noted admitted)

theorem Runs.whenFalse {condition : Symbol} {holds : Bool} {body : List Statement}
    (middle : Table Value → Store → Prop)
    (known : locals.find? condition = some (.bool holds))
    (taken : holds = false → Runs judgement machine body locals store middle gives)
    (skipped : holds = true → middle locals store)
    (others : ∀ locals store, middle locals store →
      Runs judgement machine rest locals store ends gives) :
    Runs judgement machine (Statement.whenFalse condition body :: rest) locals store ends gives :=
  Runs.branch middle (Machine.read_name known) (fun yes => .nil (skipped yes)) taken others

theorem Runs.termToString {target : Symbol} {operand : Operand} {term : Term}
    (known : machine.read locals operand = .ok (.term term))
    (others : Runs judgement machine rest (locals.insert target (.string term.text)) store ends
      gives) :
    Runs judgement machine (Statement.assignPrimitive target .termToString [operand] :: rest)
      locals store ends gives :=
  Runs.keep (Machine.readAll_one known) rfl others

/-- Two texts are joined. -/
theorem Runs.addTexts {target : Symbol} {left right : Operand} {first second : String}
    (one : machine.read locals left = .ok (.string first))
    (two : machine.read locals right = .ok (.string second))
    (others : Runs judgement machine rest (locals.insert target (.string (first ++ second))) store
      ends gives) :
    Runs judgement machine (Statement.assignBinary target .add left right :: rest) locals store
      ends gives :=
  Runs.assignBinary one two rfl others

end Rules

namespace Program

open Draft Statement

section Tests

variable {judgement : Judgement} {machine : Machine} {rest : List Statement}
  {locals : Table Value} {store : Store} {ends : Table Value → Store → Prop}
  {gives : Value → Store → Prop}

/-- A matcher is called, and it is noted whether it found anything. -/
theorem findsAny_runs {found count any matcher : Symbol} {operand : Operand} {value : Value}
    {results : List Bindings}
    (known : machine.read locals operand = .ok value)
    (called : Calls judgement machine matcher [value] store
      (Matcher.GivesFound store (some results)))
    (others : ∀ place changed, store.cell? place = none → store.Keeps changed →
      Display.found.Lists changed place results →
      Runs judgement machine rest
        (((locals.insert found (.list place)).insert count
          (.int (wordOfCount results.length))).insert any (.bool (!results.isEmpty)))
        changed ends gives) :
    Runs judgement machine
      (assignCall found matcher [operand] :: assignPrimitive count .listLength [.name found] ::
        assignBinary any .greater (.name count) (.int 0) :: rest) locals store ends gives := by
  refine Runs.assignCall (Machine.readAll_one known) called ?_
  rintro _ changed ⟨place, _, rfl, free, same, keeps, lists⟩
  cases same
  obtain ⟨items, held, shown⟩ := lists
  have sized : items.size = results.length := by
    rw [← shown.length_eq, Array.length_toList]
  refine Runs.listLength (Machine.read_name (Table.find?_insert_self _ _ _)) held ?_
  refine Runs.assignBinary (Machine.read_name (Table.find?_insert_self _ _ _)) rfl
    (BinaryOp.apply_greater_zero _) ?_
  have filled : decide (0 < items.size) = !results.isEmpty := by
    rw [sized]
    cases results with
    | nil => rfl
    | cons first others => simp
  rw [filled, sized]
  exact others place changed free keeps ⟨items, held, shown⟩

end Tests

section Messages

variable {judgement : Judgement} {machine : Machine} {locals : Table Value} {store : Store}
  {ends : Table Value → Store → Prop} {gives : Value → Store → Prop}

/-- A message is raised that ends with a term. -/
theorem raiseTerm_runs {lead : String} {term : Symbol} {before after : Draft}
    {code : List Statement} (yields : Yields (raiseTerm lead term) before code after)
    {content : Term} (known : machine.read locals (.name term) = .ok (.term content))
    (excused : judgement.excuses (.raised (lead ++ content.text))) :
    Runs judgement machine code locals store ends gives := by
  obtain ⟨text, _, _, yields⟩ := yields_bind.mp yields
  obtain ⟨message, _, _, yields⟩ := yields_bind.mp yields
  obtain ⟨rfl, rfl⟩ := yields_pure.mp yields
  refine Runs.termToString known ?_
  refine Runs.addTexts rfl (Machine.read_name (Table.find?_insert_self _ _ _)) ?_
  exact Runs.raise (Machine.read_name (Table.find?_insert_self _ _ _)) excused

/-- A message is raised that shows two lists of results. -/
theorem raiseMismatch_runs {write : Primitive} {expected actual : Symbol} {before after : Draft}
    {code : List Statement}
    (yields : Yields (raiseMismatch write expected actual) before code after)
    (old : Older before.localCount actual) {first second : Value} {wanted got : String}
    (one : locals.find? expected = some first) (two : locals.find? actual = some second)
    (left : write.apply store [first] = .ok (.keep (.string wanted)))
    (right : write.apply store [second] = .ok (.keep (.string got)))
    (excused : judgement.excuses (.raised ("expected " ++ wanted ++ ", got " ++ got))) :
    Runs judgement machine code locals store ends gives := by
  rw [raiseMismatch, ← Draft.skip_zero before] at yields
  obtain ⟨wish, slot, yields⟩ := yields_local (by decide) (by decide) yields
  obtain ⟨have_, slot1, yields⟩ := yields_local (by decide) (by decide) yields
  obtain ⟨opening, slot2, yields⟩ := yields_local (by decide) (by decide) yields
  obtain ⟨middle, slot3, yields⟩ := yields_local (by decide) (by decide) yields
  obtain ⟨message, slot4, yields⟩ := yields_local (by decide) (by decide) yields
  obtain ⟨rfl, rfl⟩ := yields_pure.mp yields
  refine Runs.keep (Machine.readAll_one (Machine.read_name one)) left ?_
  have kept : (locals.insert wish (.string wanted)).find? actual = some second := by
    rw [Table.find?_insert_ne _ _ (old.ne slot (Nat.le_refl _)), two]
  refine Runs.keep (Machine.readAll_one (Machine.read_name kept)) right ?_
  have shown : ((locals.insert wish (.string wanted)).insert have_ (.string got)).find? wish =
      some (.string wanted) := by
    rw [Table.find?_insert_ne _ _ (slot1.ne slot (by omega)), Table.find?_insert_self]
  refine Runs.addTexts rfl (Machine.read_name shown) ?_
  refine Runs.addTexts (Machine.read_name (Table.find?_insert_self _ _ _)) rfl ?_
  have also : ∀ opened joined, ((((locals.insert wish (.string wanted)).insert have_
      (.string got)).insert opening opened).insert middle joined).find? have_ =
        some (.string got) := by
    intro opened joined
    rw [Table.find?_insert_ne _ _ (slot3.ne slot1 (by omega)),
      Table.find?_insert_ne _ _ (slot2.ne slot1 (by omega)), Table.find?_insert_self]
  refine Runs.addTexts (Machine.read_name (Table.find?_insert_self _ _ _))
    (Machine.read_name (also _ _)) ?_
  exact Runs.raise (Machine.read_name (Table.find?_insert_self _ _ _)) excused

end Messages

end Program

end Reduct
