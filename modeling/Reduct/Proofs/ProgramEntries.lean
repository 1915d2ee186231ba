import Reduct.Proofs.EntryCode

/-!
# The entries of a program

Every form that matches or asserts something gives the program an entry, in the order of the forms,
with a description of what it does. The function of the entry does what the form means.
-/

namespace Reduct

/-- The lists of bindings that a form expects. -/
def FormBody.expected : FormBody → List (List (Symbol × Term))
  | .assertMatch _ _ _ expected => expected
  | _ => []

/-- Every list of expected bindings names a symbol once at most. -/
def FormBody.NamesOnce (body : FormBody) : Prop :=
  ∀ pairs ∈ body.expected, (pairs.map (·.1)).Nodup

instance (body : FormBody) : Decidable body.NamesOnce :=
  inferInstanceAs (Decidable (∀ pairs ∈ body.expected, (pairs.map (·.1)).Nodup))

/-- What the entry of a form does in short, and its kind, if the form has one. -/
def Form.entry? (form : Form) : Option (String × EntryKind) :=
  match form.body with
  | .redexMatch language pattern term =>
    some (Text.spaced ["redex-match", language, pattern.text, term.text], .matching)
  | .assertMatch language pattern term _ =>
    some (Text.spaced ["redex-match-assert-equal", language, pattern.text, term.text], .assertion)
  | .assertTerm _ _ template expected =>
    some (Text.spaced ["term-let-assert-equal", template.text, expected.text], .assertion)
  | .assertReduction relation term _ =>
    some (Text.spaced ["apply-reduction-relation-assert-equal", relation, term.text], .assertion)
  | _ => none

/-- A value shows what a form comes to: the entry that matches gives its matches. -/
def World.Shows (world : World) (body : FormBody) (value : Value) (after : Store) : Prop :=
  match body with
  | .redexMatch language pattern term => ∃ place found,
    world.found language pattern term = some (.ok found) ∧ value = .list place ∧
      Display.found.Lists after place found
  | _ => True

namespace Program

open Draft

/-- What is compiled ends as an entry of a description, a kind and a place. -/
def Enters (compiling : Drafting Addition) (description : String) (kind : EntryKind) (span : Span) :
    Prop :=
  ∀ before addition after, Yields compiling before addition after →
    ∃ function, addition = .entry ⟨function, description, kind, span⟩

section Enters

variable {description : String} {kind : EntryKind} {span : Span}

theorem Enters.bind {α : Type} {first : Drafting α} {next : α → Drafting Addition}
    (enters : ∀ result, Enters (next result) description kind span) :
    Enters (first >>= next) description kind span := by
  intro before addition after yields
  obtain ⟨result, middle, _, yields⟩ := yields_bind.mp yields
  exact enters result middle addition after yields

theorem enters_entry (name : Symbol) (body : List Statement) :
    Enters (entry name body description kind span) description kind span := by
  intro before addition after yields
  obtain ⟨_, _, _, yields⟩ := yields_bind.mp yields
  obtain ⟨rfl, _⟩ := yields_pure.mp yields
  exact ⟨name, rfl⟩

variable {scope : Scope} {language : Symbol} {term : Term}

theorem enters_redexMatch {pattern : Prepared} :
    Enters (generate scope span (.redexMatch language pattern term description))
      description .matching span := by
  refine .bind fun _ => .bind fun _ => .bind fun _ => .bind fun _ => ?_
  dsimp only
  split
  · exact .bind fun _ => .bind fun _ => enters_entry _ _
  · exact .bind fun _ => enters_entry _ _

theorem enters_assertMatch {pattern : Prepared} {expected : List (List (Symbol × Term))} :
    Enters (generate scope span (.assertMatch language pattern term expected description))
      description .assertion span :=
  .bind fun _ => .bind fun _ => .bind fun _ => .bind fun _ => .bind fun _ => .bind fun _ =>
    .bind fun _ => .bind fun _ => enters_entry _ _

theorem enters_assertTerm {bindings : List (Prepared × Term)} {depths : Depths}
    {template : Template} :
    Enters (generate scope span (.assertTerm language bindings depths template term description))
      description .assertion span :=
  .bind fun _ => .bind fun _ => .bind fun _ => .bind fun _ => .bind fun _ => .bind fun _ =>
    .bind fun _ => .bind fun _ => enters_entry _ _

theorem enters_assertReduction {relation function : Symbol} {expected : List Term} :
    Enters (generate scope span (.assertReduction relation function term expected description))
      description .assertion span :=
  .bind fun _ => .bind fun _ => .bind fun _ => .bind fun _ => .bind fun _ => .bind fun _ =>
    .bind fun _ => enters_entry _ _

end Enters

namespace Compilation

open Attempt Construction

variable {forms : List Form} {prints : Bool} {compilation : Compilation forms prints}

/-- A function does what the entry of a form means, wherever what it relies on is supported. -/
def Serves (compilation : Compilation forms prints) (host : Host) (form : Form)
    (function : Symbol) : Prop :=
  ∃ shown : List Pattern, shown.length = form.uses.length ∧
    ∀ {judgement : Judgement} {machine : Machine} {ends : Prop}
      {apply : Symbol → Term → Attempt Term},
      compilation.Supports judgement machine host ends apply →
      judgement.tolerant ∨ form.body.NamesOnce →
      Fine ends judgement.excuses ((compilation.world host).verdict apply shown form.body) →
      ∀ store, Performs judgement machine function [] store fun value after =>
        (compilation.world host).verdict apply shown form.body = some (.ok ()) ∧
          (compilation.world host).Shows form.body value after

/-- An entry is that of a form: it is described as the form is, and does what the form means. -/
structure EntryOf (compilation : Compilation forms prints) (host : Host) (form : Form)
    (entry : Entry) : Prop where
  described : form.entry? = some (entry.description, entry.kind)
  placed : entry.span = form.span
  serves : compilation.Serves host form entry.function

/-- What is expected of matches can be built, or its failure is excused. -/
theorem expects_of_namesOnce {judgement : Judgement} {expected : List (List (Symbol × Term))}
    (once : judgement.tolerant ∨ ∀ pairs ∈ expected, (pairs.map (·.1)).Nodup) :
    judgement.Expects (expected.mapM fun pairs => Bindings.empty.addAll? pairs) := by
  refine once.imp_right fun distinct => ?_
  induction expected with
  | nil => rfl
  | cons pairs rest ih =>
    obtain ⟨here, later⟩ := List.forall_mem_cons.mp distinct
    obtain ⟨first, built⟩ := Option.isSome_iff_exists.mp
      (Bindings.scalar_empty.exists_addAll? here fun _ _ => rfl)
    obtain ⟨others, all⟩ := Option.isSome_iff_exists.mp (ih (.inr later) later)
    rw [List.mapM_cons, built, all]
    rfl

/-- What is no entry adds none. -/
theorem entries_assemble_of_other {draft : Draft} {names : Names} {addition : Addition}
    {additions : List Addition} (other : ∀ entry, addition ≠ .entry entry) :
    (assemble draft names (addition :: additions)).entries =
      (assemble draft names additions).entries := by
  cases addition with
  | entry entry => exact absurd rfl (other entry)
  | nothing | foreignSource => rfl

section Entries

variable (read : ∀ form ∈ forms, form.Read) (unmarked : ∀ form ∈ forms, form.Unmarked) (host : Host)

include read unmarked

/-- What a form adds to the program is its entry, if it has one. -/
theorem entryOf_contribution {form : Form} (listed : form ∈ forms) {addition : Addition}
    (contributes : compilation.Contribution form addition) :
    (form.entry? = none ∧ ∀ entry, addition ≠ .entry entry) ∨
      ∃ entry, addition = .entry entry ∧ compilation.EntryOf host form entry := by
  obtain ⟨prepared, before, after, follows, yields, grows⟩ := contributes
  have terms := (read form listed).terms
  obtain ⟨body, span⟩ := form
  cases follows with
  | language | foreignSource =>
    obtain ⟨rfl, _⟩ := yields_pure.mp yields
    exact .inl ⟨rfl, nofun⟩
  | relation | metafunction =>
    obtain ⟨_, _, _, yields⟩ := yields_bind.mp yields
    obtain ⟨rfl, _⟩ := yields_pure.mp yields
    exact .inl ⟨rfl, nofun⟩
  | @redexMatch name pattern prepared term uses =>
    obtain ⟨function, rfl⟩ := enters_redexMatch _ _ _ yields
    refine .inr ⟨_, rfl, rfl, rfl, [pattern], rfl, fun supports _ fine => ?_⟩
    obtain ⟨_, same, performs⟩ :=
      supports.redexMatch_concludes read uses (terms _ List.mem_cons_self) yields grows
    cases same
    refine fun store => (performs store).weaken fun value after given => ⟨?_, given⟩
    obtain ⟨_, found, searched, _⟩ := given
    exact bind_ok.mpr ⟨found, searched, rfl⟩
  | @assertMatch name pattern prepared term expected uses =>
    obtain ⟨function, rfl⟩ := enters_assertMatch _ _ _ yields
    refine .inr ⟨_, rfl, rfl, rfl, [pattern], rfl, fun supports once fine => ?_⟩
    have wanting : ∀ pairs ∈ expected, ∀ pair ∈ pairs, pair.2.Plain :=
      fun pairs among pair there => terms _ (List.mem_cons_of_mem _
        (List.mem_flatMap.mpr ⟨pairs, among, List.mem_map_of_mem there⟩))
    obtain ⟨_, same, performs⟩ := supports.assertMatch_concludes read uses
      (terms _ List.mem_cons_self) wanting (expects_of_namesOnce once) fine yields grows
    cases same
    exact fun store => (performs store).weaken fun _ _ given => ⟨given, trivial⟩
  | @assertTerm name bindings template expected results depths each joined =>
    obtain ⟨function, rfl⟩ := enters_assertTerm _ _ _ yields
    refine .inr ⟨_, rfl, rfl, rfl, results.map (·.1.pattern), ?_, fun supports _ fine => ?_⟩
    · simp [Form.uses, each.length_eq]
    obtain ⟨_, same, performs⟩ :=
      supports.assertTerm_concludes read unmarked listed each joined fine yields grows
    cases same
    exact fun store => (performs store).weaken fun _ _ given => ⟨given, trivial⟩
  | @assertReduction relation target term expected named =>
    obtain ⟨function, rfl⟩ := enters_assertReduction _ _ _ yields
    refine .inr ⟨_, rfl, rfl, rfl, [], rfl, fun supports _ fine => ?_⟩
    obtain ⟨_, same, performs⟩ := supports.assertReduction_concludes read unmarked named
      (terms _ List.mem_cons_self) (fun term among => terms _ (List.mem_cons_of_mem _ among))
      fine yields grows
    cases same
    exact fun store => (performs store).weaken fun _ _ given => ⟨given, trivial⟩

/-- The entries of the program are those of the forms, in their order. -/
theorem entries_of_forms : List.Forall₂ (compilation.EntryOf host)
    (forms.filter fun form => form.entry?.isSome) compilation.program.entries := by
  have all : ∀ {some : List Form} {additions : List Addition}, (∀ form ∈ some, form ∈ forms) →
      List.Forall₂ compilation.Contribution some additions →
      List.Forall₂ (compilation.EntryOf host) (some.filter fun form => form.entry?.isSome)
        (assemble compilation.draft compilation.names additions).entries := by
    intro some additions within each
    induction each with
    | nil => exact .nil
    | cons contributes _ ih =>
      obtain ⟨here, later⟩ := List.forall_mem_cons.mp within
      rcases compilation.entryOf_contribution read unmarked host here contributes with
        ⟨formless, other⟩ | ⟨entry, rfl, of⟩
      · rw [List.filter_cons_of_neg (by simp [formless]), entries_assemble_of_other other]
        exact ih later
      · rw [List.filter_cons_of_pos (by simp [of.described])]
        exact .cons of (ih later)
  exact all (fun _ => id) (compilation.contributions read unmarked)

end Entries

end Compilation

end Program

end Reduct
