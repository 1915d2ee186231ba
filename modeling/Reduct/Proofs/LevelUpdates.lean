import Reduct.Proofs.LevelStacks

/-!
# Changes of bindings in the view of one symbol

A run of changes does to the levels of a symbol what the changes that concern the symbol do, and
other symbols play no part in it. Each change has a view: the levels it makes of those it finds, or
none if it is refused for the symbol. A run follows the views, so where no symbol refuses it
succeeds. A symbol that is not unbound keeps a level for each one that was opened and not yet
closed.

The main results are `leaves_applyAll`, `takeAll_filter` and `count_le_length`.
-/

namespace Reduct

/-- The symbol that a misuse is about. -/
def Misuse.symbol : Misuse → Symbol
  | alreadyBound symbol _ _ => symbol
  | openOverScalar symbol _ => symbol
  | closeUnbound symbol => symbol
  | outOfOrder symbol => symbol
  | unfinished symbol => symbol
  | mergeOpen symbol => symbol

namespace Bindings

/-- A change of bindings. -/
inductive Update where
  /-- Bind a term. -/
  | add (symbol : Symbol) (term : Term)
  /-- Open an ellipsis level. -/
  | increaseDepth (symbol : Symbol)
  /-- Close the innermost ellipsis level. -/
  | decreaseDepth (symbol : Symbol)
  /-- Unbind a symbol. -/
  | erase (symbol : Symbol)
  /-- Add every binding of another match. -/
  | merge (other : Bindings)
deriving DecidableEq

namespace Update

/-- The bindings after a change. -/
def apply (bindings : Bindings) : Update → Except Misuse Bindings
  | add symbol term => bindings.add symbol term
  | increaseDepth symbol => bindings.increaseDepth symbol
  | decreaseDepth symbol => bindings.decreaseDepth symbol
  | erase symbol => .ok (bindings.erase symbol)
  | merge other => bindings.merge other

/-- Whether a change is one of a given symbol. -/
def concerns (symbol : Symbol) : Update → Bool
  | add name _ => decide (name = symbol)
  | increaseDepth name => decide (name = symbol)
  | decreaseDepth name => decide (name = symbol)
  | erase name => decide (name = symbol)
  | merge other => other.contains symbol

end Update

/-- The bindings after changes in their order. -/
def applyAll (bindings : Bindings) (updates : List Update) : Except Misuse Bindings :=
  updates.foldlM Update.apply bindings

/-- The levels after one is opened, none if that is refused. -/
def opened : List Level → Option (List Level)
  | .scalar _ :: _ => none
  | stack => some (.collected [] :: stack)

/-- The levels after the innermost one is closed, none if that is refused. -/
def lowered : List Level → Option (List Level)
  | [] => none
  | [level] => some [level]
  | level :: .collected terms :: outer => some (.collected (terms ++ [level.toTerm]) :: outer)
  | _ :: .scalar _ :: _ => none

/-- The levels after a finished value is added to them, none if that is refused. -/
def joined (stack : List Level) : List Level → Option (List Level)
  | [level] => pushed level.toTerm stack
  | _ => none

/-- The levels of a symbol after an entry of other bindings is merged. -/
def takeEntry (symbol : Symbol) (stack : List Level) (entry : Symbol × List Level) :
    Option (List Level) :=
  if entry.1 = symbol then joined stack entry.2 else some stack

/-- The levels of a symbol after a change, none if the change is refused for the symbol. -/
def take (symbol : Symbol) (stack : List Level) : Update → Option (List Level)
  | .add name term => if name = symbol then pushed term stack else some stack
  | .increaseDepth name => if name = symbol then opened stack else some stack
  | .decreaseDepth name => if name = symbol then lowered stack else some stack
  | .erase name => if name = symbol then some [] else some stack
  | .merge other => other.bound.entries.foldlM (takeEntry symbol) stack

/-- The levels of a symbol after changes in their order. -/
def takeAll (symbol : Symbol) (stack : List Level) (updates : List Update) : Option (List Level) :=
  updates.foldlM (take symbol) stack

theorem take_add (symbol name : Symbol) (term : Term) (stack : List Level) :
    take symbol stack (.add name term) =
      if name = symbol then pushed term stack else some stack := rfl

theorem take_increaseDepth (symbol name : Symbol) (stack : List Level) :
    take symbol stack (.increaseDepth name) =
      if name = symbol then opened stack else some stack := rfl

theorem take_decreaseDepth (symbol name : Symbol) (stack : List Level) :
    take symbol stack (.decreaseDepth name) =
      if name = symbol then lowered stack else some stack := rfl

theorem take_erase (symbol name : Symbol) (stack : List Level) :
    take symbol stack (.erase name) = if name = symbol then some [] else some stack := rfl

theorem takeAll_cons {symbol : Symbol} {stack middle : List Level} {update : Update}
    (first : take symbol stack update = some middle) (rest : List Update) :
    takeAll symbol stack (update :: rest) = takeAll symbol middle rest := by
  unfold takeAll
  rw [List.foldlM_cons, first]
  rfl

theorem takeAll_append {symbol : Symbol} {stack middle : List Level} {front : List Update}
    (first : takeAll symbol stack front = some middle) (rest : List Update) :
    takeAll symbol stack (front ++ rest) = takeAll symbol middle rest := by
  unfold takeAll at first ⊢
  rw [List.foldlM_append, first]
  rfl

/-- Changes that are taken are taken one by one. -/
theorem exists_takeAll_append {symbol : Symbol} {stack taken : List Level}
    {front rest : List Update} (done : takeAll symbol stack (front ++ rest) = some taken) :
    ∃ middle, takeAll symbol stack front = some middle := by
  unfold takeAll at done
  rw [List.foldlM_append] at done
  obtain ⟨middle, first, _⟩ := Option.bind_eq_some_iff.mp done
  exact ⟨middle, first⟩

/-- A run that leaves a symbol with the given levels, or is refused for another symbol. -/
structure Leaves (symbol : Symbol) (stack : List Level) (run : Except Misuse Bindings) : Prop where
  settled : ∀ after, run = .ok after → after.levels symbol = stack
  refused : ∀ misuse, run = .error misuse → misuse.symbol ≠ symbol

/-- A run that works on the levels of one symbol only, in the way given. -/
structure Works (bindings : Bindings) (name : Symbol) (view : List Level → Option (List Level))
    (run : Except Misuse Bindings) : Prop where
  own : ∀ after stack, run = .ok after → view (bindings.levels name) = some stack →
    after.levels name = stack
  others : ∀ after symbol, run = .ok after → name ≠ symbol →
    after.levels symbol = bindings.levels symbol
  refused : ∀ misuse, run = .error misuse →
    misuse.symbol = name ∧ view (bindings.levels name) = none

section Views

variable {symbol name : Symbol} {bindings : Bindings} {stack : List Level}
  {view : List Level → Option (List Level)}

/-- A run on the levels of one symbol, seen from any symbol. -/
theorem Works.leaves {run : Except Misuse Bindings} (works : bindings.Works name view run)
    (taken : (if name = symbol then view (bindings.levels symbol)
      else some (bindings.levels symbol)) = some stack) : Leaves symbol stack run := by
  by_cases same : name = symbol
  · subst same
    rw [if_pos rfl] at taken
    constructor
    · intro after done
      exact works.own after stack done taken
    · intro misuse done
      rw [(works.refused misuse done).2] at taken
      cases taken
  · rw [if_neg same] at taken
    constructor
    · intro after done
      rw [works.others after symbol done same]
      exact Option.some.inj taken
    · intro misuse done
      rw [(works.refused misuse done).1]
      exact same

theorem works_withLevels (taken : view (bindings.levels name) = some stack) :
    bindings.Works name view (.ok (bindings.withLevels name stack)) := by
  constructor
  · intro after other done same
    rw [← Except.ok.inj done, levels_withLevels, if_pos rfl]
    exact Option.some.inj (taken.symm.trans same)
  · intro after other done apart
    rw [← Except.ok.inj done, levels_withLevels, if_neg apart]
  · intro misuse done
    cases done

theorem works_unchanged (taken : ∀ other, view (bindings.levels name) = some other →
    bindings.levels name = other) : bindings.Works name view (.ok bindings) := by
  constructor
  · intro after other done same
    rw [← Except.ok.inj done]
    exact taken other same
  · intro after other done apart
    rw [← Except.ok.inj done]
  · intro misuse done
    cases done

theorem works_refused {misuse : Misuse} (about : misuse.symbol = name)
    (taken : view (bindings.levels name) = none) :
    bindings.Works name view (.error misuse) := by
  constructor
  · intro after other done
    cases done
  · intro after other done
    cases done
  · intro other done
    rw [← Except.error.inj done]
    exact ⟨about, taken⟩

theorem works_add (bindings : Bindings) (name : Symbol) (term : Term) :
    bindings.Works name (pushed term) (bindings.add name term) := by
  unfold add
  cases found : bindings.levels name with
  | nil => exact works_withLevels (by rw [found]; rfl)
  | cons level outer =>
    cases level with
    | scalar previous => exact works_refused rfl (by rw [found]; rfl)
    | collected terms => exact works_withLevels (by rw [found]; rfl)

theorem works_increaseDepth (bindings : Bindings) (name : Symbol) :
    bindings.Works name opened (bindings.increaseDepth name) := by
  unfold increaseDepth
  cases found : bindings.levels name with
  | nil => exact works_withLevels (by rw [found]; rfl)
  | cons level outer =>
    cases level with
    | scalar previous => exact works_refused rfl (by rw [found]; rfl)
    | collected terms => exact works_withLevels (by rw [found]; rfl)

theorem works_decreaseDepth (bindings : Bindings) (name : Symbol) :
    bindings.Works name lowered (bindings.decreaseDepth name) := by
  unfold decreaseDepth
  cases found : bindings.bound.find? name with
  | none =>
    refine works_refused rfl ?_
    unfold levels
    rw [found]
    rfl
  | some stack =>
    have known := levels_of_find? found
    cases stack with
    | nil =>
      refine works_unchanged fun other same => ?_
      rw [known] at same
      cases same
    | cons closing outer =>
      cases outer with
      | nil =>
        refine works_unchanged fun other same => ?_
        rw [known] at same ⊢
        exact Option.some.inj same
      | cons below outer =>
        cases below with
        | scalar previous => exact works_refused rfl (by rw [known]; rfl)
        | collected terms => exact works_withLevels (by rw [known]; rfl)

theorem works_erase (bindings : Bindings) (name : Symbol) :
    bindings.Works name (fun _ => some []) (.ok (bindings.erase name)) := by
  have erased : ∀ symbol, (bindings.erase name).levels symbol =
      if name = symbol then [] else bindings.levels symbol := by
    intro symbol
    change ((bindings.bound.erase name).find? symbol).getD [] = _
    rw [Table.find?_erase]
    split <;> rfl
  constructor
  · intro after stack done taken
    rw [← Except.ok.inj done, erased, if_pos rfl]
    exact Option.some.inj taken
  · intro after symbol done apart
    rw [← Except.ok.inj done, erased, if_neg apart]
  · intro misuse done
    cases done

theorem works_mergeEntry (bindings : Bindings) (entry : Symbol × List Level) :
    bindings.Works entry.1 (joined · entry.2) (bindings.mergeEntry entry) := by
  unfold mergeEntry
  cases entry.2 with
  | nil => exact works_refused rfl rfl
  | cons level outer =>
    cases outer with
    | nil => exact works_add bindings entry.1 level.toTerm
    | cons below outer => exact works_refused rfl rfl

/-- Runs that each follow their view follow the views one after the other. -/
theorem Leaves.foldlM {α : Type} {step : Bindings → α → Except Misuse Bindings}
    {view : List Level → α → Option (List Level)}
    (each : ∀ {bindings : Bindings} {entry : α} {stack : List Level},
      view (bindings.levels symbol) entry = some stack →
        Leaves symbol stack (step bindings entry))
    {entries : List α} : ∀ {bindings : Bindings} {stack : List Level},
      entries.foldlM view (bindings.levels symbol) = some stack →
        Leaves symbol stack (entries.foldlM step bindings) := by
  induction entries with
  | nil =>
    intro bindings stack taken
    constructor
    · intro after done
      rw [← Except.ok.inj done]
      exact Option.some.inj taken
    · intro misuse done
      cases done
  | cons entry rest ih =>
    intro bindings stack taken
    rw [List.foldlM_cons] at taken
    obtain ⟨middle, first, others⟩ := Option.bind_eq_some_iff.mp taken
    have here := each first
    rw [List.foldlM_cons]
    cases done : step bindings entry with
    | error misuse =>
      constructor
      · intro after given
        cases given
      · intro other given
        rw [← Except.error.inj given]
        exact here.refused misuse done
    | ok next =>
      rw [← here.settled next done] at others
      exact ih others

/-- A change follows its view. -/
theorem leaves_apply {update : Update}
    (taken : take symbol (bindings.levels symbol) update = some stack) :
    Leaves symbol stack (update.apply bindings) := by
  cases update with
  | add name term => exact (works_add bindings name term).leaves taken
  | increaseDepth name => exact (works_increaseDepth bindings name).leaves taken
  | decreaseDepth name => exact (works_decreaseDepth bindings name).leaves taken
  | erase name => exact (works_erase bindings name).leaves taken
  | merge other => exact .foldlM (fun taken => (works_mergeEntry _ _).leaves taken) taken

/-- Changes follow their views. -/
theorem leaves_applyAll {updates : List Update}
    (taken : takeAll symbol (bindings.levels symbol) updates = some stack) :
    Leaves symbol stack (bindings.applyAll updates) :=
  .foldlM leaves_apply taken

/-- Changes that no symbol refuses succeed. -/
theorem exists_applyAll {updates : List Update} (each : ∀ symbol, ∃ stack,
    takeAll symbol (bindings.levels symbol) updates = some stack) :
    ∃ after, bindings.applyAll updates = .ok after := by
  cases done : bindings.applyAll updates with
  | ok after => exact ⟨after, rfl⟩
  | error misuse =>
    obtain ⟨stack, taken⟩ := each misuse.symbol
    exact absurd rfl ((leaves_applyAll taken).refused misuse done)

/-- Merged bindings without a symbol leave its levels. -/
theorem takeEntries_of_absent {entries : List (Symbol × List Level)}
    (absent : Table.findIn symbol entries = none) :
    entries.foldlM (takeEntry symbol) stack = some stack := by
  induction entries with
  | nil => rfl
  | cons entry rest ih =>
    obtain ⟨name, levels⟩ := entry
    by_cases same : name = symbol
    · rw [Table.findIn, if_pos same] at absent
      cases absent
    · rw [Table.findIn, if_neg same] at absent
      rw [List.foldlM_cons, takeEntry, if_neg same]
      exact ih absent

/-- Merged bindings with a finished value of a symbol add it. -/
theorem takeEntries_of_finished {entries : List (Symbol × List Level)} {level : Level}
    (sorted : entries.Pairwise fun one other => one.1 < other.1)
    (found : Table.findIn symbol entries = some [level]) :
    entries.foldlM (takeEntry symbol) stack = pushed level.toTerm stack := by
  induction entries with
  | nil => cases found
  | cons entry rest ih =>
    obtain ⟨name, levels⟩ := entry
    obtain ⟨head, tail⟩ := List.pairwise_cons.mp sorted
    rw [List.foldlM_cons]
    by_cases same : name = symbol
    · subst same
      rw [Table.findIn, if_pos rfl] at found
      obtain rfl := Option.some.inj found
      have absent : Table.findIn name rest = none := Table.findIn_eq_none_of_before head
      rw [takeEntry, if_pos rfl]
      change (pushed level.toTerm stack).bind _ = _
      cases pushed level.toTerm stack with
      | none => rfl
      | some taken => exact takeEntries_of_absent absent
    · rw [Table.findIn, if_neg same] at found
      rw [takeEntry, if_neg same]
      exact ih tail found

/-- A change that does not concern a symbol leaves its levels. -/
theorem take_of_apart {update : Update} (apart : update.concerns symbol = false) :
    take symbol stack update = some stack := by
  cases update with
  | add name term => exact if_neg (of_decide_eq_false apart)
  | increaseDepth name => exact if_neg (of_decide_eq_false apart)
  | decreaseDepth name => exact if_neg (of_decide_eq_false apart)
  | erase name => exact if_neg (of_decide_eq_false apart)
  | merge other =>
    have absent := Option.isNone_iff_eq_none.mp (Option.isSome_eq_false_iff.mp apart)
    exact takeEntries_of_absent absent

/-- Only the changes that concern a symbol count for it. -/
theorem takeAll_filter (updates : List Update) : ∀ (stack : List Level),
    takeAll symbol stack (updates.filter (·.concerns symbol)) = takeAll symbol stack updates := by
  induction updates with
  | nil => exact fun _ => rfl
  | cons update rest ih =>
    intro stack
    cases part : update.concerns symbol with
    | false =>
      rw [List.filter_cons_of_neg (by rw [part]; exact Bool.false_ne_true),
        takeAll_cons (take_of_apart part)]
      exact ih stack
    | true =>
      rw [List.filter_cons_of_pos part]
      cases first : take symbol stack update with
      | none =>
        unfold takeAll
        rw [List.foldlM_cons, List.foldlM_cons, first]
        rfl
      | some middle =>
        rw [takeAll_cons first, takeAll_cons first]
        exact ih middle

end Views

/-! ### Levels that are open -/

/-- A term is taken without a loss of levels. -/
theorem length_pushed {term : Term} {stack taken : List Level}
    (done : pushed term stack = some taken) : stack.length ≤ taken.length := by
  cases stack with
  | nil => exact Nat.zero_le _
  | cons level outer =>
    cases level with
    | scalar previous => cases done
    | collected terms =>
      cases done
      exact Nat.le_refl _

theorem length_takeEntries {symbol : Symbol} {entries : List (Symbol × List Level)}
    {taken : List Level} : ∀ {stack : List Level},
      entries.foldlM (takeEntry symbol) stack = some taken → stack.length ≤ taken.length := by
  induction entries with
  | nil =>
    intro stack done
    exact Nat.le_of_eq (congrArg List.length (Option.some.inj done))
  | cons entry rest ih =>
    intro stack done
    rw [List.foldlM_cons] at done
    obtain ⟨middle, first, others⟩ := Option.bind_eq_some_iff.mp done
    refine Nat.le_trans ?_ (ih others)
    unfold takeEntry at first
    split at first
    · unfold joined at first
      split at first
      · exact length_pushed first
      · cases first
    · exact Nat.le_of_eq (congrArg List.length (Option.some.inj first))

theorem length_lowered {stack taken : List Level} (done : lowered stack = some taken) :
    stack.length ≤ taken.length + 1 := by
  cases stack with
  | nil => cases done
  | cons level outer =>
    cases outer with
    | nil => exact Nat.succ_le_succ (Nat.zero_le _)
    | cons below outer =>
      cases below with
      | scalar previous => cases done
      | collected terms =>
        cases done
        exact Nat.le_refl _

theorem length_opened {stack taken : List Level} (done : opened stack = some taken) :
    taken.length = stack.length + 1 := by
  cases stack with
  | nil =>
    cases done
    rfl
  | cons level outer =>
    cases level with
    | scalar previous => cases done
    | collected terms =>
      cases done
      rfl

/-- A change adds a level where it opens one and takes away no more than it closes, unless it
unbinds the symbol. The last level stays when it is closed. -/
theorem length_take {symbol : Symbol} {update : Update} {stack taken : List Level}
    (kept : update ≠ .erase symbol) (done : take symbol stack update = some taken) :
    [update].count (.increaseDepth symbol) + stack.length ≤
      [update].count (.decreaseDepth symbol) + taken.length := by
  rw [List.count_singleton, List.count_singleton]
  cases update with
  | add name term =>
    rw [take_add] at done
    have grown : stack.length ≤ taken.length := by
      split at done
      · exact length_pushed done
      · rw [Option.some.inj done]
    simpa using grown
  | increaseDepth name =>
    rw [take_increaseDepth] at done
    split at done
    · rename_i same
      have grown := length_opened done
      simp only [same, beq_self_eq_true, if_true, beq_iff_eq, reduceCtorEq, if_false]
      omega
    · rename_i apart
      simp [apart, Option.some.inj done]
  | decreaseDepth name =>
    rw [take_decreaseDepth] at done
    split at done
    · rename_i same
      have shrunk := length_lowered done
      simp only [same, beq_self_eq_true, if_true, beq_iff_eq, reduceCtorEq, if_false]
      omega
    · rename_i apart
      simp [apart, Option.some.inj done]
  | erase name =>
    have apart : name ≠ symbol := by
      rintro rfl
      exact kept rfl
    rw [take_erase, if_neg apart] at done
    simp [Option.some.inj done]
  | merge other => simpa using length_takeEntries done

/-- As long as a symbol is not unbound, it has a level for each one that was opened and not yet
closed. -/
theorem count_le_length {symbol : Symbol} {updates : List Update} {taken : List Level} :
    ∀ {stack : List Level}, .erase symbol ∉ updates →
      takeAll symbol stack updates = some taken →
        updates.count (.increaseDepth symbol) + stack.length ≤
          updates.count (.decreaseDepth symbol) + taken.length := by
  induction updates with
  | nil =>
    intro stack _ done
    rw [Option.some.inj done]
    exact Nat.le_refl _
  | cons update rest ih =>
    intro stack kept done
    unfold takeAll at done
    rw [List.foldlM_cons] at done
    obtain ⟨middle, first, others⟩ := Option.bind_eq_some_iff.mp done
    have here := length_take (fun same => kept (same ▸ List.mem_cons_self)) first
    have later := ih (fun listed => kept (List.mem_cons_of_mem _ listed)) others
    change ([update] ++ rest).count _ + _ ≤ ([update] ++ rest).count _ + _
    rw [List.count_append, List.count_append]
    omega

/-- A symbol with more than one level has no value. -/
theorem lookup_of_open {bindings : Bindings} {symbol : Symbol}
    (more : 1 < (bindings.levels symbol).length) : bindings.lookup symbol = none := by
  unfold lookup
  cases found : bindings.bound.find? symbol with
  | none => rfl
  | some stack =>
    rw [levels_of_find? found] at more
    cases stack with
    | nil => rfl
    | cons level outer =>
      cases outer with
      | nil => exact absurd more (Nat.lt_irrefl 1)
      | cons below outer => rfl

/-- A symbol with one level has its value. -/
theorem lookup_of_single {bindings : Bindings} {symbol : Symbol} {level : Level}
    (single : bindings.levels symbol = [level]) : bindings.lookup symbol = some level.toTerm := by
  unfold levels at single
  unfold lookup
  cases found : bindings.bound.find? symbol with
  | none =>
    rw [found] at single
    cases single
  | some stack =>
    rw [found, Option.getD_some] at single
    rw [single]

end Bindings

end Reduct
