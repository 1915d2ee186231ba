import Reduct.Compile.Program
import Reduct.Machine

/-!
# Runs of specifications

The entries of a specification are run in order on one machine. An entry passes if its function
returns, and a failure ends that entry only. Bindings that are used out of turn end the whole
run. Beside the entries, the relations of a specification can be applied to terms, round by
round.
-/

namespace Reduct

/-- The result of one entry. -/
structure EntryResult where
  entry : Entry
  /-- The failure of the entry, unless it passed. -/
  failure : Option EvalError

namespace EntryResult

/-- Whether the entry passed. -/
def isPassed (result : EntryResult) : Bool := result.failure.isNone

/-- The words for the failure of the entry, unless it passed. -/
def message? (result : EntryResult) : Option String := result.failure.map EvalError.message

end EntryResult

/-- The results of the selected entries, in order. -/
structure Report where
  results : List EntryResult
  /-- The number of entries that were not selected. -/
  filtered : Nat

namespace Report

/-- No entries. -/
def empty : Report := ⟨[], 0⟩

/-- Put the result of an entry before those of later ones. -/
def add (report : Report) (result : EntryResult) : Report :=
  { report with results := result :: report.results }

/-- Count an entry that was not selected. -/
def skip (report : Report) : Report := { report with filtered := report.filtered + 1 }

/-- The number of entries that passed. -/
def passed (report : Report) : Nat := (report.results.filter (·.isPassed)).length

/-- The number of entries that failed. -/
def failed (report : Report) : Nat := (report.results.filter (!·.isPassed)).length

/-- The number of entries that were run. -/
def total (report : Report) : Nat := report.passed + report.failed

/-- Whether an entry failed. -/
def hasFailures (report : Report) : Bool := decide (0 < report.failed)

/-- The descriptions of the failed entries with their messages. -/
def failures (report : Report) : List (String × String) :=
  report.results.filterMap fun result =>
    result.message?.map fun message => (result.entry.description, message)

end Report

/-- Whether an entry is selected: its description has the text of the filter in it. -/
def Entry.isSelected (filter : Option String) (entry : Entry) : Bool :=
  match filter with
  | some text => Text.contains entry.description text
  | none => true

namespace Machine

/-- Run the selected entries in order. -/
def runEntries (fuel : Nat) (filter : Option String) (machine : Machine) :
    List Entry → Except Failure Report × Machine
  | [] => (.ok .empty, machine)
  | entry :: rest =>
    if entry.isSelected filter then
      match machine.call fuel entry.function [] with
      | (.ok _, next) =>
        let (report, last) := runEntries fuel filter next rest
        (report.map (·.add ⟨entry, none⟩), last)
      | (.error (.error cause), next) =>
        let (report, last) := runEntries fuel filter next rest
        (report.map (·.add ⟨entry, some cause⟩), last)
      | (.error failure, next) => (.error failure, next)
    else
      let (report, last) := runEntries fuel filter machine rest
      (report.map (·.skip), last)

/-- Apply the function of a relation to a term: the terms that it reduces to, in order. -/
def reduce (fuel : Nat) (function : Symbol) (machine : Machine) (term : Term) :
    Except Failure (List Term) × Machine :=
  match machine.call fuel function [.term term] with
  | (.error failure, next) => (.error failure, next)
  | (.ok value, next) =>
    match value.toTerms next.store with
    | .ok terms => (.ok terms, next)
    | .error cause => (.error (.error cause), next)

/-- Apply the function of a relation to every term in order. -/
def reduceAll (fuel : Nat) (function : Symbol) (machine : Machine) :
    List Term → Except Failure (List Term) × Machine
  | [] => (.ok [], machine)
  | term :: rest =>
    match reduce fuel function machine term with
    | (.error failure, next) => (.error failure, next)
    | (.ok terms, next) =>
      let (others, last) := reduceAll fuel function next rest
      (others.map (terms ++ ·), last)

/-- Apply the function of a relation to terms round by round, each time to the results of the
last round. The rounds end after the first that gives nothing. -/
def trace (fuel : Nat) (function : Symbol) (machine : Machine) :
    Nat → List Term → Except Failure (List (List Term)) × Machine
  | 0, _ => (.ok [], machine)
  | rounds + 1, frontier =>
    match reduceAll fuel function machine frontier with
    | (.error failure, next) => (.error failure, next)
    | (.ok [], next) => (.ok [[]], next)
    | (.ok terms, next) =>
      let (others, last) := trace fuel function next rounds terms
      (others.map (terms :: ·), last)

end Machine

/-- Load a compiled specification and run its selected entries. -/
def Program.run (program : Program) (fuel : Nat) (filter : Option String) (host : Host)
    (limit : Option Nat) (silent : Bool) : Except Failure Report × Machine :=
  match Machine.load program.code fuel host limit silent with
  | (.error failure, machine) => (.error failure, machine)
  | (.ok (), machine) => machine.runEntries fuel filter program.entries

end Reduct
