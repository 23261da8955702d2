/-
  File:      ObjectFlow/Diagnostics.lean
  Subject:   WHAT A RUN SAYS: its output, its error text and the counts of errors and warnings.

  A diagnostics value either keeps its texts where they can be looked at (`buffer`) or passes
  them on to two streams, which hold them when the run is over.
-/
namespace ObjectFlow

/-- Where the texts of a run go. -/
inductive Destination where
  | buffer
  | stream
  deriving DecidableEq, Repr

/-- The texts written so far and the counts of what was reported. -/
structure Diagnostics where
  destination : Destination := .buffer
  output : String := ""
  errors : String := ""
  errorCount : Nat := 0
  warningCount : Nat := 0
  deriving Inhabited, DecidableEq

namespace Diagnostics

/-! ## 1. Writing -/

def out (d : Diagnostics) (text : String) : Diagnostics := { d with output := d.output ++ text }

def outLine (d : Diagnostics) (text : String) : Diagnostics := (d.out text).out "\n"

def err (d : Diagnostics) (text : String) : Diagnostics := { d with errors := d.errors ++ text }

def errLine (d : Diagnostics) (text : String) : Diagnostics := (d.err text).err "\n"

/-! ## 2. Reporting -/

/-- Reports an error on a line, at an item such as `at end`; an empty item is left out. -/
def report (d : Diagnostics) (line : Nat) (item message : String) : Diagnostics :=
  let place := if item.isEmpty then "" else " " ++ item
  { d with errorCount := d.errorCount + 1 }.errLine s!"[line {line}] Error{place}: {message}"

/-- Reports an error that is not tied to an item. -/
def error (d : Diagnostics) (line : Nat) (message : String) : Diagnostics :=
  d.report line "" message

/-- Warnings are not errors: they have a count of their own. -/
def warning (d : Diagnostics) (message : String) : Diagnostics :=
  { d with warningCount := d.warningCount + 1 }.errLine s!"Warning: {message}"

def hasErrors (d : Diagnostics) : Bool := d.errorCount > 0

/-- What was said elsewhere is passed on. -/
def pass (d said : Diagnostics) : Diagnostics :=
  { d with
    output := d.output ++ said.output
    errors := d.errors ++ said.errors
    errorCount := d.errorCount + said.errorCount
    warningCount := d.warningCount + said.warningCount }

/-- What is reported stands behind what was reported before. -/
theorem report_eq_pass (d : Diagnostics) (line : Nat) (item message : String) :
    d.report line item message = d.pass (({} : Diagnostics).report line item message) := by
  unfold report errLine err pass
  simp [String.append_assoc]

/-! ## 3. Looking at the texts -/

/-- The output so far, when it is kept. -/
def outBuffer? (d : Diagnostics) : Option String :=
  if d.destination = .buffer then some d.output else none

/-- The error text so far, when it is kept. -/
def errBuffer? (d : Diagnostics) : Option String :=
  if d.destination = .buffer then some d.errors else none

/-- What the two streams hold once the run is over; a run that keeps its texts passes nothing
    on. -/
def delivered (d : Diagnostics) : String × String :=
  if d.destination = .stream then (d.output, d.errors) else ("", "")

end Diagnostics

end ObjectFlow
