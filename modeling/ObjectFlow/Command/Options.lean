/-
  File:      ObjectFlow/Command/Options.lean
  Subject:   THE COMMAND LINE: which analysis to run on which file, and how.

  Arguments are read from left to right. An option keeps its value unchecked until the next
  argument that is understood, so an argument that is not understood at all is refused before the
  value in front of it.
-/
import ObjectFlow.Graph.Worklist
import ObjectFlow.PointsTo.Analysis

namespace ObjectFlow

/-! ## 1. Commands -/

/-- What can be run on a program. -/
inductive AnalysisName where
  | constants
  | liveness
  | deadCode
  | programConstants
  | classHierarchy
  | pointsTo
  | taint
  deriving DecidableEq

/-- The analyses by the names they have on the command line. -/
def AnalysisName.byName : List (String × AnalysisName) :=
  [("constprop", .constants), ("livevar", .liveness), ("deadcode", .deadCode),
    ("inter-constprop", .programConstants), ("cha", .classHierarchy), ("pta", .pointsTo),
    ("taint", .taint)]

/-- The orders of visits by the names they have on the command line. -/
def VisitOrder.byName : List (String × VisitOrder) :=
  [("fifo", .fifo), ("lifo", .lifo), ("rpo", .reversePostOrder)]

/-- What a command line asks for. -/
structure Command where
  dumpGraphs : Bool := false
  analysis : Option AnalysisName := none
  /-- The signature of the method to start from. -/
  entry : Option String := none
  visits : VisitOrder := .fifo
  options : PointsToOptions := {}
  /-- A settings file, which wins over `options`. -/
  optionsFile : Option String := none
  rulesFile : Option String := none
  /-- The program file. -/
  file : String := ""

/-! ## 2. Options -/

/-- The options that take a value. -/
inductive ValueOption where
  | analyze
  | entry
  | worklist
  | selector
  | heap
  | order
  | optionsFile
  | rulesFile
  deriving DecidableEq

namespace ValueOption

def byName : List (String × ValueOption) :=
  [("analyze", .analyze), ("entry", .entry), ("worklist", .worklist), ("cs", .selector),
    ("heap", .heap), ("order", .order), ("pta-config", .optionsFile),
    ("taint-config", .rulesFile)]

end ValueOption

/-- The flags, which take none. -/
inductive Flag where
  | dumpGraphs
  | help
  | version
  deriving DecidableEq

def Flag.byName : List (String × Flag) :=
  [("dump-cfg", .dumpGraphs), ("help", .help), ("version", .version)]

def Flag.byLetter : List (Char × Flag) := [('h', .help), ('V', .version)]

/-- Why a command line asks for no analysis. -/
inductive CommandError where
  | unknownArgument
  /-- Not one of the values an option has, or no value at all. -/
  | invalidValue
  /-- A value that cannot be read. -/
  | unreadableValue
  | givenTwice
  /-- A value for a flag. -/
  | unneededValue
  | missingFile
  | help
  | version
  deriving DecidableEq

namespace ValueOption

/-- Puts the value of an option into a command. -/
def put (o : ValueOption) (c : Command) (value : String) : Except CommandError Command :=
  match o with
  | analyze =>
    (listed (AnalysisName.byName.lookup value)).map fun a => { c with analysis := some a }
  | entry => .ok { c with entry := some value }
  | worklist => (listed (VisitOrder.byName.lookup value)).map fun v => { c with visits := v }
  | selector =>
    match Selector.ofName value with
    | .ok s => .ok { c with options := { c.options with selector := s } }
    | .error _ => .error .unreadableValue
  | heap =>
    (listed (HeapPolicy.ofName? value)).map fun h =>
      { c with options := { c.options with heap := h } }
  | order =>
    (listed (QueueOrder.ofName? value)).map fun o =>
      { c with options := { c.options with order := o } }
  | optionsFile => .ok { c with optionsFile := some value }
  | rulesFile => .ok { c with rulesFile := some value }
where
  /-- A value that must be one of a list. -/
  listed {α : Type} : Option α → Except CommandError α
    | some a => .ok a
    | none => .error .invalidValue

end ValueOption

/-! ## 3. Arguments -/

/-- What one argument is. -/
inductive Argument where
  | flag (f : Flag)
  /-- An option, with its value if that stands in the same argument. -/
  | option (o : ValueOption) (value : Option String)
  /-- A flag with a value. -/
  | valuedFlag
  | word (text : String)
  /-- All arguments behind it are words. -/
  | separator
  | unknown
  deriving DecidableEq

namespace Argument

/-- The meaning of what stands behind two dashes. -/
def ofLong (text : List Char) : Argument :=
  let (name, value) := match Text.cutAt '=' text with
    | some (name, value) => (String.ofList name, some (String.ofList value))
    | none => (String.ofList text, none)
  match Flag.byName.lookup name, ValueOption.byName.lookup name with
  | some f, _ => if value.isSome then .valuedFlag else .flag f
  | none, some o => .option o value
  | none, none => .unknown

/-- The meaning of an argument on its own. A single dash is a word. -/
def ofText (text : String) : Argument :=
  match text.toList with
  | ['-', '-'] => .separator
  | '-' :: '-' :: name => ofLong name
  | '-' :: letter :: _ =>
    match Flag.byLetter.lookup letter with
    | some f => .flag f
    | none => .unknown
  | _ => .word text

end Argument

/-! ## 4. Reading -/

/-- What was read so far. -/
structure CommandReader where
  command : Command := {}
  file : Option String := none
  /-- The options that were put into the command. -/
  given : List ValueOption := []
  /-- The last option, with the value that is not checked yet. -/
  pending : Option (ValueOption × Option String) := none
  /-- Whether all that follows is words. -/
  onlyWords : Bool := false

namespace CommandReader

/-- Puts an option with its value into the command, once. -/
def give (r : CommandReader) (o : ValueOption) (value : Option String) :
    Except CommandError CommandReader :=
  match value with
  | none => .error .invalidValue
  | some value =>
    if o ∈ r.given then .error .givenTwice
    else (o.put r.command value).map fun c => { r with command := c, given := o :: r.given }

/-- Checks the last option. -/
def settle (r : CommandReader) : Except CommandError CommandReader :=
  match r.pending with
  | none => .ok r
  | some (o, value) => { r with pending := none }.give o value

/-- Takes a flag up. -/
def raise (r : CommandReader) : Flag → Except CommandError CommandReader
  | .help => .error .help
  | .version => .error .version
  | .dumpGraphs =>
    if r.command.dumpGraphs then .error .givenTwice
    else .ok { r with command := { r.command with dumpGraphs := true } }

/-- Takes a word as the program file. -/
def takeFile (r : CommandReader) (text : String) : Except CommandError CommandReader :=
  match r.file with
  | some _ => .error .unknownArgument
  | none => r.settle.map fun r => { r with file := some text }

/-- Takes the next argument. A word is the value of the option in front of it, if that has none
    yet. -/
def next (r : CommandReader) (text : String) : Except CommandError CommandReader :=
  if r.onlyWords then r.takeFile text
  else
    match Argument.ofText text, r.pending with
    | .unknown, _ => .error .unknownArgument
    | .valuedFlag, _ => .error .unneededValue
    | .separator, _ => .ok { r with onlyWords := true }
    | .word text, some (o, none) => .ok { r with pending := some (o, some text) }
    | .word text, _ => r.takeFile text
    | .flag f, _ => r.settle.bind (·.raise f)
    | .option o (some value), _ => r.settle.bind (·.give o (some value))
    | .option o none, _ => r.settle.map fun r => { r with pending := some (o, none) }

/-- Checks the last option and that a file was named. -/
def finish (r : CommandReader) : Except CommandError Command :=
  r.settle.bind fun r =>
    match r.file with
    | some file => .ok { r.command with file := file }
    | none => .error .missingFile

end CommandReader

/-- What a command line asks for. -/
def Command.ofArguments (arguments : List String) : Except CommandError Command :=
  (arguments.foldlM CommandReader.next {}).bind (·.finish)

end ObjectFlow
