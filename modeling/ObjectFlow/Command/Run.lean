/-
  File:      ObjectFlow/Command/Run.lean
  Subject:   RUNNING A COMMAND on a source text.
-/
import ObjectFlow.Command.Options
import ObjectFlow.Dataflow.DeadCode
import ObjectFlow.Dataflow.ProgramConstants
import ObjectFlow.PointsTo.Settings
import ObjectFlow.Program.Reader
import ObjectFlow.Taint.Analysis

namespace ObjectFlow

/-- The text of a file by its name, or why it cannot be read. -/
abbrev Files := String → Except String String

/-! ## 1. Errors -/

/-- Why a run stopped that had read its program. -/
inductive RunError where
  | unknownEntry (signature : String)
  | noMain
  | options (file reason : String)
  | noRulesFile
  | rules (e : TaintError)
  /-- The allowance of steps was used up. -/
  | givenUp

def RunError.report (d : Diagnostics) : RunError → Diagnostics
  | .unknownEntry signature => d.errLine ("Entry method '" ++ signature ++ "' not found.")
  | .noMain => d.errLine "No main method found, use --entry to pick one."
  | .options file reason =>
    d.errLine ("Cannot load pointer analysis options from '" ++ file ++ "': " ++ reason)
  | .noRulesFile => d.errLine "The taint analysis needs a rule file, see --taint-config."
  | .rules e => d.errLine e.message
  | .givenUp => d.errLine "The analysis was given up."

/-! ## 2. What a run needs -/

/-- A finished answer. -/
def finished {α : Type} : Option α → Except RunError α
  | some a => .ok a
  | none => .error .givenUp

namespace Command

/-- The method to start from. -/
def entryMethod (c : Command) (p : Program) : Except RunError MethodId :=
  match c.entry with
  | some signature =>
    match p.methodBySignature? signature with
    | some m => .ok m
    | none => .error (.unknownEntry signature)
  | none =>
    match p.main? with
    | some m => .ok m
    | none => .error .noMain

/-- The settings of the pointer analysis: those of the settings file, if one is named. -/
def pointsToOptions (c : Command) (files : Files) : Except RunError PointsToOptions :=
  match c.optionsFile with
  | none => .ok c.options
  | some file =>
    match files file with
    | .error reason => .error (.options file reason)
    | .ok text =>
      match PointsToOptions.ofSource? text with
      | some options => .ok options
      | none => .error (.options file "not a list of settings")

/-- The taint rules in the rule file. -/
def taintRules (c : Command) (files : Files) (p : Program) : Except RunError TaintRules :=
  match c.rulesFile with
  | none => .error .noRulesFile
  | some file =>
    match files file with
    | .error reason => .error (.rules (.unreadable file reason))
    | .ok text => (TaintRules.ofSource p text).mapError .rules

/-! ## 3. Analyses -/

/-- What an analysis has to say. -/
structure Findings where
  warnings : List String := []
  text : String

/-- The answers for all methods with a body, one after the other. -/
def eachMethod (p : Program) (answer : MethodId → Option String) : Except RunError Findings :=
  (finished (p.methodsWithBody.mapM answer)).map fun texts => { text := String.join texts }

/-- The flows found, one a line. -/
def flowLines (p : Program) (flows : List TaintFlow) : String :=
  if flows.isEmpty then "No taint flows found.\n"
  else String.join (flows.map fun f => f.render p ++ "\n")

/-- Runs an analysis. -/
def analyze (c : Command) (files : Files) (p : Program) : AnalysisName → Except RunError Findings
  | .constants => eachMethod p fun m =>
    (Constants.analyze p m c.visits).map fun facts => facts.render p (ConstFact.render p)
  | .liveness => eachMethod p fun m =>
    (Liveness.analyze p m c.visits).map fun facts => facts.render p (Liveness.render p m)
  | .deadCode => eachMethod p fun m =>
    (DeadCode.find p m c.visits).map fun dead =>
      p.methodText m fun i => if i ∈ dead then some "dead" else none
  | .programConstants => do
    let entry ← c.entryMethod p
    let options ← c.pointsToOptions files
    let points ← finished (Plain.analyze p options entry)
    let result ← finished (ProgramConstants.analyze p entry points c.visits)
    return { text := result.render p }
  | .classHierarchy => do
    let entry ← c.entryMethod p
    return { text := (ClassHierarchy.callGraph p entry).render p }
  | .pointsTo => do
    let entry ← c.entryMethod p
    let options ← c.pointsToOptions files
    if options.selector = .insensitive then
      let result ← finished (Plain.analyze p options entry)
      return { text := result.render p ++ PlainCallGraph.render p result.calls }
    else
      let result ← finished (ContextSensitive.analyze p options entry)
      return { text := result.render p ++ PlainCallGraph.render p result.forget.calls }
  | .taint => do
    let entry ← c.entryMethod p
    let options ← c.pointsToOptions files
    let rules ← c.taintRules files p
    let (_, flows) ← finished (analyzeTaint p options rules entry)
    return { warnings := rules.warnings, text := flowLines p flows }

/-! ## 4. Runs -/

/-- The control flow graphs of all methods with a body. -/
def graphTexts (p : Program) : String :=
  String.join (p.methodsWithBody.map fun m => (p.flowOf m).toDot p ++ "\n")

/-- All methods with a body as they are. -/
def methodTexts (p : Program) : String :=
  String.join (p.methodsWithBody.map fun m => p.methodText m fun _ => none)

/-- Runs a command on a program and says whether it went well. A command that asks for nothing
    lists the program. -/
def answer (c : Command) (files : Files) (p : Program) (d : Diagnostics) : Bool × Diagnostics :=
  let d := if c.dumpGraphs then d.out (graphTexts p) else d
  match c.analysis with
  | none => (true, if c.dumpGraphs then d else d.out (methodTexts p))
  | some name =>
    match c.analyze files p name with
    | .error e => (false, e.report d)
    | .ok findings => (true, (findings.warnings.foldl Diagnostics.warning d).out findings.text)

/-- Runs a command on a source text and says whether it went well. -/
def run (c : Command) (files : Files) (source : String) (d : Diagnostics) : Bool × Diagnostics :=
  match d.lexing source with
  | ([], d) => (false, d)
  | (tokens, d) =>
    match d.parsing tokens with
    | (none, d) => (false, d)
    | (some p, d) => c.answer files p d

end Command

end ObjectFlow
