/-
  File:      ObjectFlow/Taint/Rules.lean
  Subject:   TAINT RULES: which methods make tainted data, pass it on and must not receive it.

  Rules name methods and types by text. A rule that names something the program does not have is
  skipped with a warning.
-/
import ObjectFlow.Document.Reader
import ObjectFlow.Program.Printer

namespace ObjectFlow

/-! ## 1. Rules as written -/

/-- A slot as written: a number, or a word. -/
inductive SlotText where
  | index (i : Nat)
  | name (text : String)
  deriving DecidableEq

structure SourceText where
  method : String
  type : String

structure SinkText where
  method : String
  index : Nat

structure TransferText where
  method : String
  source : SlotText
  target : SlotText
  type : String

/-- A rule file as written. -/
structure RulesText where
  sources : List SourceText := []
  sinks : List SinkText := []
  transfers : List TransferText := []

namespace RulesText

open Document

/-- A slot is an index if it is a plain natural number; another word must not read as a truth
    value, as nothing or as any other number. -/
def slot? (d : Document) : Option SlotText :=
  match d.natural? with
  | some i => some (.index i)
  | none => d.word?.map SlotText.name

def source? (d : Document) : Option SourceText := do
  let fields ← d.fields? ["method", "type"]
  return ⟨← (← fields.lookup "method").text?, ← (← fields.lookup "type").text?⟩

def sink? (d : Document) : Option SinkText := do
  let fields ← d.fields? ["method", "index"]
  return ⟨← (← fields.lookup "method").text?, ← (← fields.lookup "index").index?⟩

def transfer? (d : Document) : Option TransferText := do
  let fields ← d.fields? ["method", "from", "to", "type"]
  return ⟨← (← fields.lookup "method").text?, ← slot? (← fields.lookup "from"),
    ← slot? (← fields.lookup "to"), ← (← fields.lookup "type").text?⟩

/-- The rules a document lists; a list that is left out is empty. -/
def ofDocument? (d : Document) : Option RulesText := do
  let fields ← d.fields? ["sources", "sinks", "transfers"]
  let list (name : String) : Option (List Document) :=
    match fields.lookup name with
    | none => some []
    | some d => d.items?
  return {
    sources := ← (← list "sources").mapM source?
    sinks := ← (← list "sinks").mapM sink?
    transfers := ← (← list "transfers").mapM transfer? }

end RulesText

/-! ## 2. Rules of a program -/

/-- A place at a call that can hold data. -/
inductive Slot where
  | base
  | result
  | arg (i : Nat)
  deriving DecidableEq

/-- Data passes from one slot to another and has a new type there. -/
structure Transfer where
  source : Slot
  target : Slot
  ty : Ty
  deriving DecidableEq

/-- The rules of each method, in the order they were written, and what was skipped. -/
structure TaintRules where
  sources : List (MethodId × Ty) := []
  sinks : List (MethodId × Nat) := []
  transfers : List (MethodId × Transfer) := []
  warnings : List String := []
  deriving Inhabited

/-- Why rules cannot be used. -/
inductive TaintError where
  | unreadable (path reason : String)
  | malformed
  | slot (text : String)
  | argIndex (method : String) (index : Nat)
  deriving DecidableEq

def TaintError.message : TaintError → String
  | .unreadable path reason => "cannot read taint config '" ++ path ++ "': " ++ reason
  | .malformed => "malformed taint config: not a list of rules"
  | .slot text => "invalid slot '" ++ text ++ "', expected 'base', 'result', or an argument index"
  | .argIndex method index =>
    "argument index " ++ toString index ++ " is out of range for " ++ method

namespace TaintRules

/-- The rules one method has of a list. -/
def rulesOf {α : Type} (rules : List (MethodId × α)) (m : MethodId) : List α :=
  (rules.filter (·.1 = m)).map (·.2)

/-- The types of the tainted data a method makes. -/
def sourcesOf (r : TaintRules) (m : MethodId) : List Ty := rulesOf r.sources m

/-- The arguments of a method that tainted data must not reach. -/
def sinksOf (r : TaintRules) (m : MethodId) : List Nat := rulesOf r.sinks m

def transfersOf (r : TaintRules) (m : MethodId) : List Transfer := rulesOf r.transfers m

def warn (r : TaintRules) (message : String) : TaintRules :=
  { r with warnings := r.warnings ++ [message] }

/-- Finds a method, or warns. -/
def findMethod (r : TaintRules) (p : Program) (signature : String) : Option MethodId × TaintRules :=
  match p.methodBySignature? signature with
  | some m => (some m, r)
  | none => (none, r.warn ("Unknown method '" ++ signature ++ "' in taint config, rule skipped."))

/-- Finds a method and a type, or warns of the first that is missing. -/
def findRule (r : TaintRules) (p : Program) (signature type : String) :
    Option (MethodId × Ty) × TaintRules :=
  match r.findMethod p signature with
  | (none, r) => (none, r)
  | (some m, r) =>
    match p.tyByName? type with
    | some ty => (some (m, ty), r)
    | none => (none, r.warn ("Unknown type '" ++ type ++ "' in taint config, rule skipped."))

/-- Refuses an argument a method does not have. -/
def checkSlot (p : Program) (m : MethodId) : Slot → Except TaintError Unit
  | .arg i =>
    if i < (p.methodAt m).paramTypes.length then .ok () else .error (.argIndex (p.signature m) i)
  | _ => .ok ()

def readSlot : SlotText → Except TaintError Slot
  | .index i => .ok (.arg i)
  | .name "base" => .ok .base
  | .name "result" => .ok .result
  | .name text => .error (.slot text)

def addSource (p : Program) (r : TaintRules) (s : SourceText) : TaintRules :=
  match r.findRule p s.method s.type with
  | (some (m, ty), r) => { r with sources := r.sources ++ [(m, ty)] }
  | (none, r) => r

def addSink (p : Program) (r : TaintRules) (s : SinkText) : Except TaintError TaintRules :=
  match r.findMethod p s.method with
  | (some m, r) => do
    checkSlot p m (.arg s.index)
    return { r with sinks := r.sinks ++ [(m, s.index)] }
  | (none, r) => .ok r

/-- Slots are read before the method is looked for, and checked against it afterwards. -/
def addTransfer (p : Program) (r : TaintRules) (t : TransferText) :
    Except TaintError TaintRules := do
  let source ← readSlot t.source
  let target ← readSlot t.target
  match r.findRule p t.method t.type with
  | (some (m, ty), r) =>
    checkSlot p m source
    checkSlot p m target
    return { r with transfers := r.transfers ++ [(m, ⟨source, target, ty⟩)] }
  | (none, r) => return r

/-- The rules a text lists, for a program. -/
def ofText (p : Program) (text : RulesText) : Except TaintError TaintRules := do
  let r := text.sources.foldl (addSource p) {}
  let r ← text.sinks.foldlM (addSink p) r
  text.transfers.foldlM (addTransfer p) r

/-- The rules in a rule file, for a program. -/
def ofSource (p : Program) (source : String) : Except TaintError TaintRules :=
  match (Document.parse? source).bind RulesText.ofDocument? with
  | none => .error .malformed
  | some text => ofText p text

end TaintRules

end ObjectFlow
