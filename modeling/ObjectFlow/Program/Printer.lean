/-
  File:      ObjectFlow/Program/Printer.lean
  Subject:   PROGRAMS AS TEXT: statements as they are written, and bodies with annotations.
-/
import ObjectFlow.Program.Names

namespace ObjectFlow

namespace Program

/-! ## 1. Statements -/

/-- A field access: through a variable, or through the declaring class. -/
def accessText (p : Program) (base : Option VarId) (f : FieldId) : String :=
  let field := p.fieldAt f
  let owner := match base with
    | some b => p.varName b
    | none => (p.classAt field.owner).name
  owner ++ "." ++ field.name

def expText (p : Program) : Exp → String
  | .var v => p.varName v
  | .int value => toString value.toInt
  | .binary op left right => p.varName left ++ " " ++ op.symbol ++ " " ++ p.varName right
  | .cast ty v => "(" ++ p.tyName ty ++ ") " ++ p.varName v

/-- A call without the variable its result goes to. -/
def invokeText (p : Program) (i : Invoke) : String :=
  let base := match i.base with
    | some b => p.varName b ++ "."
    | none => ""
  i.kind.word ++ " " ++ base ++ p.refSignature i.target
    ++ "(" ++ ", ".intercalate (i.args.map p.varName) ++ ");"

/-- A jump target as a label. -/
def label (target : Nat) : String := "L" ++ toString target

/-- A statement as it is written in a program. -/
def stmtText (p : Program) : Stmt → String
  | .alloc lhs (.array elem) (some length) =>
    p.varName lhs ++ " = new " ++ p.tyName elem ++ "[" ++ p.varName length ++ "];"
  | .alloc lhs ty _ => p.varName lhs ++ " = new " ++ p.tyName ty ++ ";"
  | .assign lhs rhs => p.varName lhs ++ " = " ++ p.expText rhs ++ ";"
  | .loadField lhs base field => p.varName lhs ++ " = " ++ p.accessText base field ++ ";"
  | .storeField base field rhs => p.accessText base field ++ " = " ++ p.varName rhs ++ ";"
  | .loadArray lhs base index =>
    p.varName lhs ++ " = " ++ p.varName base ++ "[" ++ p.varName index ++ "];"
  | .storeArray base index rhs =>
    p.varName base ++ "[" ++ p.varName index ++ "] = " ++ p.varName rhs ++ ";"
  | .call invoke =>
    (match invoke.result with
      | some r => p.varName r ++ " = "
      | none => "") ++ p.invokeText invoke
  | .branch left op right target =>
    "if " ++ p.varName left ++ " " ++ op.symbol ++ " " ++ p.varName right
      ++ " goto " ++ label target ++ ";"
  | .jump target => "goto " ++ label target ++ ";"
  | .switch on cases otherwise =>
    "switch (" ++ p.varName on ++ ") \x7b "
      ++ String.join (cases.map fun (value, target) =>
          "case " ++ toString value.toInt ++ ": " ++ label target ++ "; ")
      ++ "default: " ++ label otherwise ++ "; \x7d"
  | .ret (some v) => "return " ++ p.varName v ++ ";"
  | .ret none => "return;"
  | .nop => "nop;"

/-- A statement with its place, such as `<A: void main()>[2@L7] x = y;`. -/
def siteText (p : Program) (s : Site) : String :=
  let instr := (p.methodAt s.method).body.getD s.index default
  p.signature s.method ++ "[" ++ toString s.index ++ "@L" ++ toString instr.line ++ "] "
    ++ p.stmtText instr.stmt

/-! ## 2. Bodies -/

/-- The body of a method, one statement a line. A jump target has its label on the line before;
    `note` may put a comment behind a statement. -/
def methodText (p : Program) (m : MethodId) (note : Nat → Option String) : String :=
  let stmts := (p.methodAt m).stmts
  let targets := stmts.flatMap StmtOf.targets
  let line := fun ((stmt, i) : Stmt × Nat) =>
    let mark := if i ∈ targets then label i ++ ":\n" else ""
    let comment := match note i with
      | some text => " /* " ++ text ++ " */"
      | none => ""
    mark ++ "  " ++ p.stmtText stmt ++ comment ++ "\n"
  p.signature m ++ " \x7b\n" ++ String.join (stmts.zipIdx.map line) ++ "\x7d\n"

end Program

end ObjectFlow
