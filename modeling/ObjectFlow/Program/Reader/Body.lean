/-
  File:      ObjectFlow/Program/Reader/Body.lean
  Subject:   READING METHOD BODIES: variable declarations, labels and statements.

  A body is first read with its jumps going to label tokens; when the whole body is known, labels
  are replaced by the indices of the statements they stand before.
-/
import ObjectFlow.Program.Reader.Declaration
import ObjectFlow.Program.Hierarchy

namespace ObjectFlow

namespace Reader

/-! ## 1. Variables, fields and labels -/

/-- The variable a name token stands for. -/
def lookupVar (m : MethodId) (found : LineToken) (name : String) : Reader VarId := do
  match (← program).varByName? m name with
  | some v => return v
  | none => fail found .variableUndeclared

/-- Reads a variable. -/
def readVar (m : MethodId) : Reader VarId := do
  let (found, name) ← identifier
  lookupVar m found name

/-- Reads a label, which need not be declared yet. -/
def readLabel : Reader LineToken := do
  let found ← peek
  match found.token with
  | .ident _ => advance
  | _ => fail found .labelExpected

/-- What stands before the dot of a field access: a variable of a class type, or a class. -/
def fieldBase (m : MethodId) (found : LineToken) (name : String) :
    Reader (Option VarId × ClassId) := do
  let p ← program
  match p.varByName? m name with
  | some v =>
    match (p.varTy v).class? with
    | some c => return (some v, c)
    | none => fail found .fieldOfNonClass
  | none =>
    match p.classByName? name with
    | some c => return (none, c)
    | none => fail found (.baseUndeclared name)

/-- The field of a class with the name; without a base it is a static one. -/
def accessedField (found : LineToken) (name : String) (base : Option VarId) (c : ClassId) :
    Reader (Option VarId × FieldId) := do
  let p ← program
  match p.resolveField? c name with
  | none => fail found (.fieldUnknown name (p.classAt c).name)
  | some f =>
    if (p.fieldAt f).isStatic != base.isNone then
      fail found .fieldKind
    return (base, f)

/-- Reads the field name of an access whose base has been read. -/
def readFieldAccess (m : MethodId) (found : LineToken) (name : String) :
    Reader (Option VarId × FieldId) := do
  let (fieldFound, fieldName) ← identifier
  let (base, c) ← fieldBase m found name
  accessedField fieldFound fieldName base c

/-! ## 2. Calls -/

/-- Reads a method signature; gives the method and the number of its parameters. -/
def readMethodRef : Reader (MethodRef × Nat) := do
  let found ← advance
  match found.token with
  | .signature text =>
    match Program.cutSignature? text.toList with
    | none => fail found .signatureMalformed
    | some (owner, subsig) =>
      let subsig := normalSubsig subsig
      match subsigArity? subsig with
      | none => fail found .signatureMalformed
      | some arity =>
        let c ← internClass owner
        let s ← update (·.internSubsig subsig)
        return (⟨c, s⟩, arity)
  | _ => fail found .signatureExpected

/-- Reads the arguments of a call, as many as its signature has parameters. -/
def readArguments (m : MethodId) (arity : Nat) : Reader (List VarId) := do
  discard <| expect (.mark .leftParen)
  let args ← if ← check (.mark .rightParen) then pure [] else commas (readVar m)
  let close ← expect (.mark .rightParen)
  if args.length ≠ arity then
    fail close (.argumentCount arity args.length)
  return args

/-- Reads a call from its signature on. -/
def readTarget (m : MethodId) (kind : CallKind) (base result : Option VarId) : Reader Invoke := do
  let (target, arity) ← readMethodRef
  let args ← readArguments m arity
  return ⟨kind, target, base, args, result⟩

/-- Reads a call from behind the word that gives its kind. -/
def readInvoke (m : MethodId) (kind : CallKind) (result : Option VarId) : Reader Invoke := do
  if kind.hasReceiver then
    let base ← readVar m
    discard <| expect (.mark .dot)
    readTarget m kind (some base) result
  else
    readTarget m kind none result

/-! ## 3. Assignments -/

/-- Reads what is assigned to a variable by a right side that starts with a name. -/
def readNamedSource (m : MethodId) (lhs : VarId) : Reader (StmtOf LineToken) := do
  let (found, name) ← identifier
  if ← accept (.mark .dot) then
    let (base, field) ← readFieldAccess m found name
    return .loadField lhs base field
  let operand ← lookupVar m found name
  if ← accept (.mark .leftBracket) then
    let index ← readVar m
    discard <| expect (.mark .rightBracket)
    return .loadArray lhs operand index
  match (← peek).token with
  | .operator op =>
    discard advance
    let right ← readVar m
    return .assign lhs (.binary op operand right)
  | _ => return .assign lhs (.var operand)

/-- Reads the right side of an assignment to a variable. -/
def readSource (m : MethodId) (lhs : VarId) : Reader (StmtOf LineToken) := do
  let found ← peek
  match found.token with
  | .keyword .newObject =>
    discard advance
    let ty ← readType
    if ← accept (.mark .leftBracket) then
      let length ← readVar m
      discard <| expect (.mark .rightBracket)
      return .alloc lhs (.array ty) (some length)
    return .alloc lhs ty none
  | .integer value =>
    discard advance
    return .assign lhs (.int value)
  | .mark .leftParen =>
    discard advance
    let ty ← readType
    discard <| expect (.mark .rightParen)
    let operand ← readVar m
    return .assign lhs (.cast ty operand)
  | .keyword (.invoke kind) =>
    discard advance
    return .call (← readInvoke m kind (some lhs))
  | .ident _ => readNamedSource m lhs
  | _ => fail found .expressionExpected

/-- Reads a statement that starts with a name: a store or an assignment. -/
def readAssignment (m : MethodId) : Reader (StmtOf LineToken) := do
  let (found, name) ← identifier
  if ← accept (.mark .dot) then
    let (base, field) ← readFieldAccess m found name
    discard <| expect (.mark .assign)
    return .storeField base field (← readVar m)
  let lhs ← lookupVar m found name
  if ← accept (.mark .leftBracket) then
    let index ← readVar m
    discard <| expect (.mark .rightBracket)
    discard <| expect (.mark .assign)
    return .storeArray lhs index (← readVar m)
  discard <| expect (.mark .assign)
  readSource m lhs

/-! ## 4. Statements -/

/-- Reads the arms of a switch before the default one, at most `bound` of them. -/
def readCases : (bound : Nat) → Reader (List (Int32 × LineToken))
  | 0 => return []
  | bound + 1 => do
    if ← accept (.keyword .caseArm) then
      let found ← advance
      match found.token with
      | .integer value =>
        discard <| expect (.mark .colon)
        let target ← readLabel
        discard <| expect (.mark .semicolon)
        return (value, target) :: (← readCases bound)
      | _ => fail found .integerExpected
    else
      return []

/-- Reads a switch from behind its word. Its closing brace ends the statement. -/
def readSwitch (m : MethodId) : Reader (StmtOf LineToken) := do
  discard <| expect (.mark .leftParen)
  let on ← readVar m
  discard <| expect (.mark .rightParen)
  discard <| expect (.mark .leftBrace)
  let cases ← readCases (← remaining)
  discard <| expectOr (.keyword .defaultArm) .caseExpected
  discard <| expect (.mark .colon)
  let otherwise ← readLabel
  discard <| expect (.mark .semicolon)
  discard <| expect (.mark .rightBrace)
  return .switch on cases otherwise

/-- Reads a conditional jump from behind its word. -/
def readBranch (m : MethodId) : Reader (StmtOf LineToken) := do
  let left ← readVar m
  let found ← advance
  match found.token with
  | .operator op =>
    if !op.isComparison then
      fail found .comparisonExpected
    let right ← readVar m
    discard <| expect (.keyword .gotoJump)
    return .branch left op right (← readLabel)
  | _ => fail found .comparisonExpected

/-- Reads a return statement from behind its word, the token `start`. -/
def readReturn (m : MethodId) (start : LineToken) : Reader (StmtOf LineToken) := do
  if ← check (.mark .semicolon) then
    if ((← program).methodAt m).retType ≠ .prim .void then
      fail start .returnValueExpected
    return .ret none
  return .ret (some (← readVar m))

/-- Reads a statement up to its semicolon, if it has one. -/
def readStmt (m : MethodId) : Reader (StmtOf LineToken) := do
  let found ← peek
  match found.token with
  | .keyword .switchJump =>
    discard advance
    readSwitch m
  | _ =>
    let stmt ← match found.token with
      | .ident _ => readAssignment m
      | .keyword (.invoke kind) => do
        discard advance
        pure (.call (← readInvoke m kind none))
      | .keyword .ifJump => do
        discard advance
        readBranch m
      | .keyword .gotoJump => do
        discard advance
        pure (.jump (← readLabel))
      | .keyword .returnJump => do
        discard advance
        readReturn m found
      | .keyword .nopMark => do
        discard advance
        pure .nop
      | _ => fail found .statementExpected
    discard <| expect (.mark .semicolon)
    return stmt

/-! ## 5. Bodies -/

/-- A body as far as it has been read. -/
structure Draft where
  /-- The labels met so far, each with the index of the statement after it. -/
  labels : List (LineToken × Nat) := []
  /-- The statements with the lines they start on. -/
  stmts : Array (Nat × StmtOf LineToken) := #[]

/-- The statement a label stands before. -/
def Draft.target? (d : Draft) (label : LineToken) : Option Nat :=
  (d.labels.find? fun l => l.1.token = label.token).map (·.2)

/-- Reads one name of a variable declaration. -/
def readDeclared (m : MethodId) (ty : Ty) : Reader Unit := do
  let (found, name) ← identifier
  if ((← program).varByName? m name).isSome then
    fail found (.variableDeclared name)
  discard <| update (·.addVar m name ty)

/-- Reads the declaration of variables from behind its word. -/
def readVarDecl (m : MethodId) : Reader Unit := do
  let ty ← readType
  discard <| commas (readDeclared m ty)
  discard <| expect (.mark .semicolon)

/-- Whether a label declaration is next. -/
def atLabel : Reader Bool := do
  match (← peek).token with
  | .ident _ => checkSecond (.mark .colon)
  | _ => return false

/-- Reads a declaration, a label or a statement. -/
def readItem (m : MethodId) (d : Draft) : Reader Draft := do
  if ← accept (.keyword .varDecl) then
    readVarDecl m
    return d
  if ← atLabel then
    let label ← advance
    discard advance
    if (d.target? label).isSome then
      fail label .labelDeclared
    return { d with labels := d.labels ++ [(label, d.stmts.size)] }
  let line := (← peek).line
  let stmt ← readStmt m
  return { d with stmts := d.stmts.push (line, stmt) }

/-- Reads items up to the closing brace of the body, at most `bound` of them. -/
def readItems (m : MethodId) : (bound : Nat) → Draft → Reader Draft
  | 0, d => return d
  | bound + 1, d => do
    if ← check (.mark .rightBrace) then
      return d
    if ← atEnd then
      fail (← peek) (.expected (.mark .rightBrace))
    readItems m bound (← readItem m d)

/-- The index a jump to a label goes to, or the label if it is not declared. -/
def Draft.resolveLabel (d : Draft) (label : LineToken) : Except LineToken Nat :=
  match d.target? label with
  | some i => .ok i
  | none => .error label

/-- Resolves the jumps of the statements, in order, up to the first label that is not declared. -/
def Draft.resolveStmts (d : Draft) : List (Nat × StmtOf LineToken) → Except LineToken (List Instr)
  | [] => .ok []
  | (line, stmt) :: rest => do
    let stmt ← stmt.resolve d.resolveLabel
    let rest ← d.resolveStmts rest
    return ⟨line, stmt⟩ :: rest

/-- The finished body. A label must stand before a statement, and jumps must go to labels. -/
def Draft.finish (d : Draft) : Reader (List Instr) :=
  match d.labels.find? fun l => l.2 = d.stmts.size with
  | some (label, _) => fail label .labelAtEnd
  | none =>
    match d.resolveStmts d.stmts.toList with
    | .ok instrs => return instrs
    | .error label => fail label .labelUndefined

/-- Reads a body in braces. -/
def readInstrs (m : MethodId) : Reader (List Instr) := do
  discard <| expect (.mark .leftBrace)
  let draft ← readItems m (← remaining) {}
  discard <| expect (.mark .rightBrace)
  draft.finish

/-- Reads a body in braces and gives it to its method. -/
def readBody (m : MethodId) : Reader Unit := do
  let instrs ← readInstrs m
  modifyProgram (·.modifyMethod m fun d => { d with body := instrs.toArray })

/-- Reads the bodies that were passed over. -/
def readBodies : List PendingBody → Reader Unit
  | [] => return ()
  | body :: rest => do
    modify fun s => { s with tokens := body.tokens }
    readBody body.method
    readBodies rest

end Reader

end ObjectFlow
