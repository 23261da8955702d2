/-
  File:      ObjectFlow/Program/Reader/Declaration.lean
  Subject:   READING DECLARATIONS: classes, fields and methods, without the bodies.

  Bodies are passed over by counting braces. The tokens at which each body starts are kept, so
  that bodies can be read when all declarations are known.
-/
import ObjectFlow.Program.Reader.Cursor

namespace ObjectFlow

/-- A method whose body has still to be read, with the tokens from its opening brace on. -/
structure PendingBody where
  method : MethodId
  tokens : List LineToken

namespace Reader

/-! ## 1. Passing over a body -/

/-- The tokens after the brace that closes the `depth` open ones. -/
def skipBlock? : (depth : Nat) → List LineToken → Option (List LineToken)
  | 0, tokens => some tokens
  | _ + 1, [] => none
  | depth + 1, t :: rest =>
    match t.token with
    | .endOfFile => none
    | .mark .leftBrace => skipBlock? (depth + 2) rest
    | .mark .rightBrace => skipBlock? depth rest
    | _ => skipBlock? (depth + 1) rest

/-- Passes over a body in braces. -/
def skipBody : Reader Unit := do
  let opening ← expect (.mark .leftBrace)
  let s ← get
  match skipBlock? 1 s.tokens with
  | some rest => set { s with tokens := rest }
  | none => fail opening .openBody

/-! ## 2. Members -/

def readField (owner : ClassId) (isStatic : Bool) : Reader Unit := do
  let ty ← readType
  let (found, name) ← identifier
  discard <| expect (.mark .semicolon)
  if ((← program).declaredField? owner name).isSome then
    fail found (.fieldDeclared name)
  modifyProgram (·.addField ⟨name, owner, ty, isStatic⟩)

/-- Reads a parameter: its type and its name. -/
def readParam : Reader (String × Ty) := do
  let ty ← readType
  let (_, name) ← identifier
  return (name, ty)

def readParams : Reader (List (String × Ty)) := do
  discard <| expect (.mark .leftParen)
  let params ← if ← check (.mark .rightParen) then pure [] else commas readParam
  discard <| expect (.mark .rightParen)
  return params

/-- A method enters the program with its receiver and its parameters. -/
def enterMethod (d : MethodDecl) (params : List (String × Ty)) : Reader MethodId := do
  let method ← update (·.addMethod d)
  if !d.isStatic then
    modifyProgram (·.addThis method d.owner)
  modifyProgram fun p => params.foldl (fun p (name, ty) => p.addParam method name ty) p
  return method

/-- Reads a method from its result type up to its body, or to the semicolon in the place of one;
    says whether there is a body. `start` is the token that announced the method. -/
def readHeader (owner : ClassId) (isStatic isAbstract : Bool) (start : LineToken) :
    Reader (MethodId × Bool) := do
  let retType ← readType
  let (found, name) ← identifier
  let params ← readParams
  let paramTypes := params.map (·.2)
  let p ← program
  let subsig := p.tyName retType ++ " " ++ name ++ "("
    ++ ",".intercalate (paramTypes.map p.tyName) ++ ")"
  let id ← update (·.internSubsig subsig)
  if (p.declaredMethod? owner id).isSome then
    fail found (.methodDeclared subsig)
  let hasBody ← check (.mark .leftBrace)
  if hasBody && isAbstract then
    fail start .abstractBody
  let isInterface := (p.classAt owner).isInterface
  let method ← enterMethod
    { name := name, owner := owner, subsig := id, paramTypes := paramTypes, retType := retType
      isStatic := isStatic, isAbstract := isAbstract || (isInterface && !hasBody) } params
  return (method, hasBody)

/-- Passes over the body of a method that has one. -/
def readRest (header : MethodId × Bool) : Reader (Option PendingBody) := do
  if header.2 then
    let tokens := (← get).tokens
    skipBody
    return some ⟨header.1, tokens⟩
  else
    discard <| expectOr (.mark .semicolon) .bodyExpected
    return none

/-- Reads a field, or a method up to its body. -/
def readMemberHead (owner : ClassId) : Reader (Option (MethodId × Bool)) := do
  let isStatic ← accept (.keyword .staticMark)
  let isAbstract ← accept (.keyword .abstractMark)
  if ← accept (.keyword .fieldDecl) then
    readField owner isStatic
    return none
  let start ← expectOr (.keyword .methodDecl) .memberExpected
  some <$> readHeader owner isStatic isAbstract start

/-- Passes over what is left of a member. -/
def readMemberRest : Option (MethodId × Bool) → Reader (Option PendingBody)
  | none => return none
  | some header => readRest header

/-- Reads a field or a method. -/
def readMember (owner : ClassId) : Reader (Option PendingBody) :=
  readMemberHead owner >>= readMemberRest

/-- Reads members up to the closing brace of their class, at most `bound` of them. -/
def readMembers (owner : ClassId) : (bound : Nat) → Reader (List PendingBody)
  | 0 => return []
  | bound + 1 => do
    if ← check (.mark .rightBrace) then
      return []
    if ← atEnd then
      fail (← peek) (.expected (.mark .rightBrace))
    let body ← readMember owner
    return body.toList ++ (← readMembers owner bound)

/-! ## 3. Classes -/

/-- Reads a class name, which need not be declared. -/
def readClassName : Reader ClassId := do
  let (_, name) ← identifier
  internClass name

/-- Reads what a class or interface extends and implements. -/
def readSupertypes (isInterface : Bool) : Reader (Option ClassId × List ClassId) := do
  if isInterface then
    if ← accept (.keyword .extendsClause) then
      return (none, ← commas readClassName)
    else
      return (none, [])
  else
    let superClass ←
      if ← accept (.keyword .extendsClause) then some <$> readClassName else pure none
    let interfaces ←
      if ← accept (.keyword .implementsClause) then commas readClassName else pure []
    return (superClass, interfaces)

/-- Reads a class or interface from its name up to the brace that opens it. -/
def readNamedClass (isAbstract isInterface : Bool) : Reader ClassId := do
  let (found, name) ← identifier
  let owner ← internClass name
  if !((← program).classAt owner).isPhantom then
    fail found (.classDeclared name)
  let (superClass, interfaces) ← readSupertypes isInterface
  modifyProgram (·.modifyClass owner fun c =>
    { c with
      isPhantom := false
      isInterface := isInterface
      isAbstract := isAbstract || isInterface
      superClass := superClass
      interfaces := interfaces })
  return owner

/-- Reads a class or interface up to the brace that opens it. -/
def readClassHead : Reader ClassId := do
  let isAbstract ← accept (.keyword .abstractMark)
  let isInterface ← accept (.keyword .interfaceDecl)
  if !isInterface then
    discard <| expectOr (.keyword .classDecl) .classExpected
  readNamedClass isAbstract isInterface

/-- Reads the members of a class in their braces. -/
def readClassRest (owner : ClassId) : Reader (List PendingBody) := do
  discard <| expect (.mark .leftBrace)
  let bodies ← readMembers owner (← remaining)
  discard <| expect (.mark .rightBrace)
  return bodies

/-- Reads a class or interface and gives the bodies it leaves to be read. -/
def readClass : Reader (List PendingBody) :=
  readClassHead >>= readClassRest

/-- Reads classes up to the end, at most `bound` of them. -/
def readClasses : (bound : Nat) → Reader (List PendingBody)
  | 0 => return []
  | bound + 1 => do
    if ← atEnd then
      return []
    let bodies ← readClass
    return bodies ++ (← readClasses bound)

end Reader

end ObjectFlow
