/-
  File:      ObjectFlow/Program/Names.lean
  Subject:   THE NAMES of methods and types, and finding methods and types by name.
-/
import ObjectFlow.Program.Basic
import ObjectFlow.Text.Blank

namespace ObjectFlow

/-! ## 1. Subsignatures -/

/-- The canonical spelling of a subsignature, on characters: single spaces before the parameter
    list and none in it. A text without a parameter list is only trimmed. -/
def normalChars (text : List Char) : List Char :=
  let text := Text.trim text
  match Text.cutAt '(' text with
  | none => text
  | some (head, params) =>
    let params := Text.dropEndWhile (· = ')') (Text.trimEnd params)
    let pieces := (Text.splitAll ',' params).map fun piece => piece.filter fun c => !Text.isBlank c
    Text.joinWith [' '] (Text.words head) ++ ['(']
      ++ Text.joinWith [','] (pieces.filter fun piece => !piece.isEmpty) ++ [')']

/-- The canonical spelling of a subsignature. -/
def normalSubsig (text : String) : String := String.ofList (normalChars text.toList)

/-- The number of parameters a canonical subsignature lists; `none` when it has no parameter
    list. -/
def subsigArity? (text : String) : Option Nat := do
  let (_, rest) ← Text.cutAt '(' text.toList
  let params ← Text.dropBack? [')'] rest
  return ((Text.splitAll ',' params).filter fun piece => !piece.isEmpty).length

namespace Program

/-! ## 2. Methods -/

/-- A class and a subsignature as one signature. -/
def refSignature (p : Program) (r : MethodRef) : String :=
  "<" ++ (p.classAt r.owner).name ++ ": " ++ p.subsigAt r.subsig ++ ">"

/-- The full signature of a method, such as `<A: int foo(int,A)>`. -/
def signature (p : Program) (m : MethodId) : String :=
  p.refSignature ⟨(p.methodAt m).owner, (p.methodAt m).subsig⟩

/-- A class name and a subsignature, cut from a full signature without its angle brackets. -/
def cutSignature? (inner : List Char) : Option (String × String) :=
  (Text.cutAt ':' inner).map fun (owner, subsig) =>
    (String.ofList (Text.trim owner), String.ofList subsig)

/-- The method with a full signature, declared in exactly the class it names. Blanks that do not
    change the canonical spelling do not matter. -/
def methodBySignature? (p : Program) (text : String) : Option MethodId := do
  let inner ← Text.dropBack? ['>'] (← Text.dropFront? ['<'] (Text.trim text.toList))
  let (owner, subsig) ← cutSignature? inner
  let c ← p.classByName? owner
  let s ← p.subsigByText? (normalSubsig subsig)
  p.declaredMethod? c s

/-! ## 3. Types -/

def tyName (p : Program) : Ty → String
  | .prim t => t.name
  | .object c => (p.classAt c).name
  | .array elem => p.tyName elem ++ "[]"

/-- The type with a name that is not an array's. -/
def plainTy? (p : Program) (name : String) : Option Ty :=
  match Prim.ofName? name with
  | some t => some (.prim t)
  | none => (p.classByName? name).map Ty.object

/-- The type a text names, if it needs at most `depth` array brackets. -/
def tyByChars? (p : Program) : Nat → List Char → Option Ty
  | 0, _ => none
  | depth + 1, text =>
    let text := Text.trim text
    match Text.dropBack? ['[', ']'] text with
    | some elem => (p.tyByChars? depth elem).map Ty.array
    | none => p.plainTy? (String.ofList text)

/-- The type a text names; blanks around it and around its brackets do not matter. -/
def tyByName? (p : Program) (name : String) : Option Ty :=
  p.tyByChars? (name.toList.length + 1) name.toList

end Program

end ObjectFlow
