/-
  File:      ObjectFlow/Program/Basic.lean
  Subject:   PROGRAMS: the tables of classes, fields, methods, variables and subsignatures, how
             they grow, and how their parts are found.
-/
import ObjectFlow.Program.Stmt

namespace ObjectFlow

/-! ## 1. Declarations -/

structure ClassDecl where
  name : String
  superClass : Option ClassId := none
  interfaces : List ClassId := []
  isInterface : Bool := false
  isAbstract : Bool := false
  /-- Mentioned but not declared, as library classes are. -/
  isPhantom : Bool := true
  fields : List FieldId := []
  methods : List MethodId := []
  deriving Inhabited, DecidableEq

structure FieldDecl where
  name : String
  owner : ClassId
  ty : Ty
  isStatic : Bool
  deriving Inhabited, DecidableEq

structure VarDecl where
  name : String
  ty : Ty
  method : MethodId
  /-- The position among the variables of its method. -/
  localIndex : Nat
  deriving Inhabited, DecidableEq

/-- A statement and the source line it starts on. -/
structure Instr where
  line : Nat
  stmt : Stmt
  deriving Inhabited, DecidableEq

structure MethodDecl where
  name : String
  owner : ClassId
  subsig : SubsigId
  paramTypes : List Ty
  retType : Ty
  isStatic : Bool
  isAbstract : Bool
  this : Option VarId := none
  params : List VarId := []
  /-- All variables of the method: the receiver, the parameters, then the declared ones. -/
  vars : List VarId := []
  body : Array Instr := #[]
  deriving Inhabited, DecidableEq

namespace MethodDecl

def stmts (m : MethodDecl) : List Stmt := m.body.toList.map (·.stmt)

def hasBody (m : MethodDecl) : Bool := !m.body.isEmpty

/-- The variables given back by the return statements, in statement order. -/
def returnVars (m : MethodDecl) : List VarId := m.stmts.filterMap (·.returned?)

end MethodDecl

/-- A program; the id of a part is its position in its table. -/
structure Program where
  classes : Array ClassDecl := #[]
  fields : Array FieldDecl := #[]
  methods : Array MethodDecl := #[]
  vars : Array VarDecl := #[]
  subsigs : Array String := #[]
  deriving Inhabited, DecidableEq

namespace Program

/-! ## 2. Parts by id -/

def classAt (p : Program) (c : ClassId) : ClassDecl := p.classes.getD c default

def fieldAt (p : Program) (f : FieldId) : FieldDecl := p.fields.getD f default

def methodAt (p : Program) (m : MethodId) : MethodDecl := p.methods.getD m default

def varAt (p : Program) (v : VarId) : VarDecl := p.vars.getD v default

def varName (p : Program) (v : VarId) : String := (p.varAt v).name

def varTy (p : Program) (v : VarId) : Ty := (p.varAt v).ty

/-- Whether the values of a variable fit a 32-bit integer. -/
def holdsInt (p : Program) (v : VarId) : Bool := (p.varTy v).holdsInt

def subsigAt (p : Program) (s : SubsigId) : String := p.subsigs.getD s ""

def classIds (p : Program) : List ClassId := List.range p.classes.size

def methodIds (p : Program) : List MethodId := List.range p.methods.size

/-- The statement at a site. -/
def stmt? (p : Program) (s : Site) : Option Stmt :=
  ((p.methodAt s.method).body[s.index]?).map (·.stmt)

/-- The call at a site. -/
def invoke? (p : Program) (s : Site) : Option Invoke := (p.stmt? s).bind (·.invoke?)

/-- The statements of a method with their sites, in order. -/
def sitesOf (p : Program) (m : MethodId) : List (Site × Stmt) :=
  (p.methodAt m).stmts.zipIdx.map fun (stmt, i) => (⟨m, i⟩, stmt)

/-- The statements of all methods with their sites, in order. -/
def sites (p : Program) : List (Site × Stmt) := p.methodIds.flatMap p.sitesOf

/-! ## 3. Parts by name -/

def classByName? (p : Program) (name : String) : Option ClassId :=
  p.classes.findIdx? (·.name = name)

def subsigByText? (p : Program) (text : String) : Option SubsigId :=
  p.subsigs.findIdx? (· = text)

/-- The method a class itself declares under a subsignature. -/
def declaredMethod? (p : Program) (c : ClassId) (s : SubsigId) : Option MethodId :=
  (p.classAt c).methods.find? fun m => (p.methodAt m).subsig = s

/-- The field a class itself declares under a name. -/
def declaredField? (p : Program) (c : ClassId) (name : String) : Option FieldId :=
  (p.classAt c).fields.find? fun f => (p.fieldAt f).name = name

/-- The variable a name stands for in a method: of two with one name, the later one. -/
def varByName? (p : Program) (m : MethodId) (name : String) : Option VarId :=
  (p.methodAt m).vars.reverse.find? fun v => p.varName v = name

/-- The method analyses start from: the first static method called `main` with a body. -/
def main? (p : Program) : Option MethodId :=
  p.methodIds.find? fun m =>
    let decl := p.methodAt m
    decl.isStatic && decl.name = "main" && decl.hasBody

/-- Methods that have statements. -/
def methodsWithBody (p : Program) : List MethodId :=
  p.methodIds.filter fun m => (p.methodAt m).hasBody

/-! ## 4. Growing a program -/

/-- The class with a name; one not seen before is added as a phantom. -/
def internClass (p : Program) (name : String) : ClassId × Program :=
  match p.classByName? name with
  | some c => (c, p)
  | none => (p.classes.size, { p with classes := p.classes.push { name := name } })

def internSubsig (p : Program) (text : String) : SubsigId × Program :=
  match p.subsigByText? text with
  | some s => (s, p)
  | none => (p.subsigs.size, { p with subsigs := p.subsigs.push text })

def modifyClass (p : Program) (c : ClassId) (f : ClassDecl → ClassDecl) : Program :=
  { p with classes := p.classes.modify c f }

def modifyMethod (p : Program) (m : MethodId) (f : MethodDecl → MethodDecl) : Program :=
  { p with methods := p.methods.modify m f }

def addField (p : Program) (field : FieldDecl) : Program :=
  { p with fields := p.fields.push field }.modifyClass field.owner fun c =>
    { c with fields := c.fields ++ [p.fields.size] }

def addMethod (p : Program) (method : MethodDecl) : MethodId × Program :=
  let id := p.methods.size
  (id, { p with methods := p.methods.push method }.modifyClass method.owner fun c =>
    { c with methods := c.methods ++ [id] })

/-- Adds a variable to a method, after the ones it has. -/
def addVar (p : Program) (m : MethodId) (name : String) (ty : Ty) : VarId × Program :=
  let id := p.vars.size
  let localIndex := (p.methodAt m).vars.length
  (id, { p with vars := p.vars.push ⟨name, ty, m, localIndex⟩ }.modifyMethod m fun d =>
    { d with vars := d.vars ++ [id] })

/-- Adds the receiver variable of a method. -/
def addThis (p : Program) (m : MethodId) (owner : ClassId) : Program :=
  let (v, p) := p.addVar m "this" (.object owner)
  p.modifyMethod m fun d => { d with this := some v }

def addParam (p : Program) (m : MethodId) (name : String) (ty : Ty) : Program :=
  let (v, p) := p.addVar m name ty
  p.modifyMethod m fun d => { d with params := d.params ++ [v] }

/-! ## 5. Accesses through a variable -/

/-- The sites at which memory is accessed, or a method called, through a variable. -/
structure VarUses where
  loadFields : List Site
  storeFields : List Site
  loadArrays : List Site
  storeArrays : List Site
  invokes : List Site
  deriving Inhabited, DecidableEq

/-- The sites whose statement satisfies a test, in order. -/
def sitesWhere (p : Program) (test : Stmt → Bool) : List Site :=
  (p.sites.filter fun (_, stmt) => test stmt).map (·.1)

/-- All accesses with a given base variable. -/
def usesOf (p : Program) (v : VarId) : VarUses where
  loadFields := p.sitesWhere fun
    | .loadField _ (some b) _ => b = v
    | _ => false
  storeFields := p.sitesWhere fun
    | .storeField (some b) _ _ => b = v
    | _ => false
  loadArrays := p.sitesWhere fun
    | .loadArray _ b _ => b = v
    | _ => false
  storeArrays := p.sitesWhere fun
    | .storeArray b _ _ => b = v
    | _ => false
  invokes := p.sitesWhere fun
    | .call invoke => invoke.base = some v
    | _ => false

def VarUses.isEmpty (u : VarUses) : Bool :=
  u.loadFields.isEmpty && u.storeFields.isEmpty && u.loadArrays.isEmpty && u.storeArrays.isEmpty
    && u.invokes.isEmpty

end Program

end ObjectFlow
