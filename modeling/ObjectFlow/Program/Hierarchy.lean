/-
  File:      ObjectFlow/Program/Hierarchy.lean
  Subject:   THE CLASS HIERARCHY: who extends whom, and which method a call reaches.

  A class is searched for a member together with its superclasses, nearest first. As long as no
  class extends itself, directly or not, the chain of superclasses has at most as many classes as
  the program.
-/
import ObjectFlow.Program.Basic
import ObjectFlow.Graph.Order

namespace ObjectFlow

namespace Program

/-! ## 1. Superclasses -/

/-- The class and its superclasses, nearest first, at most `bound` of them. -/
def superChain (p : Program) : (bound : Nat) → ClassId → List ClassId
  | 0, _ => []
  | bound + 1, c =>
    c :: match (p.classAt c).superClass with
      | some parent => p.superChain bound parent
      | none => []

/-- The class and its superclasses, nearest first. -/
def ancestors (p : Program) (c : ClassId) : List ClassId := p.superChain p.classes.size c

/-- The field a name stands for in a class: its own, or that of the nearest superclass. -/
def resolveField? (p : Program) (c : ClassId) (name : String) : Option FieldId :=
  (p.ancestors c).findSome? fun a => p.declaredField? a name

/-- The method with a subsignature in a class or its nearest superclass, abstract or not. -/
def lookup? (p : Program) (c : ClassId) (s : SubsigId) : Option MethodId :=
  (p.ancestors c).findSome? fun a => p.declaredMethod? a s

/-- Dynamic dispatch: the nearest method with a subsignature that is not abstract. -/
def dispatch? (p : Program) (c : ClassId) (s : SubsigId) : Option MethodId :=
  (p.ancestors c).findSome? fun a =>
    (p.declaredMethod? a s).filter fun m => !(p.methodAt m).isAbstract

/-! ## 2. Subtypes -/

/-- The classes that extend a class directly. -/
def subclassesOf (p : Program) (c : ClassId) : List ClassId :=
  p.classIds.filter fun d => (p.classAt d).superClass = some c

/-- One mention of `d` for every time it lists the interface `c`. -/
def mentions (p : Program) (c d : ClassId) : List ClassId :=
  ((p.classAt d).interfaces.filter (· = c)).map fun _ => d

/-- The interfaces that extend an interface directly. -/
def subinterfacesOf (p : Program) (c : ClassId) : List ClassId :=
  (p.classIds.filter fun d => (p.classAt d).isInterface).flatMap (p.mentions c)

/-- The classes that implement an interface directly. -/
def implementorsOf (p : Program) (c : ClassId) : List ClassId :=
  (p.classIds.filter fun d => !(p.classAt d).isInterface).flatMap (p.mentions c)

/-- The types directly below a class or interface. -/
def directSubtypes (p : Program) (c : ClassId) : List ClassId :=
  p.subclassesOf c ++ p.subinterfacesOf c ++ p.implementorsOf c

/-- All types below a class or interface, itself first, in breadth-first order. -/
def subtypes (p : Program) (c : ClassId) : List ClassId :=
  breadthFirst p.directSubtypes p.classes.size c

/-! ## 3. Calls -/

/-- The method a call reaches for a receiver of a type. Static calls look the method up, special
    calls dispatch on the class they name, virtual and interface calls on the receiver's class;
    dynamic calls reach nothing that is known. -/
def callee? (p : Program) (receiver : Option Ty) (i : Invoke) : Option MethodId :=
  match i.kind with
  | .static => p.lookup? i.target.owner i.target.subsig
  | .special => p.dispatch? i.target.owner i.target.subsig
  | .virtual | .interface => do
    let c ← (← receiver).class?
    p.dispatch? c i.target.subsig
  | .dynamic => none

end Program

end ObjectFlow
