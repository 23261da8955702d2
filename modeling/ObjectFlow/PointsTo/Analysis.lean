/-
  File:      ObjectFlow/PointsTo/Analysis.lean
  Subject:   THE TWO POINTER ANALYSES: without contexts, and with the contexts of a selector.
-/
import ObjectFlow.PointsTo.Result

namespace ObjectFlow

/-- The settings of a pointer analysis. -/
structure PointsToOptions where
  selector : Selector := .insensitive
  heap : HeapPolicy := .allocationSite
  order : QueueOrder := .fifo
  deriving Inhabited, DecidableEq

/-! ## 1. Without contexts -/

namespace Plain

/-- There is one context, and heap objects are the objects. -/
def sensitivity : Sensitivity Unit Unit where
  entryContext := ()
  allocated _ o _ := (o, ())
  unallocated o _ := (o, ())
  heapObject _ o := o
  calleeContext _ _ _ _ _ := ((), ())

/-- What a finished run says. -/
def result (s : EngineState Unit Unit) : PlainResult where
  heap := s.heap
  calls := s.calls.rename (·.item) (·.item)
  sets := s.graph.entries

/-- Runs the analysis with a plugin, for at most `allowance` items of work. -/
def analyzeWithin {ρ : Type} (p : Program) (options : PointsToOptions) (plugin : Plugin Unit Unit ρ)
    (memory : ρ) (allowance : Nat) (entry : MethodId) : Option (PlainResult × ρ) :=
  (Engine.runWithin p sensitivity plugin memory allowance
    (Engine.start p sensitivity () options.heap options.order entry)).map
    fun (s, r) => (result s, r)

/-- Runs the analysis with a plugin. -/
def analyzeWith {ρ : Type} (p : Program) (options : PointsToOptions) (plugin : Plugin Unit Unit ρ)
    (memory : ρ) (entry : MethodId) : Option (PlainResult × ρ) :=
  analyzeWithin p options plugin memory stepAllowance entry

/-- Runs the analysis. -/
def analyze (p : Program) (options : PointsToOptions) (entry : MethodId) : Option PlainResult :=
  (analyzeWith p options Plugin.none () entry).map (·.1)

end Plain

/-! ## 2. With contexts -/

namespace ContextSensitive

/-- Contexts are chosen by a selector, and objects are heap objects under heap contexts. -/
def sensitivity (selector : Selector) : Sensitivity ContextId ContextNames where
  entryContext := Contexts.empty
  allocated c o ns :=
    let (heapContext, contexts) := selector.heapContext ns.contexts c
    { ns with contexts := contexts }.intern ⟨heapContext, o⟩
  unallocated o ns := ns.intern ⟨Contexts.empty, o⟩
  heapObject ns object := (ns.objectAt object).item
  calleeContext p h site receiver ns :=
    let (c, contexts) :=
      selector.calleeContext p h ns.contexts site (receiver.map ns.objectAt)
    (c, { ns with contexts := contexts })

/-- What a finished run says. -/
def result (s : EngineState ContextId ContextNames) : ContextResult where
  heap := s.heap
  names := s.names
  calls := s.calls
  sets := s.graph.entries

/-- Runs the analysis with a plugin, for at most `allowance` items of work. -/
def analyzeWithin {ρ : Type} (p : Program) (options : PointsToOptions)
    (plugin : Plugin ContextId ContextNames ρ) (memory : ρ) (allowance : Nat) (entry : MethodId) :
    Option (ContextResult × ρ) :=
  let rules := sensitivity options.selector
  (Engine.runWithin p rules plugin memory allowance
    (Engine.start p rules {} options.heap options.order entry)).map
    fun (s, r) => (result s, r)

/-- Runs the analysis with a plugin. -/
def analyzeWith {ρ : Type} (p : Program) (options : PointsToOptions)
    (plugin : Plugin ContextId ContextNames ρ) (memory : ρ) (entry : MethodId) :
    Option (ContextResult × ρ) :=
  analyzeWithin p options plugin memory stepAllowance entry

/-- Runs the analysis. -/
def analyze (p : Program) (options : PointsToOptions) (entry : MethodId) : Option ContextResult :=
  (analyzeWith p options Plugin.none () entry).map (·.1)

end ContextSensitive

/-- What is pointed to without contexts: by the analysis that tells none apart when the selector
    is insensitive, otherwise by the other one with its contexts forgotten. -/
def analyzePlain (p : Program) (options : PointsToOptions) (entry : MethodId) :
    Option PlainResult :=
  if options.selector = .insensitive then Plain.analyze p options entry
  else (ContextSensitive.analyze p options entry).map (·.forget)

end ObjectFlow
