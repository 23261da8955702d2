/-
  File:      ObjectFlow/PointsTo/Settings.lean
  Subject:   SETTINGS FILES of the pointer analysis.
-/
import ObjectFlow.Document.Reader
import ObjectFlow.PointsTo.Analysis

namespace ObjectFlow.PointsToOptions

/-- The value of a field read by `read?`; `fallback` if the field is left out. -/
def setting? {α : Type} (fields : List (String × Document)) (name : String) (fallback : α)
    (read? : String → Option α) : Option α :=
  match fields.lookup name with
  | none => some fallback
  | some d => d.text?.bind read?

/-- The settings a document lists; what is left out keeps its default. -/
def ofDocument? (d : Document) : Option PointsToOptions := do
  let fields ← d.fields? ["cs", "heap", "order"]
  let default : PointsToOptions := {}
  return {
    selector := ← setting? fields "cs" default.selector fun text => (Selector.ofName text).toOption
    heap := ← setting? fields "heap" default.heap HeapPolicy.ofName?
    order := ← setting? fields "order" default.order QueueOrder.ofName? }

/-- The settings in a settings file. -/
def ofSource? (source : String) : Option PointsToOptions :=
  (Document.parse? source).bind ofDocument?

end ObjectFlow.PointsToOptions
