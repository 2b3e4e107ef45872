import Betweenness.Json.Basic
import Betweenness.Json.Reader
import Betweenness.Options

/-!
# Requests

A request carries the options of a computation as they arrive from a document or a command line:
strategy and precision by name, sources as a number or a list. `VertexRequest.parse` reads one
from a JSON text, and `VertexRequest.toOptions` checks it and resolves the names. Checks come in
the order: name of the strategy, path endpoints, weights, name of the precision, sources that the
strategy does not take. Requests for edge scores have no strategy and no path endpoints.
-/

namespace Betweenness

/-- A request for vertex scores. -/
structure VertexRequest where
  sources : SourceSpec := .all
  normalized : Bool := true
  weight : Option String := none
  endpoints : Bool := false
  /-- The name of a strategy. -/
  strategy : Option String := none
  seed : Option Nat := none
  /-- The name of a precision. -/
  precision : String := Precision.double.name
  deriving DecidableEq, Repr

/-- A request for edge scores. -/
structure EdgeRequest where
  sources : SourceSpec := .all
  normalized : Bool := true
  weight : Option String := none
  seed : Option Nat := none
  /-- The name of a precision. -/
  precision : String := Precision.double.name
  deriving DecidableEq, Repr

/-- The choice of sources: a number for a sample of that size, a list for its ids, and `null` for
every vertex. -/
def SourceSpec.ofJson? : Json → Option SourceSpec
  | .null => some all
  | .array ids => list <$> (Json.array ids).naturals?
  | v => sample <$> v.natural?

namespace VertexRequest

/-- The names of the fields, in their order. -/
def fieldNames : List String :=
  ["k", "normalized", "weight", "endpoints", "implementation", "seed", "result_dtype"]

/-- The request that a JSON value stands for. -/
def ofJson? (document : Json) : Option VertexRequest := do
  let fields ← document.fields? fieldNames
  return {
    sources := ← Json.field? fields "k" .all SourceSpec.ofJson?
    normalized := ← Json.field? fields "normalized" true Json.bool?
    weight := ← Json.field? fields "weight" none (Json.nullable? Json.string?)
    endpoints := ← Json.field? fields "endpoints" false Json.bool?
    strategy := ← Json.field? fields "implementation" none (Json.nullable? Json.string?)
    seed := ← Json.field? fields "seed" none (Json.nullable? Json.natural?)
    precision := ← Json.field? fields "result_dtype" Precision.double.name Json.string? }

/-- The request of a JSON text. -/
def parse (text : String) : Except Error VertexRequest :=
  match Json.read text >>= ofJson? with
  | some request => .ok request
  | none => .error .malformedRequest

/-- The options that a request asks for, if they are supported. -/
def toOptions (r : VertexRequest) : Except Error VertexOptions := do
  let strategy ← Strategy.ofName r.strategy
  refuseUnsupported r.endpoints r.weight
  let precision ← Precision.ofName r.precision
  strategy.checkSources r.sources
  return {
    sources := r.sources
    normalized := r.normalized
    strategy
    seed := r.seed
    precision }

end VertexRequest

namespace EdgeRequest

/-- The names of the fields, in their order. -/
def fieldNames : List String := ["k", "normalized", "weight", "seed", "result_dtype"]

/-- The request that a JSON value stands for. -/
def ofJson? (document : Json) : Option EdgeRequest := do
  let fields ← document.fields? fieldNames
  return {
    sources := ← Json.field? fields "k" .all SourceSpec.ofJson?
    normalized := ← Json.field? fields "normalized" true Json.bool?
    weight := ← Json.field? fields "weight" none (Json.nullable? Json.string?)
    seed := ← Json.field? fields "seed" none (Json.nullable? Json.natural?)
    precision := ← Json.field? fields "result_dtype" Precision.double.name Json.string? }

/-- The request of a JSON text. -/
def parse (text : String) : Except Error EdgeRequest :=
  match Json.read text >>= ofJson? with
  | some request => .ok request
  | none => .error .malformedRequest

/-- The options that a request asks for, if they are supported. -/
def toOptions (r : EdgeRequest) : Except Error EdgeOptions := do
  refuseUnsupported false r.weight
  let precision ← Precision.ofName r.precision
  return { sources := r.sources, normalized := r.normalized, seed := r.seed, precision }

end EdgeRequest

end Betweenness
