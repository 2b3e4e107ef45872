import Betweenness.Error

/-!
# Options

What a caller chooses for a computation: the sources, the scaling, the strategy and the precision
of the scores. Weights and path endpoints can be asked for as well, and are refused.

`VertexOptions.plan` and `EdgeOptions.plan` refuse what cannot be computed, in a fixed order, and
settle what will run. Strategies and precisions have names, which are resolved here too.
-/

namespace Betweenness

/-- Which vertices searches start from. -/
inductive SourceSpec where
  /-- Every vertex, which makes scores exact. -/
  | all
  /-- A uniform sample of this many vertices. -/
  | sample (count : Nat)
  /-- The vertices with these ids, each as often as it is listed. -/
  | list (ids : List Nat)
  deriving DecidableEq, Repr, Inhabited

/-- Whether only some of the vertices are sources, so that scores are estimates. -/
def SourceSpec.isSubset : SourceSpec → Bool
  | all => false
  | sample _ | list _ => true

/-- A way to compute vertex scores. -/
inductive Strategy where
  /-- A search at a time, pushing forward and back; takes any sources and both precisions. -/
  | sourceBySource
  /-- A level at a time, pulling; starts from every vertex and has single precision only. -/
  | levelByLevel
  deriving DecidableEq, Repr, Inhabited

namespace Strategy

/-- The name by which a strategy is chosen. -/
def name : Strategy → String
  | sourceBySource => "default"
  | levelByLevel => "gunrock"

/-- The strategy that goes by a name; without a name it is the first. -/
def ofName (name : Option String) : Except Error Strategy :=
  match name with
  | none => .ok sourceBySource
  | some name =>
    if name = sourceBySource.name then .ok sourceBySource
    else if name = levelByLevel.name then .ok levelByLevel
    else .error (.unknownStrategy name)

end Strategy

/-- The width of the floats in which scores are returned. -/
inductive Precision where
  | single
  | double
  deriving DecidableEq, Repr, Inhabited

namespace Precision

/-- The name of a precision. -/
def name : Precision → String
  | single => "float32"
  | double => "float64"

/-- The other name by which a precision can be chosen. -/
def shortName : Precision → String
  | single => "f32"
  | double => "f64"

/-- The precision that goes by a name. -/
def ofName (name : String) : Except Error Precision :=
  if name = single.name ∨ name = single.shortName then .ok single
  else if name = double.name ∨ name = double.shortName then .ok double
  else .error (.unknownPrecision name)

end Precision

/-- The options of a computation of vertex scores. -/
structure VertexOptions where
  sources : SourceSpec := .all
  normalized : Bool := true
  /-- The name of an edge weight. -/
  weight : Option String := none
  /-- Whether the ends of a path count as crossed. -/
  endpoints : Bool := false
  strategy : Strategy := .sourceBySource
  /-- The seed of the sample. -/
  seed : Option Nat := none
  precision : Precision := .double
  deriving DecidableEq, Repr

/-- The options of a computation of edge scores. -/
structure EdgeOptions where
  sources : SourceSpec := .all
  normalized : Bool := true
  /-- The name of an edge weight. -/
  weight : Option String := none
  /-- The seed of the sample. -/
  seed : Option Nat := none
  precision : Precision := .double
  deriving DecidableEq, Repr

/-- What will run. -/
structure Plan where
  strategy : Strategy
  precision : Precision
  deriving DecidableEq, Repr

/-- Refuse path endpoints, then weights. -/
def refuseUnsupported (endpoints : Bool) (weight : Option String) : Except Error Unit :=
  if endpoints then .error .endpointsNotSupported
  else if weight.isSome then .error .weightsNotSupported
  else .ok ()

/-- Refuse sources that a strategy does not take. -/
def Strategy.checkSources (strategy : Strategy) (sources : SourceSpec) : Except Error Unit :=
  match strategy with
  | .sourceBySource => .ok ()
  | .levelByLevel => if sources.isSubset then .error .subsetNotSupported else .ok ()

/-- The strategy that computes scores of a precision when the given one is asked for: double
precision is always computed source by source. -/
def Strategy.forPrecision (strategy : Strategy) : Precision → Strategy
  | .single => strategy
  | .double => .sourceBySource

/-- What runs for the options, if they are supported. -/
def VertexOptions.plan (o : VertexOptions) : Except Error Plan := do
  refuseUnsupported o.endpoints o.weight
  o.strategy.checkSources o.sources
  return ⟨o.strategy.forPrecision o.precision, o.precision⟩

/-- What runs for the options, if they are supported: edge scores are computed source by
source. -/
def EdgeOptions.plan (o : EdgeOptions) : Except Error Plan := do
  refuseUnsupported false o.weight
  return ⟨.sourceBySource, o.precision⟩

end Betweenness
