/-!
# What can go wrong

One constructor of `Error` per cause. A cause belongs to a `Category`, and `Error.message` is the
one place that words it: every message opens with the wording of its category, unless the cause
says all there is to say.

Limits on identifiers are written as numbers here because they are part of the messages: indices
and edge numbers are 32 bits wide (`maxIndex`).
-/

namespace Betweenness

/-- The largest vertex index and the largest number of edges: 32-bit indices. -/
def maxIndex : Nat := 4294967295

/-- A reason why a graph is not built, a request is refused or a computation is not started. -/
inductive Error where
  /-- A vertex id too large to serve as an index of its own. -/
  | idOutsideDenseRange (id : Nat)
  /-- More vertices than there are indices. -/
  | tooManyVertices
  /-- More edges than there are edge numbers. -/
  | tooManyEdges
  /-- A sample of more sources than there are vertices. -/
  | sampleTooLarge (size vertexCount : Nat)
  /-- No strategy goes by this name. -/
  | unknownStrategy (name : String)
  /-- The chosen strategy starts from every vertex and cannot take a subset of them. -/
  | subsetNotSupported
  /-- The text of a request is not a request. -/
  | malformedRequest
  /-- Counting path endpoints as crossed is not offered. -/
  | endpointsNotSupported
  /-- Weighted paths are not offered. -/
  | weightsNotSupported
  /-- No precision goes by this name. -/
  | unknownPrecision (name : String)
  /-- An id that is not a vertex of the graph. -/
  | vertexNotFound (id : Nat)
  /-- An id declared twice. -/
  | duplicateVertex (id : Nat)
  /-- The estimated memory exceeds the limit; both in MiB. -/
  | memoryExceeded (required limit : Nat)
  /-- A memory limit outside the accepted range. -/
  | memoryLimitOutOfRange (megabytes : Nat)
  /-- A computation on no threads at all. -/
  | noThreads
  /-- The text of the settings is not a settings document. -/
  | malformedSettings
  /-- There is no synthetic graph of this kind and size. -/
  | noSuchWorkload
  /-- No answer at all: every word drawn for a sample is rejected, without end. No program reports
  this, and it has no wording; it is here because functions have a value everywhere. -/
  | neverAnswers
  deriving DecidableEq, Repr

/-- The kinds of errors that callers tell apart. -/
inductive Category where
  | invalidArgument
  | notSupported
  | typeMismatch
  | notFound
  | duplicateVertex
  | resourceLimit
  | settings
  deriving DecidableEq, Repr

namespace Error

/-- The category of a cause. -/
def category : Error → Category
  | idOutsideDenseRange _ | tooManyVertices | tooManyEdges | sampleTooLarge _ _
  | unknownStrategy _ | subsetNotSupported | malformedRequest | noSuchWorkload
  | neverAnswers => .invalidArgument
  | endpointsNotSupported | weightsNotSupported => .notSupported
  | unknownPrecision _ => .typeMismatch
  | vertexNotFound _ => .notFound
  | duplicateVertex _ => .duplicateVertex
  | memoryExceeded _ _ => .resourceLimit
  | memoryLimitOutOfRange _ | noThreads | malformedSettings => .settings

/-- The wording of a cause, as users read it. -/
def message : Error → String
  | idOutsideDenseRange id =>
    "invalid argument: vertex id " ++ toString id
      ++ " exceeds the dense index range; enable renumbering"
  | tooManyVertices => "invalid argument: graph exceeds " ++ toString maxIndex ++ " vertices"
  | tooManyEdges => "invalid argument: graph exceeds " ++ toString maxIndex ++ " edges"
  | sampleTooLarge size vertexCount =>
    "invalid argument: sample size k=" ++ toString size
      ++ " exceeds vertex count " ++ toString vertexCount
  | unknownStrategy name =>
    "invalid argument: unknown implementation '" ++ name
      ++ "': only 'default' and 'gunrock' are supported"
  | subsetNotSupported =>
    "invalid argument: source sampling is not supported by the gunrock implementation; "
      ++ "use all vertices or the default implementation"
  | malformedRequest => "invalid argument: malformed request"
  | endpointsNotSupported =>
    "not supported: endpoints accumulation for betweenness centrality"
  | weightsNotSupported =>
    "not supported: weighted betweenness centrality; "
      ++ "only unweighted shortest paths are computed"
  | unknownPrecision name =>
    "type mismatch: result dtype can only be float32 or float64, got '" ++ name ++ "'"
  | vertexNotFound id => "vertex " ++ toString id ++ " not found"
  | duplicateVertex id => "duplicate vertex identifier " ++ toString id
  | memoryExceeded required limit =>
    "computation needs ~" ++ toString required
      ++ "MB, exceeds max_memory_mb=" ++ toString limit ++ "MB"
  | memoryLimitOutOfRange megabytes =>
    "invalid engine configuration: max_memory_mb must be within 64..=131072, got "
      ++ toString megabytes
  | noThreads => "invalid engine configuration: num_threads must be at least 1"
  | malformedSettings => "invalid engine configuration"
  | noSuchWorkload => "invalid argument: no graph of this kind and size"
  | neverAnswers => ""

end Error

end Betweenness
