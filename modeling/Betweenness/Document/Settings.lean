import Betweenness.Error
import Betweenness.Json.Basic
import Betweenness.Json.Reader

/-!
# Settings

Limits that do not depend on a single computation: how much memory one may take and on how many
threads it runs. They come as a JSON document: `Settings.parse` reads and validates one, and
`Settings.write` writes one. What is written reads back, unless validation refuses it.
-/

namespace Betweenness

/-- The limits of computations. -/
structure Settings where
  /-- The largest estimate of memory for a computation, in MiB. -/
  memoryLimit : Nat := 4096
  /-- The number of threads; none asks for the default number. -/
  threads : Option Nat := none
  deriving DecidableEq, Repr

namespace Settings

/-- The least memory limit, in MiB. -/
def leastMemory : Nat := 64

/-- The greatest memory limit, in MiB. -/
def greatestMemory : Nat := 131072

/-- Refuse a memory limit out of range, then a computation on no threads. -/
def validate (s : Settings) : Except Error Unit :=
  if s.memoryLimit < leastMemory ∨ greatestMemory < s.memoryLimit then
    .error (.memoryLimitOutOfRange s.memoryLimit)
  else if s.threads = some 0 then .error .noThreads
  else .ok ()

/-! ### Documents -/

/-- The names of the fields, in their order. -/
def fieldNames : List String := ["max_memory_mb", "num_threads"]

/-- The settings that a JSON value stands for. -/
def ofJson? (document : Json) : Option Settings := do
  let fields ← document.fields? fieldNames
  return {
    memoryLimit := ← Json.field? fields "max_memory_mb" 4096 Json.natural?
    threads := ← Json.field? fields "num_threads" none (Json.nullable? Json.natural?) }

/-- The settings of a JSON text, if they are valid. -/
def parse (text : String) : Except Error Settings :=
  match Json.read text >>= ofJson? with
  | none => .error .malformedSettings
  | some settings => do
    settings.validate
    return settings

/-- The JSON value of settings. -/
def toJson (s : Settings) : Json :=
  .record [("max_memory_mb", .ofNat s.memoryLimit), ("num_threads", .orNull (s.threads.map .ofNat))]

/-- The JSON text of settings. -/
def write (s : Settings) : String := s.toJson.write

end Settings

end Betweenness
