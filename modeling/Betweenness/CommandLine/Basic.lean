import Betweenness.Document.Request
import Betweenness.Workload

/-!
# Command lines

`CommandLine.parse` reads the arguments of the program. An option is written with two dashes and
its name; its value follows as the next argument or after an equals sign, and an argument with a
dash in front is no value unless it is a single dash. One argument may be the kind of graph. No
option and no kind may be given twice, and after two dashes alone nothing is an option.

What is not a command line has no further explanation: `parse` gives `none`.
-/

namespace Betweenness

/-- What the program is asked to do. -/
structure CommandLine where
  /-- The kind of graph; every kind in turn if none is given. -/
  workload : Option Workload := none
  nodes : Nat := 2000
  /-- The size of the sample of sources. -/
  sampleSize : Option Nat := none
  seed : Option Nat := none
  /-- The name of the strategy. -/
  strategy : String := Strategy.sourceBySource.name
  /-- The name of the precision. -/
  precision : String := Precision.double.name
  /-- Whether edges are scored instead of vertices. -/
  edges : Bool := false
  directed : Bool := false
  unnormalized : Bool := false
  /-- The settings, as a JSON text. -/
  settings : Option String := none
  /-- The number of rows in a report; all of them if zero. -/
  top : Nat := 10
  json : Bool := false
  deriving DecidableEq, Repr

namespace CommandLine

/-- The kind of graphs, by names: `all` stands for every kind. -/
def workloadOfName? (name : String) : Option (Option Workload) :=
  if name = "all" then some none else some <$> Workload.ofName? name

/-- The name of the choice of graphs. -/
def workloadName : Option Workload → String
  | none => "all"
  | some w => w.name

/-- The kinds of graphs to report on. -/
def workloads (c : CommandLine) : List Workload :=
  match c.workload with
  | none => Workload.list
  | some w => [w]

/-- A natural number below `2 ^ 64`, with a plus sign or without. -/
def natural? (text : String) : Option Nat :=
  let digits := match text.toList with
    | '+' :: digits => digits
    | digits => digits
  let n := Nat.ofDigitChars 10 digits 0
  if ¬digits.isEmpty ∧ digits.all Char.isDigit ∧ n < UInt64.size then some n else none

/-- The least number of vertices. -/
def leastNodes : Nat := 32

/-- What an option does: set something, or give something a value that has to be read. -/
inductive Effect where
  | flag (set : CommandLine → CommandLine)
  | value (set : CommandLine → String → Option CommandLine)

/-- The effect of an option by its name. -/
def effect? : String → Option Effect
  | "nodes" => some <| .value fun c text => do
    let nodes ← natural? text
    if nodes < leastNodes then none else some { c with nodes }
  | "k" => some <| .value fun c text => return { c with sampleSize := some (← natural? text) }
  | "seed" => some <| .value fun c text => return { c with seed := some (← natural? text) }
  | "implementation" => some <| .value fun c text => some { c with strategy := text }
  | "dtype" => some <| .value fun c text => some { c with precision := text }
  | "edges" => some <| .flag fun c => { c with edges := true }
  | "directed" => some <| .flag fun c => { c with directed := true }
  | "unnormalized" => some <| .flag fun c => { c with unnormalized := true }
  | "config" => some <| .value fun c text => some { c with settings := some text }
  | "top" => some <| .value fun c text => return { c with top := ← natural? text }
  | "json" => some <| .flag fun c => { c with json := true }
  | _ => none

/-- The name of an option and the value that is written in the same argument, if the argument has
two dashes in front and something after them. -/
def splitOption? (arg : String) : Option (String × Option String) :=
  match arg.toList with
  | '-' :: '-' :: c :: cs =>
    let name := (c :: cs).takeWhile (· ≠ '=')
    let value := match (c :: cs).dropWhile (· ≠ '=') with
      | [] => none
      | _ :: value => some (String.ofList value)
    some (String.ofList name, value)
  | _ => none

/-- Whether an argument can be a value: it has no dash in front, or is nothing else. -/
def isValue (arg : String) : Bool := arg.toList.head? ≠ some '-' || arg = "-"

/-- A command line as far as it has been read. -/
structure Reading where
  line : CommandLine := {}
  /-- The names of the options that were given; the kind of graph counts as one. -/
  given : List String := []
  /-- The option whose value follows. -/
  pending : Option (CommandLine → String → Option CommandLine) := none
  /-- Whether two dashes alone were given. -/
  onlyOperands : Bool := false

namespace Reading

/-- Read the kind of graph, unless it has been given. -/
def readWorkload (r : Reading) (arg : String) : Option Reading :=
  if "mode" ∈ r.given then none
  else return {
    r with
    line := { r.line with workload := ← workloadOfName? arg }
    given := "mode" :: r.given }

/-- Read an option with the value that is written in the same argument, unless the option has been
given. -/
def readOption (r : Reading) (name : String) (written : Option String) : Option Reading :=
  if name ∈ r.given then none
  else
    let r := { r with given := name :: r.given }
    match effect? name, written with
    | some (.flag set), none => some { r with line := set r.line }
    | some (.value set), some value => return { r with line := ← set r.line value }
    | some (.value set), none => some { r with pending := some set }
    | _, _ => none

/-- Read an argument. -/
def step (r : Reading) (arg : String) : Option Reading :=
  match r.pending with
  | some set =>
    if isValue arg then return { r with line := ← set r.line arg, pending := none } else none
  | none =>
    if r.onlyOperands then r.readWorkload arg
    else if arg = "--" then some { r with onlyOperands := true }
    else
      match splitOption? arg with
      | some (name, written) => r.readOption name written
      | none => if isValue arg then r.readWorkload arg else none

/-- The command line that has been read, unless a value is missing. -/
def finish (r : Reading) : Option CommandLine :=
  if r.pending.isSome then none else some r.line

end Reading

/-- The command line of a list of arguments. -/
def parse (args : List String) : Option CommandLine := do
  (← args.foldlM Reading.step {}).finish

/-- The choice of sources on a command line. -/
def sources (c : CommandLine) : SourceSpec :=
  match c.sampleSize with
  | none => .all
  | some k => .sample k

/-- The request for vertex scores that a command line makes. -/
def vertexRequest (c : CommandLine) : VertexRequest where
  sources := c.sources
  normalized := !c.unnormalized
  strategy := some c.strategy
  seed := c.seed
  precision := c.precision

/-- The request for edge scores that a command line makes. -/
def edgeRequest (c : CommandLine) : EdgeRequest where
  sources := c.sources
  normalized := !c.unnormalized
  seed := c.seed
  precision := c.precision

end CommandLine

end Betweenness
