import Betweenness.Centrality
import Betweenness.CommandLine.Basic
import Betweenness.Document.Scores

/-!
# Sessions

A session carries out a command line: it reads the settings, then generates graph after graph,
scores each and reports on it, until it is done or something fails. What has been reported by then
stays reported.

A session writes to a `Console`, which also takes the time and stands for the machine. Two of them
matter: the terminal, and a `Transcript`, which collects lines and has a fixed text for every time.
-/

namespace Betweenness

/-! ### Reports

What is written about a graph: either a heading, two lines on the effort and a table of the
highest scores, or all of it as one line of JSON, with members in alphabetical order. Times are not
known to a report; they come as texts (`Elapsed`). -/

/-- The time that something took, as texts. -/
structure Elapsed where
  /-- In seconds, with two decimal places. -/
  seconds : String
  /-- In milliseconds, with one decimal place. -/
  milliseconds : String
  /-- In milliseconds, with all digits. -/
  exactMilliseconds : String

/-- The rows of a report. -/
inductive TopRows where
  | vertices (rows : List (VertexRow Float))
  | edges (rows : List (EdgeRow Float))

namespace Report

/-- The width of a column of ids. -/
def idWidth : Nat := 10

/-- The width of a column of scores. -/
def scoreWidth : Nat := 14

/-- A text in a column of ids. -/
def idCell (text : String) : String := padLeft idWidth ' ' text

/-- A text in a column of scores. -/
def scoreCell (text : String) : String := padLeft scoreWidth ' ' text

/-- A score in its column, with six decimal places. -/
def score (x : Float) : String := scoreCell ((FloatValue.ofDouble x).writeFixed 6)

/-- The line of dashes under a column of the given width. -/
def rule (width : Nat) : String := padLeft width '-' ""

/-- Cells with a blank between any two. -/
def line (cells : List String) : String := String.intercalate " " cells

/-- The lines at the top of all reports. -/
def banner : List String := ["centrality-accel-bench", "======================", ""]

/-- The lines about a graph. -/
def graphLines (title : String) (g : Graph) (elapsed : Elapsed) : List String := [
  "--- " ++ title ++ " ---",
  "Generated in " ++ elapsed.seconds ++ "s: " ++ toString g.nodeCount ++ " nodes, "
    ++ toString g.edgeCount ++ " edges, ~" ++ writeFixed 1 g.footprint 1048576 ++ "MB"]

/-- The lines of a table. -/
def tableLines : TopRows → List String
  | .vertices rows =>
    line [idCell "vertex", scoreCell "score"]
      :: line [rule idWidth, rule scoreWidth]
      :: rows.map fun r => line [idCell (toString r.vertex), score r.score]
  | .edges rows =>
    line [idCell "src", idCell "dst", scoreCell "score"]
      :: line [rule idWidth, rule idWidth, rule scoreWidth]
      :: rows.map fun r =>
        line [idCell (toString r.source), idCell (toString r.target), score r.score]

/-- The lines about the scores of a graph. -/
def scoreLines (rows : TopRows) (elapsed : Elapsed) : List String :=
  ["Computed in " ++ elapsed.milliseconds ++ "ms", ""] ++ tableLines rows ++ [""]

/-- The JSON value of rows. -/
def rowsJson : TopRows → Json
  | .vertices rows => .array (rows.map VertexRow.toJson)
  | .edges rows => .array (rows.map EdgeRow.toJson)

/-- The line that says everything about a graph. -/
def jsonLine (title : String) (g : Graph) (rows : TopRows) (elapsed : Elapsed) : String :=
  Json.write <| .record [
    ("edges", .ofNat g.edgeCount),
    ("elapsed_ms", .number elapsed.exactMilliseconds),
    ("graph", .ofString title),
    ("nodes", .ofNat g.nodeCount),
    ("top", rowsJson rows)]

end Report

/-! ### Consoles and sessions -/

/-- Where a session writes its lines, what its computations run on, and how it takes their
time. -/
structure Console (m : Type → Type) where
  /-- The host of the next computation. -/
  host : m Host
  print : String → m Unit
  complain : String → m Unit
  timed : {α : Type} → (Unit → α) → m (α × Elapsed)

namespace CommandLine

variable {m : Type → Type} [Monad m]

/-- The graph of a kind that a command line asks for. -/
def graph (c : CommandLine) (w : Workload) : Except Error Graph :=
  match w.generate c.nodes (if c.directed then .directed else .undirected) with
  | some builder => builder.build
  | none => .error .noSuchWorkload

/-- The highest scores in a graph that a command line asks for. -/
def topRows (c : CommandLine) (settings : Settings) (host : Host) (g : Graph) :
    Except Error TopRows :=
  if c.edges then do
    let options ← c.edgeRequest.toOptions
    let table ← edgeCentrality Float Float32 g options settings host
    return .edges (table.top c.top)
  else do
    let options ← c.vertexRequest.toOptions
    let table ← vertexCentrality Float Float32 g options settings host
    return .vertices (table.top c.top)

/-- Print lines. -/
def printAll (console : Console m) (lines : List String) : ExceptT Error m Unit :=
  lines.forM fun line => ExceptT.lift (console.print line)

/-- Take the time of a computation that may fail. -/
def timed {α : Type} (console : Console m) (compute : Unit → Except Error α) :
    ExceptT Error m (α × Elapsed) := do
  let (outcome, elapsed) ← ExceptT.lift (console.timed compute)
  return (← ExceptT.mk (pure outcome), elapsed)

/-- Generate a graph, score it and report on it. -/
def report (console : Console m) (c : CommandLine) (settings : Settings) (w : Workload) :
    ExceptT Error m Unit := do
  let (g, generation) ← timed console fun _ => c.graph w
  unless c.json do
    printAll console (Report.graphLines w.title g generation)
  let host ← ExceptT.lift console.host
  let (rows, computation) ← timed console fun _ => c.topRows settings host g
  if c.json then
    printAll console [Report.jsonLine w.title g rows computation]
  else
    printAll console (Report.scoreLines rows computation)

/-- The settings that a command line gives. -/
def readSettings (c : CommandLine) : Except Error Settings :=
  match c.settings with
  | none => .ok {}
  | some text => Settings.parse text

/-- Carry out a command line. -/
def reports (console : Console m) (c : CommandLine) : ExceptT Error m Unit := do
  let settings ← ExceptT.mk (pure c.readSettings)
  unless c.json do
    printAll console Report.banner
  c.workloads.forM (report console c settings)

/-- Carry out a command line and say what went wrong, if anything did. The outcome is the exit
code of the program. -/
def session (console : Console m) (c : CommandLine) : m UInt32 := do
  match ← (reports console c).run with
  | .ok () => return 0
  | .error e =>
    console.complain ("error: " ++ e.message)
    return 1

end CommandLine

/-- The lines that a session wrote. -/
structure Transcript where
  printed : Array String := #[]
  complaints : Array String := #[]

/-- The console that collects lines, with one host and the same text for every time. -/
def Transcript.console (time : String) (host : Host) : Console (StateM Transcript) where
  host := return host
  print line := modify fun t => { t with printed := t.printed.push line }
  complain line := modify fun t => { t with complaints := t.complaints.push line }
  timed compute := return (compute (), ⟨time, time, time⟩)

/-- The exit code of a session and the lines that it wrote. -/
def CommandLine.transcript (c : CommandLine) (time : String) (host : Host := .repeatable) :
    UInt32 × Transcript :=
  (c.session (Transcript.console time host)).run {}

end Betweenness
