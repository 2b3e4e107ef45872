import Betweenness.CommandLine.Session

/-!
# The program

`main` reads the command line, carries it out on the terminal, takes real times and draws samples
without a seed from random streams.
-/

namespace Betweenness

/-- A number of nanoseconds in the forms in which times are reported. -/
def Elapsed.ofNanoseconds (n : Nat) : Elapsed where
  seconds := writeFixed 2 n 1000000000
  milliseconds := writeFixed 1 n 1000000
  exactMilliseconds := (Json.ofDouble (Float.ofNat n / 1000000.0)).write

/-- A stream with a random key. -/
def randomStream : IO Sampling.ChaCha := do
  let key ← (Vector.range 8).mapM fun _ => return .ofNat (← IO.rand 0 4294967295)
  return { key, counter := 0, rest := [] }

/-- The console of a terminal: computations run on one thread, and each has a random stream of its
own. -/
def terminal : Console IO where
  host := return { threads := 1, entropy := ← randomStream }
  print line := IO.println line
  complain line := IO.eprintln line
  timed compute := do
    let start ← IO.monoNanosNow
    let a ← IO.lazyPure compute
    let stop ← IO.monoNanosNow
    return (a, .ofNanoseconds (stop - start))

end Betweenness

/-- Carry out the command line that the arguments are. -/
def main (args : List String) : IO UInt32 := do
  match Betweenness.CommandLine.parse args with
  | some c => c.session Betweenness.terminal
  | none =>
    IO.eprintln "error: these arguments are not a command line"
    return 2
