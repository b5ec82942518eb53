import BuildingCode.CommandLine.Run

/-! The program itself: it reads what the command names, runs the command and prints. -/
open BuildingCode CommandLine

def readAll (path : String) : IO (Option String) :=
  try return some (← IO.FS.readFile path)
  catch _ => return none

def readInput : IO (Option String) := do
  let input ← IO.getStdin
  try return some (← IO.FS.Stream.readToEnd input)
  catch _ => return none

def surroundings (configured : Option String) (words : List String) : IO Surroundings :=
  match Invocation.ofWords configured words with
  | .error _ => return ⟨fun _ => none, none⟩
  | .ok i => do
    let texts ← i.files.mapM fun path => do return (path, ← readAll path)
    let input ← if i.readsInput then readInput else pure none
    return ⟨fun path => (texts.lookup path).join, input⟩

def complaint : Outcome → Option String
  | .printed _ => none
  | .failed message => some s!"Error: {message}"
  | .badUsage => some "error: bad usage; for more information, try '--help'"

def main (words : List String) : IO UInt32 := do
  let configured ← IO.getEnv "CLAUSECALC_CONFIG"
  let outcome := run (← surroundings configured words) configured words
  IO.print outcome.output
  if let some text := complaint outcome then IO.eprintln text
  return UInt32.ofNat outcome.exitCode
