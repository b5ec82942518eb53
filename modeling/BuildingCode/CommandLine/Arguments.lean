import BuildingCode.CommandLine.Scan

/-! What the program is asked to do. Options of the program stand before the command, options of a
command behind it. -/
namespace BuildingCode.CommandLine

inductive Command where
  | compute (blockId : String) (values : List String) (scope : Option String) (trace : Bool)
  | request (file : Option String)
  | list
  | sortIds (ids : List String)
  | tree (file : String)
deriving DecidableEq

structure Invocation where
  config : Option String
  custom : Option String
  command : Command
deriving DecidableEq

inductive Refusal where
  | usage
  | help (command : Option String)
  | version
deriving DecidableEq

def helpOption : OptionSpec := { long := "help", short := some 'h', kind := .help }

def commandNames : List String := ["compute", "request", "list", "sort-ids", "tree"]

def programSpec : Spec where
  options := [
    { long := "config", short := some 'c', kind := .value, isPath := true },
    { long := "custom", kind := .value, isPath := true },
    helpOption,
    { long := "version", short := some 'V', kind := .version }]
  commands := commandNames ++ ["help"]

def computeSpec : Spec where
  options := [
    { long := "value", short := some 'v', kind := .value, repeats := true },
    { long := "scope", kind := .value },
    { long := "trace", kind := .flag },
    helpOption]
  positionals := some 1

def requestSpec : Spec := { options := [helpOption], positionals := some 1, arePaths := true }

def listSpec : Spec := { options := [helpOption] }

def sortIdsSpec : Spec := { options := [helpOption], positionals := none }

def treeSpec : Spec := { options := [helpOption], positionals := some 1, arePaths := true }

def Stop.refusal (command : Option String) : Stop → Refusal
  | .usage => .usage
  | .help => .help command
  | .version => .version

def commandOf (name : String) (words : List String) : Except Refusal Command :=
  let scanWith (s : Spec) := (scan s none {} words).mapError (Stop.refusal (some name))
  match name with
  | "compute" => do
    let f ← scanWith computeSpec
    match f.positionals with
    | [blockId] => return .compute blockId (f.valuesOf "value") (f.value? "scope") (f.has "trace")
    | _ => throw .usage
  | "request" => do return .request (← scanWith requestSpec).positionals.head?
  | "list" => do
    let _ ← scanWith listSpec
    return .list
  | "sort-ids" => do return .sortIds (← scanWith sortIdsSpec).positionals
  | "tree" => do
    match (← scanWith treeSpec).positionals with
    | [file] => return .tree file
    | _ => throw .usage
  | _ => throw .usage

def helpOn : List String → Refusal
  | [] => .help none
  | [name] => if programSpec.commands.contains name then .help (some name) else .usage
  | _ => .usage

/-- Reads the words of a command line. `configured` is the configuration that the environment names;
an option goes before it. -/
def Invocation.ofWords (configured : Option String) (words : List String) :
    Except Refusal Invocation := do
  let f ← (scan programSpec none {} words).mapError (Stop.refusal none)
  match f.command with
  | none => throw .usage
  | some ("help", rest) => throw (helpOn rest)
  | some (name, rest) =>
    let command ← commandOf name rest
    let config := (f.value? "config").or configured
    if config = some "" then throw .usage
    return ⟨config, f.value? "custom", command⟩

end BuildingCode.CommandLine
