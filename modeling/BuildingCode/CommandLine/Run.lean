import BuildingCode.Clause.Assembly
import BuildingCode.Clause.Wire
import BuildingCode.CommandLine.Help
import BuildingCode.Config
import BuildingCode.Display.Trace
import BuildingCode.Service.Wire

/-! Running a command. The files that a command names and standard input are given beforehand, so
a run is a function from them to what is printed. -/
namespace BuildingCode.CommandLine
open Service Store

structure Surroundings where
  file : String → Option String
  input : Option String

inductive Outcome where
  | printed (text : String)
  | failed (message : String)
  | badUsage
deriving DecidableEq

def Outcome.exitCode : Outcome → Nat
  | printed _ => 0
  | failed _ => 1
  | badUsage => 2

def Outcome.output : Outcome → String
  | printed text => text
  | _ => ""

abbrev Attempt := Except String

def readFile (s : Surroundings) (path : String) : Attempt String :=
  match s.file path with
  | some text => .ok text
  | none => .error s!"reading {path}"

def readRecords (decode : Json → Option α) (text : String) : Attempt (List α) :=
  match (Json.parse text).bind (Json.asListOf decode) with
  | some rs => .ok rs
  | none => .error "the file is not a list of records"

def loadConfig (s : Surroundings) : Option String → Attempt Config
  | none => .ok {}
  | some path => (Config.ofFile (s.file path)).mapError ConfigFault.message

def seededStore (config : Config) (records : List CustomFormula) : Attempt FormulaStore :=
  (records.foldlM FormulaStore.insert { limits := config.limits }).mapError StoreFault.message

def startService (s : Surroundings) (config : Config) (custom : Option String) :
    Attempt Service := do
  let builtins ← (compileBuiltins config.limits).mapError (·.message)
  match custom with
  | none => return ⟨builtins, none, { store := { limits := config.limits } }⟩
  | some path =>
    let records ← readRecords CustomFormula.decode (← readFile s path)
    let store ← seededStore config records
    let lifetime := if config.cacheSeconds = 0 then .zero else .endless
    return ⟨builtins, some { lifetime, limits := config.limits }, { store }⟩

/-- Cuts a value at its first equals sign; blanks around the name do not count. -/
def entry (word : String) : Attempt (String × Formula.RawValue) :=
  match splitAtEquals word.toList with
  | (name, some value) => .ok (Text.trim name, .text value)
  | (_, none) => .error s!"expected NAME=VALUE, got '{word}'"

/-- Computes and looks the formula up once more, by the scope as it was given. -/
def computeTrace (service : Service) (request : Request) (digits : UInt32) : Attempt String := do
  let (outcome, service) := service.compute request
  let result ← outcome.mapError fun fault => String.intercalate "\n" fault.messages
  match (service.resolve (Text.trim request.blockId) request.scope).1 with
  | some (.ok c) => return Display.trace c.definition result digits
  | _ => throw s!"formula '{request.blockId}' is no longer available"

def line (text : String) : String := text ++ "\n"

def answerText (service : Service) (body : String) (digits : UInt32) : String :=
  if (body.toList.dropWhile Text.isSpace).head? = some '[' then
    line (Json.list ((service.answerBatch body digits).1.map Response.encode)).render
  else line (service.answerBody body digits).1.encode.render

def column (name : String) : String :=
  name ++ String.ofList (List.replicate (24 - name.length) ' ')

def parseIds (bound : UInt32) (words : List String) : Attempt (List ClauseId) :=
  words.mapM fun word => (ClauseId.parse bound word).mapError (·.message word)

def runCommand (s : Surroundings) (config : Config) (custom : Option String) :
    Command → Attempt String
  | .compute blockId words scope trace => do
    let service ← startService s config custom
    let request : Request := ⟨blockId, ← words.mapM entry, scope⟩
    if trace then computeTrace service request config.displayDigits
    else return line (service.answerBody request.encode.render config.displayDigits).1.encode.render
  | .request file => do
    let service ← startService s config custom
    let body ← match file with
      | some path => readFile s path
      | none => match s.input with
        | some text => .ok text
        | none => .error "reading standard input"
    return answerText service body config.displayDigits
  | .list => do
    let builtins ← (compileBuiltins config.limits).mapError (·.message)
    return String.join (builtins.map fun c =>
      line s!"{column c.definition.id} {c.definition.title}")
  | .sortIds words => do
    let ids ← parseIds config.maxTopSegment words
    return String.join ((ids.mergeSort fun a b => (a.order b).isLE).map fun id => line id.text)
  | .tree file => do
    let records ← readRecords Clause.Record.decode (← readFile s file)
    let forest ← (Clause.assemble records none).mapError (·.message)
    return String.join (forest.sorted.outline.map line)

def Invocation.run (s : Surroundings) (i : Invocation) : Outcome :=
  let attempt := do
    let config ← loadConfig s i.config
    runCommand s config i.custom i.command
  match attempt with
  | .ok text => .printed text
  | .error message => .failed message

def Invocation.files (i : Invocation) : List String :=
  let own := match i.command with
    | .request file => file.toList
    | .tree file => [file]
    | _ => []
  i.config.toList ++ i.custom.toList ++ own

def Invocation.readsInput (i : Invocation) : Bool := i.command = .request none

def Refusal.outcome (configured : Option String) : Refusal → Outcome
  | .usage => .badUsage
  | .help command => .printed (helpPage configured command)
  | .version => .printed versionText

def run (s : Surroundings) (configured : Option String) (words : List String) : Outcome :=
  match Invocation.ofWords configured words with
  | .ok i => i.run s
  | .error refusal => refusal.outcome configured

end BuildingCode.CommandLine
