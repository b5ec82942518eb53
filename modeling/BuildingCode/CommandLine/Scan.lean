/-! Command-line words as options, positional values and a command. Words are taken from left to
right and the first fault ends the scan, as does a request for help. -/
namespace BuildingCode.CommandLine

inductive OptionKind where
  | value | flag | help | version
deriving DecidableEq

structure OptionSpec where
  long : String
  short : Option Char := none
  kind : OptionKind
  repeats : Bool := false
  isPath : Bool := false
deriving DecidableEq

structure Spec where
  options : List OptionSpec
  commands : List String := []
  positionals : Option Nat := some 0
  arePaths : Bool := false

inductive Stop where
  | usage
  | help
  | version
deriving DecidableEq

structure Found where
  options : List (String × String) := []
  positionals : List String := []
  command : Option (String × List String) := none

namespace Found

def has (f : Found) (option : String) : Bool := f.options.any (·.1 == option)

def value? (f : Found) (option : String) : Option String := f.options.lookup option

def valuesOf (f : Found) (option : String) : List String :=
  (f.options.filter (·.1 == option)).map (·.2)

def addOption (f : Found) (o : OptionSpec) (value : String) : Except Stop Found :=
  if (o.isPath && value == "") || (!o.repeats && f.has o.long) then .error .usage
  else .ok { f with options := f.options ++ [(o.long, value)] }

def addPositional (s : Spec) (f : Found) (value : String) : Except Stop Found :=
  let room := match s.positionals with
    | some most => decide (f.positionals.length < most)
    | none => true
  if room && !(s.arePaths && value == "") then
    .ok { f with positionals := f.positionals ++ [value] }
  else .error .usage

end Found

inductive Word where
  | escape
  | option (o : OptionSpec) (attached : Option String)
  | unknown
  | plain

def splitAtEquals (cs : List Char) : String × Option String :=
  match cs.dropWhile (· != '=') with
  | [] => (String.ofList cs, none)
  | _ :: value => (String.ofList (cs.takeWhile (· != '=')), some (String.ofList value))

def longWord (s : Spec) (cs : List Char) : Word :=
  let (name, attached) := splitAtEquals cs
  match s.options.find? (·.long == name) with
  | some o => if attached.isSome && o.kind != .value then .unknown else .option o attached
  | none => .unknown

def shortWord (s : Spec) (c : Char) (rest : List Char) : Word :=
  match s.options.find? (·.short == some c) with
  | some o => .option o (match rest with
    | [] => none
    | '=' :: value => some (String.ofList value)
    | value => some (String.ofList value))
  | none => .unknown

def Word.ofString (s : Spec) (word : String) : Word :=
  match word.toList with
  | ['-', '-'] => .escape
  | '-' :: '-' :: cs => longWord s cs
  | '-' :: c :: cs => shortWord s c cs
  | _ => .plain

/-- Takes an option. One that still needs its value becomes the pending one. -/
def takeOption (f : Found) (o : OptionSpec) (attached : Option String) :
    Except Stop (Option OptionSpec × Found) :=
  match o.kind, attached with
  | .help, _ => .error .help
  | .version, _ => .error .version
  | .flag, none => (f.addOption o "").map (none, ·)
  | .flag, some _ => .error .usage
  | .value, none => .ok (some o, f)
  | .value, some v => (f.addOption o v).map (none, ·)

def scanPlain (s : Spec) : Found → List String → Except Stop Found
  | f, [] => .ok f
  | f, word :: words => do scanPlain s (← f.addPositional s word) words

/-- Scans one level. A pending option takes the next word unless that looks like an option. -/
def scan (s : Spec) : (pending : Option OptionSpec) → Found → List String → Except Stop Found
  | none, f, [] => .ok f
  | some _, _, [] => .error .usage
  | some o, f, word :: words =>
    match Word.ofString s word with
    | .plain => do scan s none (← f.addOption o word) words
    | _ => .error .usage
  | none, f, word :: words =>
    if s.commands.contains word then .ok { f with command := some (word, words) }
    else match Word.ofString s word with
      | .escape => scanPlain s f words
      | .option o attached => do
        let (pending, f) ← takeOption f o attached
        scan s pending f words
      | .unknown => .error .usage
      | .plain => do scan s none (← f.addPositional s word) words

end BuildingCode.CommandLine
