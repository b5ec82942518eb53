import BuildingCode.CommandLine.Arguments
import BuildingCode.Text.Styled

/-! The help texts of the program and of its commands. -/
namespace BuildingCode.CommandLine

def versionText : String := "clause_calc_core 0.1.0\n"

structure OptionText where
  short : Option Char := none
  long : String
  value : String := ""
  about : String

def spaces (n : Nat) : String := String.ofList (List.replicate n ' ')

def hanging (indent : Nat) (s : String) : String :=
  String.ofList (s.toList.flatMap fun c =>
    if c == '\n' then c :: List.replicate indent ' ' else [c])

namespace OptionText

def name (o : OptionText) : String := "--" ++ o.long

def width (o : OptionText) : Nat := (o.name ++ o.value).length

def line (width : Nat) (o : OptionText) : String :=
  let short := match o.short with
    | some c => Text.bold (String.ofList ['-', c]) ++ ", "
    | none => spaces 4
  spaces 2 ++ short ++ Text.bold o.name ++ o.value ++ spaces (width - o.width + 2) ++
    hanging (width + 8) o.about

end OptionText

def optionLines (options : List OptionText) : List String :=
  let width := (options.map OptionText.width).foldl max 0
  "Options:" :: options.map (OptionText.line width)

def helpEntry : OptionText := { short := some 'h', long := "help", about := "Print help" }

def programHelp (configured : Option String) : List String :=
  let shown := configured.getD ""
  ["Building-code calculator and clause tools", "", "Usage: clausecalc [OPTIONS] <COMMAND>", "",
    "Commands:",
    "  compute   Compute a formula from command-line values",
    "  request   Answer a JSON compute request (a single object or an array) from a file or stdin",
    "  list      List the built-in formulas",
    "  sort-ids  Sort clause numbers and print them one per line",
    "  tree      Print the clause tree assembled from a JSON array of records",
    "  help      Print this message or the help of the given subcommand(s)", ""] ++
  optionLines [
    { short := some 'c', long := "config", value := " <FILE>",
      about := s!"Engine config (JSON) [env: CLAUSECALC_CONFIG={shown}]" },
    { long := "custom", value := " <FILE>",
      about := "Custom formula records (JSON array) to serve alongside the built-ins" },
    helpEntry,
    { short := some 'V', long := "version", about := "Print version" }]

def commandHelp : String → List String
  | "compute" =>
    ["Compute a formula from command-line values", "",
      "Usage: clausecalc compute [OPTIONS] <BLOCK_ID>", "",
      "Arguments:", "  <BLOCK_ID>  Formula id", ""] ++
    optionLines [
      { short := some 'v', long := "value", value := " <NAME=VALUE>",
        about := "Parameter value, `name=value` (repeatable)" },
      { long := "scope", value := " <SCOPE>", about := "Scope for custom formulas" },
      { long := "trace", about := "Print a readable calculation trace instead of JSON" },
      helpEntry]
  | "request" =>
    ["Answer a JSON compute request (a single object or an array) from a file or stdin", "",
      "Usage: clausecalc request [FILE]", "",
      "Arguments:", "  [FILE]  Request file; stdin when omitted", ""] ++ optionLines [helpEntry]
  | "list" =>
    ["List the built-in formulas", "", "Usage: clausecalc list", ""] ++ optionLines [helpEntry]
  | "sort-ids" =>
    ["Sort clause numbers and print them one per line", "",
      "Usage: clausecalc sort-ids [IDS]...", "",
      "Arguments:", "  [IDS]...  ", ""] ++ optionLines [helpEntry]
  | "tree" =>
    ["Print the clause tree assembled from a JSON array of records", "",
      "Usage: clausecalc tree <FILE>", "",
      "Arguments:", "  <FILE>  ", ""] ++ optionLines [helpEntry]
  | _ =>
    ["Print this message or the help of the given subcommand(s)", "",
      "Usage: clausecalc help [COMMAND]...", "",
      "Arguments:", "  [COMMAND]...  Print help for the subcommand(s)"]

def helpPage (configured : Option String) (command : Option String) : String :=
  Text.unstyled
    (String.join ((command.elim (programHelp configured) commandHelp).map (· ++ "\n")))

end BuildingCode.CommandLine
