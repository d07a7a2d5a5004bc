import HostScript.Subcommand

set_option autoImplicit false

namespace HostScript.Help

def programText : List String := [
  "futurec finds, parses and checks the FutureC scripts embedded in host",
  "files (SCRIPT: ... ENDSCRIPT blocks) and serves the results to editors",
  "through the Language Server Protocol.",
  "",
  "Getting started:",
  "  futurec lsp                        Start the language server on stdio",
  "  futurec check main.cpp             Check every script reachable from main.cpp",
  "  futurec scripts main.cpp           List the reachable scripts in order",
  "  futurec classify main.cpp 12:8     Classify the token under a cursor",
  "  futurec index --db scripts.db      Export the script registry to SQLite",
  "  futurec doc S.GetField             Show parser function documentation",
  "",
  "Configuration is read from $HOME/.futurec.yaml (or --config) and from",
  "FUTUREC_* environment variables:",
  "  catalog        Parser function catalog file",
  "                 (default .futurec/scriptautocompletedefs.json under the root)",
  "  extensions     Host file extensions scanned for scripts (default [.cpp])",
  "  workers        Concurrent script parses in whole-graph checks",
  "  debounce       Delay before live diagnostics run (default 300ms)",
  "  check.timeout  Bound on whole-graph checks (default 2m)"]

def usageLine : Subcommand → String
  | .check => "check [flags] FILE..."
  | .classify => "classify [flags] FILE LINE:COL"
  | .doc => "doc [flags] [NS[.FUNC]]"
  | .index => "index --db PATH [flags]"
  | .lsp => "lsp [flags]"
  | .scripts => "scripts [flags] FILE"

def summary : Subcommand → String
  | .check => "Check every script reachable from the given files"
  | .classify => "Classify the token under a cursor position"
  | .doc => "Show parser function documentation"
  | .index => "Export the script registry to SQLite"
  | .lsp => "Start the futurec Language Server Protocol server"
  | .scripts => "List the scripts reachable from a file"

def commandText : Subcommand → List String
  | .check => [
      "Check every script reachable from the given host files.",
      "",
      "Each file is a focal document: its own blocks are checked together with",
      "every script they reach through includescript, wherever it lives under the",
      "workspace root. Scripts are parsed with workspace-wide checks enabled",
      "(dangling includes, duplicate ids, unknown hook targets) and only errors",
      "are reported. With --strict warnings are reported too and fail the check.",
      "",
      "A path ending in \"/...\" expands to every host file below that directory.",
      "",
      "Exit codes:",
      "  0  No problems found",
      "  1  One or more problems were reported",
      "  2  Bad invocation (invalid flags, unreadable files)",
      "",
      "Examples:",
      "  futurec check main.cpp                  Check main.cpp and its includes",
      "  futurec check --root ../Standard a.cpp  Resolve includes in another tree",
      "  futurec check --json ./...              Check every host file, JSON output",
      "  futurec check --strict main.cpp         Report warnings as well"]
  | .classify => [
      "Classify the token under a cursor position the way the language",
      "server does for hover and completion.",
      "",
      "LINE and COL are 1-based. The kind is one of variable, userFunction,",
      "parserFunction, includeScript, undefined or error.",
      "",
      "Examples:",
      "  futurec classify main.cpp 12:8",
      "  futurec classify --json main.cpp 3:15"]
  | .doc => [
      "Show documentation for the parser functions scripts can call.",
      "",
      "With no argument, lists the namespaces of the catalog. With a namespace",
      "name, documents every function in it. With a qualified name such as",
      "S.GetField, documents that function.",
      "",
      "The catalog is the configured catalog file, else the first of",
      ".futurec/scriptautocompletedefs.\x7bjson,yaml,yml\x7d under the workspace root,",
      "else the built-in catalog.",
      "",
      "Use --missing to list catalog entries without documentation; the command",
      "then exits with status 1 when any are found.",
      "",
      "Examples:",
      "  futurec doc                  List namespaces",
      "  futurec doc S                Document the S namespace",
      "  futurec doc S.GetField       Document one function",
      "  futurec doc --missing        Find undocumented entries"]
  | .index => [
      "Export every script block under the workspace root to a SQLite",
      "database, together with its includescript references and hook markers.",
      "An existing database is replaced.",
      "",
      "With --lookup the database is not rebuilt; the command prints where the",
      "given script number is defined, which blocks insert into its hooks, and",
      "which scripts include it.",
      "",
      "Examples:",
      "  futurec index --db scripts.db --root ../Standard",
      "  futurec index --db scripts.db --lookup 107"]
  | .lsp => [
      "Start an LSP server for FutureC scripts embedded in host files.",
      "",
      "The language server provides live diagnostics, hover documentation for",
      "parser functions and included scripts, completion, signature help,",
      "go-to-definition and references for script numbers, document and",
      "workspace symbols, folding ranges, quick fixes, and the custom requests",
      "used by the editor extension (custom/GetDiagnosticsForAllScripts,",
      "custom/GetScriptNumber, custom/getHookStart, ...).",
      "",
      "Transport modes:",
      "  --stdio      Use stdin/stdout for LSP communication (default)",
      "  --port N     Listen for an LSP client on TCP port N",
      "",
      "Logging goes to stderr, or to --log-file. Repeat -v for more detail.",
      "",
      "Examples:",
      "  futurec lsp                               Start with stdio transport",
      "  futurec lsp --port 7998                   Start with TCP on port 7998",
      "  futurec lsp -vv --log-file /tmp/lsp.log   Debug logging to a file"]
  | .scripts => [
      "List the scripts reachable from a host file.",
      "",
      "The file's own blocks come first in textual order, followed by the scripts",
      "they include, transitively, in discovery order. Includes of scripts that",
      "are not defined anywhere under the workspace root are reported on stderr.",
      "",
      "Examples:",
      "  futurec scripts main.cpp",
      "  futurec scripts --json --root ../Standard main.cpp"]

def valueWord : FlagKind → String
  | .text => "string"
  | .switch => ""
  | .whole => "int"
  | .names => "strings"
  | .repeated => "stringArray"
  | .tally => "count"
  | .duration => "duration"

def flagHead (f : Flag) : String :=
  let lead := match f.letter with
    | some c => "  -" ++ String.singleton c ++ ", --"
    | none => "      --"
  let word := valueWord f.kind
  lead ++ f.name ++ if word.isEmpty then "" else " " ++ word

def padded (width : Nat) (s : String) : String :=
  s ++ String.ofList (List.replicate (width - s.length) ' ')

def flagLines (flags : List Flag) : List String :=
  let sorted := flags.mergeSort fun a b => !decide (b.name < a.name)
  let width := ((sorted.map fun f => (flagHead f).length).max?).getD 0
  sorted.map fun f => padded width (flagHead f) ++ "   " ++ f.usage
    ++ if f.fallback.isEmpty then "" else " (default " ++ f.fallback ++ ")"

def part (title : String) (lines : List String) : List String := "" :: title :: lines

def commandLines : List String :=
  let others := [("completion", "Generate the autocompletion script for the specified shell"),
    ("help", "Help about any command")]
  let all := Subcommand.all.map (fun c => (c.name, summary c)) ++ others
  (all.mergeSort fun a b => !decide (b.1 < a.1)).map fun (name, text) =>
    "  " ++ padded 11 name ++ " " ++ text

def programUsage : List String :=
  ["Usage:", "  " ++ programName ++ " [command]"]
    ++ part "Available Commands:" commandLines
    ++ part "Flags:" (flagLines (Subcommand.commonFlags ++ [Subcommand.helpFlag programName]))
    ++ ["", "Use \"" ++ programName ++ " [command] --help\" for more information about a command."]

def commandUsage (c : Subcommand) : List String :=
  ["Usage:", "  " ++ programName ++ " " ++ usageLine c]
    ++ part "Flags:" (flagLines (c.ownFlags ++ [Subcommand.helpFlag c.name]))
    ++ part "Global Flags:" (flagLines Subcommand.commonFlags)

def lines (ls : List String) : String := String.join (ls.map (· ++ "\n"))

def page : Option Subcommand → String
  | none => lines (programText ++ [""] ++ programUsage)
  | some c => lines (commandText c ++ [""] ++ commandUsage c)

end HostScript.Help
