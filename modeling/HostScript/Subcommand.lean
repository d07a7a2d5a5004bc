import HostScript.Flag

set_option autoImplicit false

namespace HostScript

def programName : String := "futurec"

inductive Subcommand where
  | check | classify | doc | index | lsp | scripts
  deriving DecidableEq, Repr

inductive Arity where
  | nothing
  | exactly (n : Nat)
  | atLeast (n : Nat)
  | atMost (n : Nat)
  deriving DecidableEq, Repr

namespace Subcommand

def all : List Subcommand := [.check, .classify, .doc, .index, .lsp, .scripts]

def name : Subcommand → String
  | .check => "check"
  | .classify => "classify"
  | .doc => "doc"
  | .index => "index"
  | .lsp => "lsp"
  | .scripts => "scripts"

def ofName? (name : String) : Option Subcommand := all.find? (·.name == name)

def arity : Subcommand → Arity
  | .check => .atLeast 1
  | .classify => .exactly 2
  | .doc => .atMost 1
  | .index | .lsp => .nothing
  | .scripts => .exactly 1

def ownFlags : Subcommand → List Flag
  | .check => [
      { name := "json", kind := .switch, usage := "Output diagnostics as JSON." },
      { name := "strict", kind := .switch
        usage := "Report warnings as well as errors and fail on them." },
      { name := "exclude", kind := .repeated
        usage := "Glob pattern for files to exclude (may be repeated)." }]
  | .classify => [
      { name := "json", kind := .switch, usage := "Output the classification as JSON." }]
  | .doc => [
      { name := "missing", kind := .switch, usage := "List catalog entries without documentation." }]
  | .index => [
      { name := "db", kind := .text, usage := "SQLite database path." },
      { name := "lookup", kind := .whole
        usage := "Print the entries of a script number instead of indexing." }]
  | .lsp => [
      { name := "stdio", kind := .switch
        usage := "Use stdin/stdout for LSP communication (default behavior)" },
      { name := "port", kind := .whole, usage := "TCP port for LSP server (use instead of --stdio)" },
      { name := "log-file", kind := .text, usage := "Write logs to this file instead of stderr" },
      { name := "verbose", kind := .tally, letter := some 'v'
        usage := "Increase log verbosity (repeatable)" },
      { name := "debounce", kind := .duration, fallback := "300ms"
        usage := "Delay between the last edit and the diagnostics run" },
      { name := "check-timeout", kind := .duration, fallback := "2m0s"
        usage := "Bound on whole-graph checks (0 disables it)" }]
  | .scripts => [{ name := "json", kind := .switch, usage := "Output scripts as JSON." }]

def requiredFlags : Subcommand → List String
  | .index => ["db"]
  | _ => []

def commonFlags : List Flag := [
  { name := "config", kind := .text, usage := "config file (default is $HOME/.futurec.yaml)" },
  { name := "color", kind := .text, fallback := "\"auto\""
    usage := "Control colored output: \"auto\", \"always\", or \"never\"." },
  { name := "root", kind := .text, fallback := "\".\""
    usage := "Workspace root scanned for host files." },
  { name := "catalog", kind := .text, usage := "Parser function catalog file." },
  { name := "extensions", kind := .names, fallback := "[.cpp]"
    usage := "Host file extensions scanned for scripts." },
  { name := "workers", kind := .whole
    usage := "Concurrent script parses in whole-graph checks (0 = number of CPUs)." }]

def helpFlag (owner : String) : Flag :=
  { name := "help", kind := .switch, letter := some 'h', usage := "help for " ++ owner }

def flags (c : Subcommand) : List Flag := c.ownFlags ++ commonFlags ++ [helpFlag c.name]

end Subcommand

end HostScript
