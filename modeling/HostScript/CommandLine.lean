import HostScript.Catalog.Yaml
import HostScript.Command.Check
import HostScript.Command.Registry
import HostScript.Command.Show
import HostScript.CommandLine.Help
import HostScript.Config
import HostScript.Similar
import HostScript.Text.Lower

set_option autoImplicit false

namespace HostScript

inductive UsageError where
  | flag (cause : FlagError)
  | unknownCommand (name : String) (suggestions : List String)
  | extraArgument (arg : String) (command : Subcommand)
  | argumentCount (arity : Arity) (given : Nat)
  | missingFlags (names : List String)
  deriving DecidableEq, Repr

structure ProgramResult where
  stdout : Bytes := []
  stderr : Bytes := []
  code : Nat := 0
  files : List (String × Bytes) := []
  deriving DecidableEq, Repr

namespace CommandLine

/-- Whether an argument before the command is a flag whose value is the next argument. A flag that
is not known is taken for one. -/
def takesNext (arg : String) : Bool :=
  !arg.toList.contains '=' && match arg.toList with
    | '-' :: '-' :: name => !Subcommand.commonFlags.any fun f => f.name == String.ofList name && f.standsAlone
    | ['-', c] => !Subcommand.commonFlags.any fun f => f.letter == some c && f.standsAlone
    | _ => false

def isFlag (arg : String) : Bool := arg.startsWith "-"

def firstWord? (before : List String) : List String → Option (String × List String × List String)
  | [] => none
  | arg :: rest =>
    if arg == "--" then none
    else if takesNext arg then
      match rest with
      | value :: next :: rest => firstWord? (before ++ [arg, value]) (next :: rest)
      | _ => none
    else if isFlag arg || arg.isEmpty then firstWord? (before ++ [arg]) rest
    else some (arg, before, rest)
termination_by args => args.length

/-- Names that come close to one that is not known, by their bytes, or begin with it. -/
def suggestions (typed : String) : List String :=
  let typed := lower typed
  let names := Subcommand.all.map Subcommand.name ++ ["completion"]
  names.filter fun name => Similar.distance (utf8 typed) (utf8 name) ≤ 2 || name.startsWith typed

end CommandLine

namespace UsageError

def suggestionText (names : List String) : String :=
  if names.isEmpty then ""
  else "\n\nDid you mean this?\n" ++ String.join (names.map fun name => "\t" ++ name ++ "\n")

def message : UsageError → String
  | .flag cause => cause.message
  | .unknownCommand name suggestions =>
    "unknown command " ++ Quoted.string name ++ " for " ++ Quoted.string programName
      ++ suggestionText suggestions
  | .extraArgument arg command =>
    "unknown command " ++ Quoted.string arg ++ " for "
      ++ Quoted.string (programName ++ " " ++ command.name)
  | .argumentCount (.atLeast n) given =>
    "requires at least " ++ toString n ++ " arg(s), only received " ++ toString given
  | .argumentCount (.atMost n) given =>
    "accepts at most " ++ toString n ++ " arg(s), received " ++ toString given
  | .argumentCount (.exactly n) given =>
    "accepts " ++ toString n ++ " arg(s), received " ++ toString given
  | .argumentCount .nothing given => "accepts 0 arg(s), received " ++ toString given
  | .missingFlags names =>
    "required flag(s) " ++ String.intercalate ", " (names.map Quoted.string) ++ " not set"

def hint : UsageError → String
  | .unknownCommand .. => "Run '" ++ programName ++ " --help' for usage.\n"
  | _ => ""

def result (e : UsageError) : ProgramResult where
  stderr := utf8 ("Error: " ++ e.message ++ "\n" ++ e.hint ++ e.message ++ "\n")
  code := Command.exitUsage

end UsageError

def Arity.complaint? (command : Subcommand) (args : List String) : Option UsageError :=
  let fits := match command.arity with
    | .nothing => args.isEmpty
    | .exactly n => args.length == n
    | .atLeast n => n ≤ args.length
    | .atMost n => args.length ≤ n
  if fits then none
  else match command.arity, args with
    | .nothing, arg :: _ => some (.extraArgument arg command)
    | arity, _ => some (.argumentCount arity args.length)

namespace CommandLine

def ofOutcome (o : Outcome) : ProgramResult where
  stdout := o.stdout
  stderr := o.stderr ++ match o.error with
    | some e => e.message ++ utf8 "\n"
    | none => []
  code := o.code
  files := o.files

def perform (d : Disk) (s : Settings) (flags : ParsedFlags) (command : Subcommand) : Outcome :=
  let args := flags.operands
  let json := flags.switch "json"
  match command with
  | .check => Command.check d s none ⟨json, flags.switch "strict", flags.all "exclude"⟩ args
  | .classify => Command.classify d (args.getD 0 "") (args.getD 1 "") json
  | .doc => Command.doc d s none args (flags.switch "missing")
  | .index =>
    if flags.isGiven "lookup" then Command.lookup d (flags.text "db") (flags.whole "lookup")
    else Command.index d s none (flags.text "db")
  | .lsp => {}
  | .scripts => Command.scripts d s none (args.getD 0 "") json

def withConfig (d : Disk) (home : String) (environment : Environment) (flags : ParsedFlags)
    (next : Option Config → ProgramResult) : ProgramResult :=
  match Config.find d home environment (flags.text "config") with
  | .error e => { stderr := utf8 (e.message ++ "\n"), code := Command.exitUsage }
  | .ok none => next none
  | .ok (some config) =>
    let result := next config
    { result with stderr := utf8 ("Using config file: " ++ config.path ++ "\n") ++ result.stderr }

def complaint? (flags : ParsedFlags) (command : Subcommand) : Option UsageError :=
  let missing := command.requiredFlags.filter fun name => !flags.isGiven name
  (Arity.complaint? command flags.operands).or
    (if missing.isEmpty then none else some (.missingFlags missing))

/-- Runs a command with its flags. The settings file is read before the arguments are counted. -/
def runCommand (d : Disk) (home : String) (environment : Environment) (flags : ParsedFlags)
    (command : Subcommand) : ProgramResult :=
  withConfig d home environment flags fun config =>
    match complaint? flags command with
    | some e => e.result
    | none => ofOutcome (perform d (Sources.settings ⟨flags, environment, config⟩) flags command)

def helpWord : String := "help"

def help (topic : List String) : ProgramResult :=
  match topic with
  | [] => { stdout := utf8 (Help.page none) }
  | name :: _ =>
    match Subcommand.ofName? name with
    | some c => { stdout := utf8 (Help.page c) }
    | none =>
      let names := String.intercalate " " (topic.map fun name => "\x60" ++ name ++ "\x60")
      { stderr := utf8 ("Unknown help topic [" ++ names ++ "]\n" ++ Help.lines Help.programUsage) }

def withFlags (flags : List Flag) (owner : Option Subcommand) (args : List String)
    (next : ParsedFlags → ProgramResult) : ProgramResult :=
  match ParsedFlags.parse flags args with
  | .error e => (UsageError.flag e).result
  | .ok parsed => if parsed.switch "help" then { stdout := utf8 (Help.page owner) } else next parsed

def pathOfArgument (arg : String) : String :=
  let tail := "/...".toList
  if tail.isSuffixOf arg.toList then String.ofList (arg.toList.take (arg.length - tail.length)) else arg

/-- The paths that a run of a command may look at: its settings file, the root and the catalog that
its settings name, and its arguments. -/
def places (d : Disk) (home : String) (environment : Environment) (args : List String) : List String :=
  match firstWord? [] args with
  | none => []
  | some (word, before, after) =>
    match (Subcommand.ofName? word).map fun c => ParsedFlags.parse c.flags (before ++ after) with
    | some (.ok flags) =>
      let config := ((Config.find d home environment (flags.text "config")).toOption).join
      let settings := Sources.settings ⟨flags, environment, config⟩
      [flags.text "config", settings.root, settings.catalog, flags.text "db"]
        ++ Config.usualPaths home ++ flags.operands.map pathOfArgument
    | _ => []

def programFlags : List Flag := Subcommand.commonFlags ++ [Subcommand.helpFlag programName]

def run (d : Disk) (home : String) (environment : Environment) (args : List String) : ProgramResult :=
  match firstWord? [] args with
  | none => withFlags programFlags none args fun _ => help []
  | some (word, before, after) =>
    if word == helpWord then
      withFlags programFlags none (before ++ after) fun flags =>
        withConfig d home environment flags fun _ => help flags.operands
    else match Subcommand.ofName? word with
      | none => (UsageError.unknownCommand word (suggestions word)).result
      | some command =>
        withFlags command.flags command (before ++ after) fun flags =>
          runCommand d home environment flags command

end CommandLine

end HostScript
