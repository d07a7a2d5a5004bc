import HostScript.Command
import HostScript.Config.Dotenv
import HostScript.Config.Hcl
import HostScript.Config.Ini
import HostScript.Config.Properties
import HostScript.Flag
import HostScript.Text.Lower
import HostScript.Yaml.Decode

/-!
Settings and where they come from: a flag counts before the environment, the environment before the
settings file, and that before what is built in.
-/

set_option autoImplicit false

namespace HostScript

abbrev Environment := List (String × String)

inductive ConfigFormat where
  | json | toml | yaml | properties | hcl | dotenv | ini
  deriving DecidableEq, Repr

inductive SyntaxError where
  | json (cause : Config.Json.JsonError)
  | toml (cause : Config.Toml.TomlError)
  | yaml (cause : Yaml.Error)
  | properties (cause : Config.Properties.PropertiesError)
  | hcl (cause : Config.Hcl.HclError)
  | dotenv (cause : Config.Dotenv.DotenvError)
  | ini (cause : Config.Ini.IniError)
  deriving DecidableEq, Repr

def SyntaxError.message : SyntaxError → String
  | .json cause => cause.message
  | .toml cause => cause.message
  | .yaml cause => cause.message
  | .properties cause => cause.message
  | .hcl cause => cause.message
  | .dotenv cause => cause.message
  | .ini cause => cause.message

def ConfigFormat.parse (environment : Environment) (text : Bytes) :
    ConfigFormat → Except SyntaxError (List (String × Value))
  | .json => (Config.Json.parse text).mapError .json
  | .toml => (Config.Toml.parse text.toText).mapError .toml
  | .yaml =>
    (Yaml.Decode.ofBytes text [] (Yaml.Decode.table "map[string]interface \x7b\x7d")).mapError .yaml
  | .properties => (Config.Properties.parse environment text.toText).mapError .properties
  | .hcl => (Config.Hcl.parse text).mapError .hcl
  | .dotenv => (Config.Dotenv.parse environment text.toText).mapError .dotenv
  | .ini => (Config.Ini.parse text.toText).mapError .ini

inductive ConfigError where
  | file (cause : FileError)
  | unsupported (type : String)
  | malformed (cause : SyntaxError)
  deriving DecidableEq, Repr

def ConfigError.message : ConfigError → String
  | .file cause => "reading config: " ++ cause.message
  | .unsupported type => "reading config: Unsupported Config Type " ++ Quoted.string type
  | .malformed cause => "reading config: While parsing config: " ++ cause.message

structure Config where
  path : String
  entries : List (String × Value)

namespace Config

def types : List (String × ConfigFormat) :=
  [("json", .json), ("toml", .toml), ("yaml", .yaml), ("yml", .yaml), ("properties", .properties),
    ("props", .properties), ("prop", .properties), ("hcl", .hcl), ("tfvars", .hcl), ("dotenv", .dotenv),
    ("env", .dotenv), ("ini", .ini)]

def usualName : String := ".futurec"

def load (d : Disk) (environment : Environment) (path : String) : Except ConfigError Config := do
  let type := String.ofList ((Path.extension path).toList.drop 1)
  match types.lookup type with
  | none => throw (.unsupported type)
  | some format =>
    let text ← (d.read path).mapError .file
    return ⟨path, ← (format.parse environment text).mapError .malformed⟩

def usualPaths (home : String) : List String :=
  types.map fun (type, _) => Path.join home (usualName ++ "." ++ type)

def find (d : Disk) (home : String) (environment : Environment) (named : String) :
    Except ConfigError (Option Config) :=
  let outside := environment ++ [("HOME", home)]
  if !named.isEmpty then (load d outside named).map some
  else
    let isFile (path : String) : Bool := (d.look "stat" path).toOption.any fun t => !t.isDirectory
    match (usualPaths home).find? isFile with
    | some path => (load d outside path).map some
    | none => .ok none

/-- The entry of a key, without regard to case. A key that is not written in lower case counts before
one that is, and an entry without a value does not count. -/
def find? (entries : List (String × Value)) (key : String) : Option Value :=
  let same := entries.filter fun e => lower e.1 == key
  (((same.find? fun e => e.1 != key).or same.head?).map (·.2)).filter fun value => !value.isNothing

/-- The value of a key. A dot in the key leads into a nested table, unless the file has the whole
key. -/
def value? (c : Config) (key : String) : Option Value :=
  (find? c.entries key).or do
    let (outer, inner) ← cutString? '.' key
    match ← find? c.entries outer with
    | .table entries => find? entries inner
    | _ => none

end Config

def words (s : String) : List String := wordsOf isSpace [] s.toList

structure Sources where
  flags : ParsedFlags
  environment : Environment
  config : Option Config

namespace Sources

def keys : List String := ["root", "catalog", "extensions", "workers", "debounce", "check.timeout"]

def variableName (key : String) : String :=
  "FUTUREC_" ++ (key.map fun c => if c == '.' then '_' else c.toUpper)

/-- What the environment says of a key. An empty variable counts as not set. -/
def fromEnvironment? (s : Sources) (key : String) : Option String :=
  (s.environment.lookup (variableName key)).filter (!·.isEmpty)

def fromConfig? (s : Sources) (key : String) : Option Value := s.config.bind (·.value? key)

def text (s : Sources) (key fallback : String) : String :=
  match s.flags.value? key, s.fromEnvironment? key, s.fromConfig? key with
  | some value, _, _ => value
  | none, some value, _ => value
  | none, none, some value => value.toText
  | none, none, none => fallback

def names (s : Sources) (key : String) (fallback : List String) : List String :=
  match s.flags.names? key, s.fromEnvironment? key, s.fromConfig? key with
  | some items, _, _ => items
  | none, some value, _ => words value
  | none, none, some value => value.toWords
  | none, none, none => fallback

/-- Whether the environment has a value for the table that a key leads into. It hides what a settings
file says of the key. -/
def isHidden (s : Sources) (key : String) : Bool :=
  (cutString? '.' key).any fun (outer, _) => (s.fromEnvironment? outer).isSome

def duration (s : Sources) (key : String) (fallback : Int) : Int :=
  match s.fromEnvironment? key, s.isHidden key, s.fromConfig? key with
  | some value, _, _ => Duration.lenient value
  | none, true, _ => 0
  | none, false, some value => value.toNanoseconds
  | none, false, none => fallback

def usualTimeout : Int := 120000000000

def leastTimeout : Int := 1000000

def isExpired (timeout : Int) : Bool := 0 < timeout && timeout < leastTimeout

def settings (s : Sources) : Settings where
  root := s.text "root" "."
  catalog := s.text "catalog" ""
  extensions := s.names "extensions" HostFiles.defaultExtensions
  expired := isExpired (s.duration "check.timeout" usualTimeout)
  color := (ColorMode.ofName? ((s.flags.value? "color").getD "auto")).getD .auto

end Sources

end HostScript
