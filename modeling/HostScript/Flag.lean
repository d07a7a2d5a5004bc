import HostScript.Text.CommaList
import HostScript.Text.Duration

/-!
Flags of a command line. Flags and operands may be mixed; two dashes alone end the flags.
-/

set_option autoImplicit false

namespace HostScript

inductive FlagKind where
  | text
  | switch
  | whole
  | names
  | repeated
  | tally
  | duration
  deriving DecidableEq, Repr

structure Flag where
  name : String
  kind : FlagKind
  letter : Option Char := none
  usage : String := ""
  fallback : String := ""
  deriving DecidableEq, Repr

inductive FlagError where
  | badSyntax (arg : String)
  | unknown (name : String)
  | unknownLetter (letter : Char) (letters : String)
  | noValue (arg : String)
  | badValue (value shown cause : String)
  deriving DecidableEq, Repr

def FlagError.message : FlagError → String
  | .badSyntax arg => "bad flag syntax: " ++ arg
  | .unknown name => "unknown flag: --" ++ name
  | .unknownLetter letter letters =>
    "unknown shorthand flag: " ++ Quoted.char letter ++ " in -" ++ letters
  | .noValue arg => "flag needs an argument: " ++ arg
  | .badValue value shown cause =>
    "invalid argument " ++ Quoted.string value ++ " for " ++ Quoted.string shown ++ " flag: " ++ cause

structure ParsedFlags where
  given : List (String × String) := []
  operands : List String := []
  deriving DecidableEq, Repr

namespace Flag

def standsAlone (f : Flag) : Bool := f.kind == .switch || f.kind == .tally

def impliedValue (f : Flag) : String := if f.kind == .tally then "+1" else "true"

def shown (f : Flag) : String :=
  match f.letter with
  | some c => "-" ++ String.singleton c ++ ", --" ++ f.name
  | none => "--" ++ f.name

def truth? (value : String) : Option Bool :=
  if ["1", "t", "T", "TRUE", "true", "True"].contains value then some true
  else if ["0", "f", "F", "FALSE", "false", "False"].contains value then some false
  else none

def complaint? (kind : FlagKind) (value : String) : Option String :=
  let number : Option String := match Number.withBase value with
    | .ok _ => none
    | .error fault => some (Number.complaint value fault)
  match kind with
  | .text | .repeated => none
  | .switch =>
    if (truth? value).isSome then none
    else some ("strconv.ParseBool: parsing " ++ Quoted.string value ++ ": invalid syntax")
  | .whole => number
  | .tally => if value == "+1" then none else number
  | .names => match CommaList.parse value with
    | .ok _ => none
    | .error fault => some fault.message
  | .duration => match Duration.parse value with
    | .ok _ => none
    | .error fault => some (fault.message value)

def take (f : Flag) (value : String) : Except FlagError (String × String) :=
  match complaint? f.kind value with
  | none => .ok (f.name, value)
  | some cause => .error (.badValue value f.shown cause)

def withValue (f : Flag) (arg : String) (written : Option String) (rest : List String) :
    Except FlagError ((String × String) × List String) := do
  match written with
  | some value => return (← f.take value, rest)
  | none =>
    if f.standsAlone then return (← f.take f.impliedValue, rest)
    else match rest with
      | value :: rest => return (← f.take value, rest)
      | [] => throw (.noValue arg)

def splitLong (cs : List Char) : String × Option String :=
  match cutString? '=' (String.ofList cs) with
  | some (name, value) => (name, some value)
  | none => (String.ofList cs, none)

def long (flags : List Flag) (cs : List Char) (rest : List String) :
    Except FlagError ((String × String) × List String) :=
  let arg := "--" ++ String.ofList cs
  if cs.head? == some '-' || cs.head? == some '=' then .error (.badSyntax arg)
  else
    let (name, written) := splitLong cs
    match flags.find? (·.name == name) with
    | none => .error (.unknown name)
    | some f => f.withValue arg written rest

/-- Flags written by their letters after one dash. A flag that takes a value takes what follows its
letter, without an equals sign, or else the next argument. -/
def short (flags : List Flag) (rest : List String) :
    List Char → Except FlagError (List (String × String) × List String)
  | [] => .ok ([], rest)
  | c :: cs => do
    match flags.find? (·.letter == some c) with
    | none => throw (.unknownLetter c (String.ofList (c :: cs)))
    | some f =>
      match cs with
      | '=' :: value :: values =>
        return ([← f.take (String.ofList (value :: values))], rest)
      | _ =>
        if f.standsAlone then
          let first ← f.take f.impliedValue
          let (others, rest) ← short flags rest cs
          return (first :: others, rest)
        else if !cs.isEmpty then return ([← f.take (String.ofList cs)], rest)
        else match rest with
          | value :: rest => return ([← f.take value], rest)
          | [] => throw (.noValue (Quoted.char c ++ " in -" ++ String.singleton c))

end Flag

namespace ParsedFlags

def read (flags : List Flag) (found : ParsedFlags) : Nat → List String → Except FlagError ParsedFlags
  | 0, _ | _, [] => .ok found
  | fuel + 1, arg :: rest =>
    match arg.toList with
    | ['-', '-'] => .ok { found with operands := found.operands ++ rest }
    | '-' :: '-' :: cs => do
      let (flag, rest) ← Flag.long flags cs rest
      read flags { found with given := found.given ++ [flag] } fuel rest
    | '-' :: c :: cs => do
      let (more, rest) ← Flag.short flags rest (c :: cs)
      read flags { found with given := found.given ++ more } fuel rest
    | _ => read flags { found with operands := found.operands ++ [arg] } fuel rest

def parse (flags : List Flag) (args : List String) : Except FlagError ParsedFlags :=
  read flags {} (args.length + 1) args

def all (p : ParsedFlags) (name : String) : List String :=
  (p.given.filter (·.1 == name)).map (·.2)

def isGiven (p : ParsedFlags) (name : String) : Bool := !(p.all name).isEmpty

def value? (p : ParsedFlags) (name : String) : Option String := (p.all name).getLast?

def text (p : ParsedFlags) (name : String) : String := (p.value? name).getD ""

def switch (p : ParsedFlags) (name : String) : Bool :=
  ((p.value? name).bind Flag.truth?).getD false

def whole (p : ParsedFlags) (name : String) : Int :=
  ((p.value? name).bind fun value => (Number.withBase value).toOption).getD 0

def names? (p : ParsedFlags) (name : String) : Option (List String) :=
  if p.isGiven name then
    some ((p.all name).flatMap fun value => ((CommaList.parse value).toOption).getD [])
  else none

end ParsedFlags

end HostScript
