import HostScript.Config.Toml
import HostScript.Text.Lower

/-!
Settings written as properties. A dot in a key leads into a table, a backslash at the end of a line
joins the next one to it, and other properties are put in where they are named.
-/

set_option autoImplicit false

namespace HostScript.Config.Properties

inductive PropertiesError where
  | lonelyBackslash
  | badCode
  | badExpression
  | circular (key : String)
  deriving DecidableEq, Repr

def PropertiesError.message : PropertiesError → String
  | .lonelyBackslash => "properties: Line 1: premature EOF"
  | .badCode => "properties: Line 1: invalid unicode literal"
  | .badExpression => "malformed expression"
  | .circular key => "circular reference in:\n" ++ key

def isBlank (c : Char) : Bool := c == ' ' || c == '\t' || c == '\x0c'

def isBreak (c : Char) : Bool := c == '\n' || c == '\r'

def letterEscapes : List (Char × Char) := [('f', '\x0c'), ('n', '\n'), ('r', '\r'), ('t', '\t')]

def escape : List Char → Except PropertiesError (Char × List Char)
  | [] => .error .lonelyBackslash
  | 'u' :: rest =>
    match Number.digits? 16 (rest.take 4) with
    | some code => if rest.length < 4 then .error .badCode else .ok (Char.ofNat code, rest.drop 4)
    | none => .error .badCode
  | c :: rest => .ok ((letterEscapes.lookup c).getD c, rest)

def readKey : Nat → List Char → List Char → Except PropertiesError (String × List Char)
  | 0, key, cs => .ok (String.ofList key.reverse, cs)
  | _, key, [] => .ok (String.ofList key.reverse, [])
  | fuel + 1, key, c :: cs =>
    if c = '\\' then do
      let (e, rest) ← escape cs
      readKey fuel (e :: key) rest
    else if isBlank c || isBreak c || c = ':' || c = '=' then .ok (String.ofList key.reverse, c :: cs)
    else readKey fuel (c :: key) cs

def readValue : Nat → List Char → List Char → Except PropertiesError (String × List Char)
  | 0, value, cs => .ok (String.ofList value.reverse, cs)
  | _, value, [] => .ok (String.ofList value.reverse, [])
  | fuel + 1, value, c :: cs =>
    if c = '\\' then
      if cs.head?.any isBreak then readValue fuel value ((cs.drop 1).dropWhile isBlank)
      else do
        let (e, rest) ← escape cs
        readValue fuel (e :: value) rest
    else if isBreak c then .ok (String.ofList value.reverse, cs)
    else readValue fuel (c :: value) cs

def skipSign (cs : List Char) : List Char :=
  let cs := cs.dropWhile isBlank
  let cs := if cs.head?.any fun c => c == ':' || c == '=' then cs.drop 1 else cs
  cs.dropWhile isBlank

/-- The properties of a text in order; a later value of a key takes the place of an earlier one. -/
def read : Nat → List (String × String) → List Char → Except PropertiesError (List (String × String))
  | 0, done, _ => .ok done
  | _, done, [] => .ok done
  | fuel + 1, done, c :: cs =>
    if isBreak c || isBlank c then read fuel done cs
    else if c = '#' || c = '!' then read fuel done (cs.dropWhile fun c => !isBreak c)
    else do
      let (key, rest) ← readKey (cs.length + 2) [] (c :: cs)
      let (value, rest) ← readValue (rest.length + 1) [] (skipSign rest)
      let done := if (done.lookup key).isSome then
          done.map fun e => if e.1 == key then (key, value) else e
        else done ++ [(key, value)]
      read fuel done rest

def expression? (before : List Char) : List Char → Option (List Char × Option (String × List Char))
  | '$' :: '\x7b' :: cs =>
    let name := cs.takeWhile (· != '\x7d')
    let rest := cs.drop name.length
    some (before.reverse, if rest.isEmpty then none else some (String.ofList name, rest.drop 1))
  | c :: cs => expression? (c :: before) cs
  | [] => none

def expand (all outside : List (String × String)) : Nat → List String → String → Except PropertiesError String
  | 0, _, s => .ok s
  | fuel + 1, seen, s =>
    match expression? [] s.toList with
    | none => .ok s
    | some (_, none) => .error .badExpression
    | some (before, some (name, after)) =>
      if seen.contains name then .error (.circular name)
      else do
        let found := ((all.lookup name).or (outside.lookup name)).getD ""
        let inner ← expand all outside fuel (name :: seen) found
        let rest ← expand all outside fuel seen (String.ofList after)
        return String.ofList before ++ inner ++ rest

def parse (outside : List (String × String)) (text : String) :
    Except PropertiesError (List (String × Value)) := do
  let all ← read (text.length + 1) [] text.toList
  all.foldlM (fun entries (key, value) => do
    let path := splitString '.' key
    let value ← expand all outside (text.length + 1) [key] value
    return Toml.update (Value.put (lower (path.getLastD "")) (.text value)) path.dropLast entries) []

end HostScript.Config.Properties
