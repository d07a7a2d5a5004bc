import HostScript.Config.Toml
import HostScript.Text.Rune

set_option autoImplicit false

namespace HostScript.Config.Ini

inductive IniError where
  | unclosedSection (line : String)
  | namelessSection
  | missingDelimiter (line : String)
  | missingKey (line : String)
  | emptyKey
  | unclosedKey (line : String)
  | unclosedValue (first last : String)
  deriving DecidableEq, Repr

def IniError.message : IniError → String
  | .unclosedSection line => "unclosed section: " ++ line
  | .namelessSection => "empty section name"
  | .missingDelimiter line => "key-value delimiter not found: " ++ line
  | .missingKey line => "empty key name: " ++ line
  | .emptyKey => "error creating new key: empty key name"
  | .unclosedKey line => "missing closing key quote: " ++ line
  | .unclosedValue first last =>
    "missing closing key quote from " ++ Quoted.string first ++ " to " ++ Quoted.string last

def linesOf (line : List Char) : List Char → List (List Char)
  | [] => if line.isEmpty then [] else [line.reverse]
  | '\n' :: cs => ('\n' :: line).reverse :: linesOf [] cs
  | c :: cs => linesOf (c :: line) cs

def cut? (mark before : List Char) : List Char → Option (List Char × List Char)
  | [] => if mark.isEmpty then some (before.reverse, []) else none
  | c :: cs =>
    if mark.isPrefixOf (c :: cs) then some (before.reverse, (c :: cs).drop mark.length)
    else cut? mark (c :: before) cs

def beforeLast? (mark cs : List Char) : Option (List Char) :=
  (cut? mark.reverse [] cs.reverse).map fun (_, rest) => rest.reverse

def isDelimiter (c : Char) : Bool := c == '=' || c == ':'

def threeQuotes : List Char := "\"\"\"".toList

def keyQuote? (line : List Char) : Option (List Char) :=
  match line.head? with
  | some '"' => some (if threeQuotes.isPrefixOf line && 6 < line.length then threeQuotes else ['"'])
  | some '\x60' => some ['\x60']
  | _ => none

def keyOf (line : List Char) : Except IniError (String × List Char) :=
  let text := String.ofList line
  match keyQuote? line with
  | some quote =>
    match cut? quote [] (line.drop quote.length) with
    | none => .error (.unclosedKey text)
    | some (key, rest) =>
      match rest.dropWhile (!isDelimiter ·) with
      | [] => .error (.missingDelimiter text)
      | _ :: value => .ok (String.ofList (trimChars key), value)
  | none =>
    match line.dropWhile (!isDelimiter ·) with
    | [] => .error (.missingDelimiter text)
    | _ :: value =>
      if line.head?.any isDelimiter then .error (.missingKey text)
      else .ok (String.ofList (trimChars (line.takeWhile (!isDelimiter ·))), value)

def isWithin (quote : Char) (cs : List Char) : Bool :=
  2 ≤ cs.length && cs.head? == some quote && cs.getLast? == some quote
    && !((cs.drop 1).dropLast.contains quote)

def untilQuote (quote first done : List Char) :
    List (List Char) → Except IniError (List Char × List (List Char))
  | [] => .error (.unclosedValue (String.ofList first) "")
  | next :: rest =>
    match beforeLast? quote next with
    | some part => .ok (done ++ part, rest)
    | none =>
      if rest.isEmpty && next.getLast? != some '\n' then
        .error (.unclosedValue (String.ofList first) (String.ofList next))
      else untilQuote quote first (done ++ next) rest

def continued (done : List Char) : List (List Char) → List Char × List (List Char)
  | [] => (done, [])
  | next :: rest =>
    let part := trimChars next
    if part.isEmpty then (done, rest)
    else if part.getLast? == some '\\' then continued (done ++ part.dropLast) rest
    else (done ++ part, rest)

def valueOf (cs : List Char) (rest : List (List Char)) : Except IniError (List Char × List (List Char)) :=
  let line := cs.dropWhile isSpace
  let quote :=
    if threeQuotes.isPrefixOf line && 3 < line.length then threeQuotes
    else if line.head? == some '\x60' then ['\x60']
    else []
  if line.isEmpty then .ok ([], rest)
  else if !quote.isEmpty then
    let body := line.drop quote.length
    match beforeLast? quote body with
    | some value => .ok (value, rest)
    | none => untilQuote quote line body rest
  else
    let value := trimChars line
    if value.getLast? == some '\\' then .ok (continued value.dropLast rest)
    else
      let isComment (c : Char) : Bool := c == '#' || c == ';'
      let plain := if value.any isComment then trimChars (value.takeWhile (!isComment ·)) else value
      .ok (if isWithin '\'' plain || isWithin '"' plain then (plain.drop 1).dropLast else plain, rest)

def firstSection : String := "DEFAULT"

abbrev Sections := List (String × List (String × String))

def set {α : Type} (name : String) (a : α) : List (String × α) → List (String × α)
  | [] => [(name, a)]
  | e :: es => if e.1 == name then (name, a) :: es else e :: set name a es

def Sections.keys (s : Sections) (name : String) : List (String × String) := (s.lookup name).getD []

/-- Reads lines into the section that is open. Keys that are a dash are numbered. -/
def read : Nat → Nat → String → Sections → List (List Char) → Except IniError Sections
  | 0, _, _, done, _ => .ok done
  | _, _, _, done, [] => .ok done
  | fuel + 1, count, group, done, first :: rest =>
    let line := first.dropWhile isSpace
    match line with
    | [] => read fuel count group done rest
    | c :: cs =>
      if c = '#' || c = ';' then read fuel count group done rest
      else if c = '[' then
        match beforeLast? [']'] cs with
        | none => .error (.unclosedSection (String.ofList line))
        | some [] => .error .namelessSection
        | some name =>
          let name := String.ofList name
          read fuel 1 name (set name (done.keys name) done) rest
      else do
        let (key, value) ← keyOf line
        let (value, rest) ← valueOf value rest
        if key.isEmpty then throw .emptyKey
        let isDash := key == "-"
        let key := if isDash then "#" ++ toString count else key
        read fuel (if isDash then count + 1 else count) group
          (set group (set key (String.ofList value) (done.keys group)) done) rest

def reference? (before : List Char) : List Char → Option (List Char × List Char × List Char)
  | '%' :: '(' :: cs =>
    let name := cs.takeWhile (· != ')')
    match cs.drop name.length with
    | ')' :: 's' :: rest =>
      if name.isEmpty then reference? ('(' :: '%' :: before) cs else some (before.reverse, name, rest)
    | _ => reference? ('(' :: '%' :: before) cs
  | c :: cs => reference? (c :: before) cs
  | [] => none

/-- Puts the values of other keys in: those of the same section count before those without one. -/
def expand (all : Sections) (group key : String) : Nat → List Char → List Char
  | 0, cs => cs
  | fuel + 1, cs =>
    match reference? [] cs with
    | none => cs
    | some (before, name, after) =>
      let name := String.ofList name
      let own := if name == key then none else (all.keys group).lookup name
      match own.or ((all.keys firstSection).lookup name) with
      | none => cs
      | some value => expand all group key fuel (before ++ value.toList ++ after)

def expansionLimit : Nat := 99

def parse (text : String) : Except IniError (List (String × Value)) := do
  let cs := match text.toList with
    | '\uFEFF' :: cs => cs
    | cs => cs
  let all ← read (cs.length + 1) 1 firstSection [(firstSection, [])] (linesOf [] cs)
  return all.foldl (fun entries (name, keys) =>
    keys.foldl (fun entries (key, value) =>
      let value := String.ofList (expand all name key expansionLimit value.toList)
      Toml.update (Value.put key (.text value)) (splitString '.' name) entries) entries) []

end HostScript.Config.Ini
