import HostScript.Text.Timestamp
import HostScript.Value
import HostScript.Yaml.Scalar

set_option autoImplicit false

namespace HostScript.Config.Toml

inductive TomlError where
  | wanted (c : Char)
  | wantedAtEnd (c : Char)
  | missingEquals
  | missingValue
  | missingKey
  | badKeyStart (c : Char)
  | wantedWord (word : String)
  | missingNewline (c : Char)
  | badNewline
  | unclosedLiteral | literalBreak | unclosedBasic | basicBreak | lonelyBackslash
  | badEscape (c : Char)
  | unclosedLongLiteral | unclosedLongBasic
  | unfinishedNumber
  | letterInNumber (c : Char)
  | leadingZero
  | badNumber (text : String)
  | badDate
  | unfinishedArray | leadingComma | missingComma
  | unfinishedTable
  | repeatedKey (key : String)
  | repeatedTable (key : String)
  | notTable (key : String)
  deriving DecidableEq, Repr

def shownCode (c : Char) : String :=
  let digits := String.ofList ((Nat.toDigits 16 c.toNat).map Char.toUpper)
  "U+" ++ String.ofList (List.replicate (4 - digits.length) '0') ++ digits
    ++ if isPrintable c then " '" ++ String.singleton c ++ "'" else ""

def TomlError.message : TomlError → String
  | .wanted c => "toml: expected character " ++ String.singleton c
  | .wantedAtEnd c => "toml: expected character " ++ String.singleton c ++ " but the document ended here"
  | .missingEquals => "toml: expected = after a key, but the document ends there"
  | .missingValue => "toml: expected value, not eof"
  | .missingKey => "toml: expected key but found none"
  | .badKeyStart c => "toml: invalid character at start of key: " ++ String.singleton c
  | .wantedWord word => "toml: expected '" ++ word ++ "'"
  | .missingNewline c => "toml: expected newline but got " ++ shownCode c
  | .badNewline => "toml: windows new line expected"
  | .unclosedLiteral => "toml: unterminated literal string"
  | .literalBreak => "toml: literal strings cannot have new lines"
  | .unclosedBasic => "toml: basic string not terminated by \""
  | .basicBreak => "toml: basic strings cannot have new lines"
  | .lonelyBackslash => "toml: need a character after \\"
  | .badEscape c => "toml: invalid escaped character " ++ shownCode c
  | .unclosedLongLiteral => "toml: multiline literal string not terminated by '''"
  | .unclosedLongBasic => "toml: multiline basic string not terminated by \"\"\""
  | .unfinishedNumber => "toml: incomplete number"
  | .letterInNumber c => "toml: unexpected character '" ++ String.singleton c ++ "' while scanning for a number"
  | .leadingZero => "toml: leading zero not allowed on decimal number"
  | .badNumber text => "toml: couldn't parse decimal number: strconv.ParseInt: parsing " ++ Quoted.string text
      ++ ": value out of range"
  | .badDate => "toml: dates are expected to have the format YYYY-MM-DD"
  | .unfinishedArray => "toml: array is incomplete"
  | .leadingComma => "toml: array cannot start with comma"
  | .missingComma => "toml: array elements must be separated by commas"
  | .unfinishedTable => "toml: inline table is incomplete"
  | .repeatedKey key => "toml: key " ++ key ++ " is already defined"
  | .repeatedTable key => "toml: table " ++ key ++ " already exists"
  | .notTable key => "toml: key " ++ key ++ " should be a table, not a value"

def isBlank (c : Char) : Bool := c == ' ' || c == '\t'

def skipBlanks (cs : List Char) : List Char := cs.dropWhile isBlank

def isKeyChar (c : Char) : Bool := c.isAlphanum || c == '_' || c == '-'

def expect (c : Char) : List Char → Except TomlError (List Char)
  | [] => .error (.wantedAtEnd c)
  | d :: rest => if d = c then .ok rest else .error (.wanted c)

def literal (text : List Char) : List Char → Except TomlError (String × List Char)
  | [] => .error .unclosedLiteral
  | c :: cs =>
    if c = '\'' then .ok (String.ofList text.reverse, cs)
    else if c = '\n' || c = '\r' then .error .literalBreak
    else literal (c :: text) cs

def escapes : List (Char × Nat) :=
  [('"', 34), ('\\', 92), ('b', 8), ('f', 12), ('n', 10), ('r', 13), ('t', 9), ('e', 27)]

def escape : List Char → Except TomlError (Char × List Char)
  | [] => .error .lonelyBackslash
  | c :: cs =>
    let width := if c = 'u' then 4 else if c = 'U' then 8 else 0
    match if width = 0 then escapes.lookup c else Number.digits? 16 (cs.take width) with
    | some code => .ok (Char.ofNat code, cs.drop width)
    | none => .error (.badEscape c)

def basic : Nat → List Char → List Char → Except TomlError (String × List Char)
  | 0, _, _ => .error .unclosedBasic
  | _, _, [] => .error .unclosedBasic
  | fuel + 1, text, c :: cs =>
    if c = '"' then .ok (String.ofList text.reverse, cs)
    else if c = '\n' || c = '\r' then .error .basicBreak
    else if c = '\\' then do
      let (e, rest) ← escape cs
      basic fuel (e :: text) rest
    else basic fuel (c :: text) cs

def dropBreak : List Char → List Char
  | '\n' :: cs => cs
  | '\r' :: '\n' :: cs => cs
  | cs => cs

/-- The text of a long string up to three quotes, of which two more may belong to the text. -/
def long (quote : Char) : Nat → List Char → List Char → Except TomlError (String × List Char)
  | 0, _, _ => .error (if quote = '"' then .unclosedLongBasic else .unclosedLongLiteral)
  | fuel + 1, text, cs =>
    match cs with
    | [] => .error (if quote = '"' then .unclosedLongBasic else .unclosedLongLiteral)
    | c :: rest =>
      if (cs.take 3).all (· == quote) && 3 ≤ cs.length then
        let extra := min 2 ((cs.drop 3).takeWhile (· == quote)).length
        .ok (String.ofList (List.replicate extra quote ++ text).reverse, cs.drop (3 + extra))
      else if quote = '"' && c = '\\' then
        let line := rest.dropWhile isBlank
        if line.head?.any fun c => c == '\n' || c == '\r' then
          long quote fuel text (rest.dropWhile fun c => isBlank c || c == '\n' || c == '\r')
        else do
          let (e, rest) ← escape rest
          long quote fuel (e :: text) rest
      else long quote fuel (c :: text) rest

def string (cs : List Char) : Except TomlError (String × List Char) :=
  match cs with
  | '"' :: '"' :: '"' :: rest => long '"' (rest.length + 1) [] (dropBreak rest)
  | '\'' :: '\'' :: '\'' :: rest => long '\'' (rest.length + 1) [] (dropBreak rest)
  | '"' :: rest => basic (rest.length + 1) [] rest
  | _ :: rest => literal [] rest
  | [] => .error .missingValue

def simpleKey (cs : List Char) : Except TomlError (String × List Char) :=
  match cs with
  | [] => .error .missingKey
  | c :: rest =>
    if c = '\'' then literal [] rest
    else if c = '"' then basic (rest.length + 1) [] rest
    else if isKeyChar c then .ok (String.ofList (cs.takeWhile isKeyChar), cs.dropWhile isKeyChar)
    else .error (.badKeyStart c)

def key : Nat → List Char → Except TomlError (List String × List Char)
  | 0, _ => .error .missingKey
  | fuel + 1, cs => do
    let (part, rest) ← simpleKey cs
    match skipBlanks rest with
    | '.' :: rest =>
      let (parts, rest) ← key fuel (skipBlanks rest)
      return (part :: parts, rest)
    | rest => return ([part], rest)

def startsDate (cs : List Char) : Bool :=
  let digits := (cs.takeWhile isDigit).length
  (digits = 4 && (cs.drop 4).head? == some '-') || (digits = 2 && (cs.drop 2).head? == some ':')

/-- A date, a time, or both; the text shown for it depends on whether it has a zone. -/
def date (cs : List Char) : Except TomlError (Value × List Char) :=
  let isPart (c : Char) : Bool :=
    isDigit c || ['-', ':', '.', 'T', 't', 'Z', 'z', '+'].contains c
  let head := cs.takeWhile isPart
  let tail := cs.drop head.length
  let full := match tail with
    | ' ' :: d :: _ => if isDigit d && head.length = 10 then head ++ ' ' :: (tail.drop 1).takeWhile isPart else head
    | _ => head
  let rest := cs.drop full.length
  let shown : Option String := do
    if (full.drop 2).head? == some ':' then
      let (time, rest) ← Timestamp.timeOfDay? full
      if rest.isEmpty then return time.text else none
    let (day, after) ← Timestamp.date? full
    match after with
    | [] => return day.text
    | _ :: time =>
      let (time, zone) ← Timestamp.timeOfDay? time
      if zone.isEmpty then return day.text ++ "T" ++ time.text
      else return Timestamp.text day time (← Timestamp.zone? (zone.map Char.toUpper))
  match shown with
  | some s => .ok (.moment s, rest)
  | none => .error .badDate

def baseOf (c : Char) : Nat := if c = 'x' then 16 else if c = 'o' then 8 else if c = 'b' then 2 else 0

def integer (text : List Char) : Except TomlError Value :=
  let digits := text.filter (· != '_')
  let (isNegative, body) := Number.sign digits
  if 1 < body.length && body.head? == some '0' then .error .leadingZero
  else match Number.digits? 10 body with
    | some n =>
      match Number.signed isNegative n with
      | .ok n => .ok (.int n)
      | .error _ => .error (.badNumber (String.ofList digits))
    | none => .error .unfinishedNumber

def numberWord? (cs : List Char) : Option (Double × List Char) :=
  let (isNegative, body) := Number.sign cs
  if "inf".toList.isPrefixOf body then some (.infinite isNegative, body.drop 3)
  else if "nan".toList.isPrefixOf body then some (.notNumber, body.drop 3)
  else none

def number (cs : List Char) : Except TomlError (Value × List Char) :=
  match numberWord? cs with
  | some (x, rest) => .ok (.float x, rest)
  | none =>
    let isMarked := 2 < cs.length && cs.head? == some '0'
      && !(cs.drop 1).head?.any fun c => c == '.' || c == 'e' || c == 'E'
    if isMarked then
      let base := baseOf ((cs.drop 1).headD ' ')
      if base = 0 then .ok (.int 0, cs.drop 1)
      else
        let digits := (cs.drop 2).takeWhile fun c => c == '_' || (Number.digitValue? base c).isSome
        match Number.digits? base (digits.filter (· != '_')) with
        | some n => .ok (.int n, cs.drop (2 + digits.length))
        | none => .error .unfinishedNumber
    else
      let text := cs.takeWhile fun c => isDigit c || ['+', '-', '_', '.', 'e', 'E'].contains c
      let rest := cs.drop text.length
      match rest.head? with
      | some 'i' => .error (.letterInNumber 'i')
      | some 'n' => .error (.letterInNumber 'n')
      | _ =>
        if text.isEmpty then .error .unfinishedNumber
        else if text.any fun c => c == '.' || c == 'e' || c == 'E' then
          match Yaml.Scalar.float? (text.filter (· != '_')) with
          | some x => .ok (.float x, rest)
          | none => .error .unfinishedNumber
        else (integer text).map (·, rest)

def skipLines (inComment : Bool) : List Char → List Char
  | [] => []
  | c :: cs =>
    if c = '\n' then skipLines false cs
    else if inComment || isBlank c || c = '\r' then skipLines inComment cs
    else if c = '#' then skipLines true cs
    else c :: cs

inductive Use where
  | value | table | dotted | element
  deriving DecidableEq

def get? : List String → List (String × Value) → Option Value
  | [], _ => none
  | [k], entries => entries.lookup k
  | k :: ks, entries =>
    match entries.lookup k with
    | some (.table inner) => get? ks inner
    | some (.list items) =>
      match items.getLast? with
      | some (.table inner) => get? ks inner
      | _ => none
    | _ => none

/-- Changes the table at a place; tables on the way are made, and the last one of an array of tables
stands for it. -/
def update (f : List (String × Value) → List (String × Value)) :
    List String → List (String × Value) → List (String × Value)
  | [], entries => f entries
  | k :: ks, entries =>
    let inner := match entries.lookup k with
      | some (.table inner) => Value.table (update f ks inner)
      | some (.list items) =>
        match items.getLast? with
        | some (.table last) => Value.list (items.dropLast ++ [.table (update f ks last)])
        | _ => Value.list items
      | _ => Value.table (update f ks [])
    Value.put k inner entries

mutual

def value : Nat → List Char → Except TomlError (Value × List Char)
  | 0, _ => .error .missingValue
  | fuel + 1, cs =>
    match cs with
    | [] => .error .missingValue
    | c :: rest =>
      if c = '"' || c = '\'' then (string cs).map fun (s, rest) => (.text s, rest)
      else if c = 't' then
        if "true".toList.isPrefixOf cs then .ok (.bool true, cs.drop 4) else .error (.wantedWord "true")
      else if c = 'f' then
        if "false".toList.isPrefixOf cs then .ok (.bool false, cs.drop 5) else .error (.wantedWord "false")
      else if c = '[' then items fuel true [] rest
      else if c = '\x7b' then fields fuel true [] rest
      else if c = 'i' && !"inf".toList.isPrefixOf cs then .error (.wantedWord "inf")
      else if c = 'n' && !"nan".toList.isPrefixOf cs then .error (.wantedWord "nan")
      else if startsDate cs then date cs
      else number cs

def items : Nat → (isFirst : Bool) → List Value → List Char → Except TomlError (Value × List Char)
  | 0, _, _, _ => .error .unfinishedArray
  | fuel + 1, isFirst, done, cs => do
    let cs := skipLines false cs
    let cs ← match cs with
      | [] => throw .unfinishedArray
      | ',' :: rest => if isFirst then throw .leadingComma else pure (skipLines false rest)
      | c :: _ => if c = ']' || isFirst then pure cs else throw .missingComma
    match cs with
    | ']' :: rest => return (.list done.reverse, rest)
    | _ =>
      let (v, rest) ← value fuel cs
      items fuel false (v :: done) rest

def fields : Nat → (isFirst : Bool) → List (String × Value) → List Char →
    Except TomlError (Value × List Char)
  | 0, _, _, _ => .error .unfinishedTable
  | fuel + 1, isFirst, done, cs => do
    match skipBlanks cs with
    | [] => throw .unfinishedTable
    | '\x7d' :: rest => return (.table done, rest)
    | cs =>
      let cs ← if isFirst then pure cs else (expect ',' cs).map skipBlanks
      let (path, v, rest) ← entry fuel cs
      if (get? path done).isSome then throw (.repeatedKey (path.getLastD ""))
      fields fuel false (update (Value.put (path.getLastD "") v) path.dropLast done) rest

def entry : Nat → List Char → Except TomlError (List String × Value × List Char)
  | 0, _ => .error .missingKey
  | fuel + 1, cs => do
    let (path, rest) ← key (cs.length + 1) cs
    let rest := skipBlanks rest
    if rest.isEmpty then throw .missingEquals
    let rest ← expect '=' rest
    let (v, rest) ← value fuel (skipBlanks rest)
    return (path, v, rest)

end

structure State where
  entries : List (String × Value) := []
  current : List String := []
  opened : List (List String) := []

def header (s : State) (cs : List Char) : Except TomlError (State × List Char) := do
  let isArray := (cs.drop 1).head? == some '['
  let (path, rest) ← key (cs.length + 1) (skipBlanks (cs.drop (if isArray then 2 else 1)))
  let rest ← expect ']' (skipBlanks rest)
  let rest ← if isArray then expect ']' rest else pure rest
  let last := path.getLastD ""
  let found := get? path s.entries
  if isArray then
    let before ← match found with
      | none => pure []
      | some (.list items) => pure items
      | some _ => throw (.repeatedKey last)
    let put := Value.put last (.list (before ++ [.table []]))
    return ({ s with entries := update put path.dropLast s.entries, current := path }, rest)
  else
    if s.opened.contains path then throw (.repeatedTable last)
    match found with
    | none => return ({ entries := update (Value.put last (.table [])) path.dropLast s.entries,
                        current := path, opened := path :: s.opened }, rest)
    | some (.table _) => return ({ s with current := path, opened := path :: s.opened }, rest)
    | some _ => throw (.repeatedKey last)

def line (s : State) (cs : List Char) : Except TomlError (State × List Char) := do
  match skipBlanks cs with
  | [] => return (s, [])
  | c :: cs =>
    if c = '#' || c = '\n' || c = '\r' then return (s, c :: cs)
    else if c = '[' then header s (c :: cs)
    else
      let (path, v, rest) ← entry (2 * cs.length + 4) (c :: cs)
      let full := s.current ++ path
      if (get? full s.entries).isSome then throw (.repeatedKey (path.getLastD ""))
      return ({ s with entries := update (Value.put (path.getLastD "") v) full.dropLast s.entries }, rest)

def endLine (cs : List Char) : Except TomlError (List Char) :=
  let cs := skipBlanks cs
  let cs := if cs.head? == some '#' then cs.dropWhile fun c => c != '\n' && c != '\r' else cs
  match cs with
  | [] => .ok []
  | '\n' :: rest => .ok rest
  | '\r' :: '\n' :: rest => .ok rest
  | '\r' :: _ => .error .badNewline
  | c :: _ => .error (.missingNewline c)

def lines : Nat → State → List Char → Except TomlError State
  | 0, s, _ => .ok s
  | _, s, [] => .ok s
  | fuel + 1, s, cs => do
    let (s, rest) ← line s cs
    lines fuel s (← endLine rest)

def parse (text : String) : Except TomlError (List (String × Value)) :=
  (lines (text.length + 1) {} text.toList).map (·.entries)

end HostScript.Config.Toml
