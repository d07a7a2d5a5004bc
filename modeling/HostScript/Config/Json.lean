import HostScript.Text.Quoted
import HostScript.Value

set_option autoImplicit false

namespace HostScript.Config.Json

inductive Place where
  | startOfValue | startOfKey | afterKey | afterEntry | afterItem | afterAll | inNumber | inString
  | inWord (word : String) (wanted : Char)
  deriving DecidableEq, Repr

def Place.text : Place → String
  | .startOfValue => "looking for beginning of value"
  | .startOfKey => "looking for beginning of object key string"
  | .afterKey => "after object key"
  | .afterEntry => "after object key:value pair"
  | .afterItem => "after array element"
  | .afterAll => "after top-level value"
  | .inNumber => "in numeric literal"
  | .inString => "in string"
  | .inWord word wanted => "in literal " ++ word ++ " (expecting " ++ Quoted.char wanted ++ ")"

inductive JsonError where
  | unfinished
  | character (shown : String) (place : Place)
  | escape (shown : String)
  | tooDeep
  | otherKind (kind : String)
  | outOfRange (number : String)
  deriving DecidableEq, Repr

def JsonError.message : JsonError → String
  | .unfinished => "unexpected end of JSON input"
  | .character shown place => "invalid character " ++ shown ++ " " ++ place.text
  | .escape shown => "invalid escape sequence " ++ shown ++ " in string"
  | .tooDeep => "exceeded max depth"
  | .otherKind kind =>
    "json: cannot unmarshal " ++ kind ++ " into Go value of type map[string]interface \x7b\x7d"
  | .outOfRange number => "json: cannot unmarshal number " ++ number ++ " into Go value of type float64"

def shown (r : Rune) : String :=
  if r.isInvalid then "'\\x" ++ Quoted.hex 2 (r.bytes.headD 0).toNat ++ "'" else Quoted.char r.char

def wrong (place : Place) : List Rune → JsonError
  | [] => .unfinished
  | r :: _ => .character (shown r) place

def isGap (r : Rune) : Bool := [' ', '\t', '\n', '\r'].contains r.char

def skipGap (rs : List Rune) : List Rune := rs.dropWhile isGap

def readWord (word : String) : List Char → List Rune → Except JsonError (List Rune)
  | [], rs => .ok rs
  | _ :: _, [] => .error .unfinished
  | c :: cs, r :: rs =>
    if r.char == c then readWord word cs rs else .error (.character (shown r) (.inWord word c))

def isDigitRune (r : Rune) : Bool := isDigit r.char

def readDigits (rs : List Rune) : Except JsonError (List Char × List Rune) :=
  let digits := rs.takeWhile isDigitRune
  if digits.isEmpty then .error (wrong .inNumber rs)
  else .ok (digits.map (·.char), rs.drop digits.length)

def readWhole (rs : List Rune) : Except JsonError (List Char × List Rune) :=
  match rs with
  | r :: rest => if r.char == '0' then .ok (['0'], rest) else readDigits rs
  | [] => .error .unfinished

def readFraction (rs : List Rune) : Except JsonError (List Char × List Rune) :=
  match rs with
  | r :: rest => if r.char == '.' then readDigits rest else .ok ([], rs)
  | [] => .ok ([], [])

def readExponent (rs : List Rune) : Except JsonError (Int × List Rune) :=
  match rs with
  | r :: rest =>
    if r.char == 'e' || r.char == 'E' then do
      let isDown := rest.head?.any (·.char == '-')
      let rest := if isDown || rest.head?.any (·.char == '+') then rest.drop 1 else rest
      let (digits, rest) ← readDigits rest
      let n : Int := (Number.digits? 10 digits).getD 0
      return (if isDown then -n else n, rest)
    else .ok (0, rs)
  | [] => .ok (0, [])

def readNumber (rs : List Rune) : Except JsonError (Value × List Rune) := do
  let isNegative := rs.head?.any (·.char == '-')
  let (whole, rest) ← readWhole (if isNegative then rs.drop 1 else rs)
  let (fraction, rest) ← readFraction rest
  let (power, rest) ← readExponent rest
  let digits := (Number.digits? 10 (whole ++ fraction)).getD 0
  match Double.ofDecimal? ⟨isNegative, digits, power - (fraction.length : Int)⟩ with
  | some x => return (.float x, rest)
  | none => throw (.outOfRange (String.ofList ((rs.take (rs.length - rest.length)).map (·.char))))

def escapes : List (Char × Nat) :=
  [('"', 34), ('\\', 92), ('/', 47), ('b', 8), ('f', 12), ('n', 10), ('r', 13), ('t', 9)]

def badEscape (rs : List Rune) : JsonError :=
  let text := Rune.join rs
  let needsQuotes := rs.any fun r =>
    r.char == '\x60' || r.char == replacement || isSpace r.char || !isPrintable r.char
  .escape (if needsQuotes then Quoted.text text else "\x60" ++ text.toText ++ "\x60")

def hexValue? (rs : List Rune) : Option Nat :=
  if rs.length < 4 then none
  else (rs.take 4).foldlM (fun n r => (Number.digitValue? 16 r.char).map (16 * n + ·)) 0

def readUnit (rs : List Rune) : Except JsonError Nat :=
  match hexValue? (rs.drop 2) with
  | some n => .ok n
  | none =>
    if rs.length < 6 && (rs.drop 2).all fun r => (Number.digitValue? 16 r.char).isSome then
      .error .unfinished
    else .error (badEscape (rs.take 6))

def lowUnit? (rs : List Rune) : Option Nat :=
  match rs with
  | a :: b :: rest =>
    if a.char == '\\' && b.char == 'u' then
      (hexValue? rest).filter fun n => 0xDC00 ≤ n && n ≤ 0xDFFF
    else none
  | _ => none

/-- The characters of a string up to the quote that ends it. Half a pair stands for U+FFFD. The first
argument bounds their number. -/
def readString : Nat → List Char → List Rune → Except JsonError (String × List Rune)
  | 0, _, _ => .error .unfinished
  | _, _, [] => .error .unfinished
  | fuel + 1, text, r :: rs =>
    if r.char == '"' then .ok (String.ofList text.reverse, rs)
    else if r.char == '\\' then
      match rs with
      | [] => .error .unfinished
      | e :: rest =>
        if e.char == 'u' then do
          let high ← readUnit (r :: rs)
          let rest := rest.drop 4
          match (if 0xD800 ≤ high && high ≤ 0xDBFF then lowUnit? rest else none) with
          | some low =>
            readString fuel (Char.ofNat (0x10000 + (high - 0xD800) * 1024 + (low - 0xDC00)) :: text) (rest.drop 6)
          | none =>
            let c := if 0xD800 ≤ high && high ≤ 0xDFFF then replacement else Char.ofNat high
            readString fuel (c :: text) rest
        else
          match escapes.lookup e.char with
          | some code => readString fuel (Char.ofNat code :: text) rest
          | none => .error (badEscape [r, e])
    else if r.char.toNat < 0x20 then .error (.character (shown r) .inString)
    else readString fuel (r.char :: text) rs

def readKey (rs : List Rune) : Except JsonError (String × List Rune) :=
  match rs with
  | r :: rest =>
    if r.char == '"' then readString (rest.length + 1) [] rest else .error (wrong .startOfKey rs)
  | [] => .error .unfinished

def depthLimit : Nat := 10000

mutual

def readValue : Nat → (depth : Nat) → List Rune → Except JsonError (Value × List Rune)
  | 0, _, _ => .error .unfinished
  | _, _, [] => .error .unfinished
  | fuel + 1, depth, r :: rs =>
    match r.char with
    | 'n' => do return (.nothing, ← readWord "null" "null".toList (r :: rs))
    | 't' => do return (.bool true, ← readWord "true" "true".toList (r :: rs))
    | 'f' => do return (.bool false, ← readWord "false" "false".toList (r :: rs))
    | '"' => do
      let (s, rest) ← readString (rs.length + 1) [] rs
      return (.text s, rest)
    | '[' =>
      if depthLimit ≤ depth then .error .tooDeep
      else
        let rs := skipGap rs
        if rs.head?.any (·.char == ']') then .ok (.list [], rs.drop 1)
        else readItems fuel (depth + 1) [] rs
    | '\x7b' =>
      if depthLimit ≤ depth then .error .tooDeep
      else
        let rs := skipGap rs
        if rs.head?.any (·.char == '\x7d') then .ok (.table [], rs.drop 1)
        else readEntries fuel (depth + 1) [] rs
    | c => if c == '-' || isDigit c then readNumber (r :: rs) else .error (wrong .startOfValue (r :: rs))

def readItems : Nat → (depth : Nat) → List Value → List Rune → Except JsonError (Value × List Rune)
  | 0, _, _, _ => .error .unfinished
  | fuel + 1, depth, items, rs => do
    let (item, rs) ← readValue fuel depth (skipGap rs)
    let rs := skipGap rs
    match rs.head?.map (·.char) with
    | some ',' => readItems fuel depth (item :: items) (rs.drop 1)
    | some ']' => return (.list (item :: items).reverse, rs.drop 1)
    | _ => throw (wrong .afterItem rs)

def readEntries : Nat → (depth : Nat) → List (String × Value) → List Rune → Except JsonError (Value × List Rune)
  | 0, _, _, _ => .error .unfinished
  | fuel + 1, depth, entries, rs => do
    let (key, rs) ← readKey (skipGap rs)
    let rs := skipGap rs
    if !rs.head?.any (·.char == ':') then throw (wrong .afterKey rs)
    let (value, rs) ← readValue fuel depth (skipGap (rs.drop 1))
    let rs := skipGap rs
    let entries := Value.put key value entries
    match rs.head?.map (·.char) with
    | some ',' => readEntries fuel depth entries (rs.drop 1)
    | some '\x7d' => return (.table entries, rs.drop 1)
    | _ => throw (wrong .afterEntry rs)

end

def kindOf : Value → String
  | .bool _ => "bool"
  | .text _ => "string"
  | .list _ => "array"
  | .table _ => "object"
  | .nothing => "null"
  | _ => "number"

/-- The entries of the object that a text holds. Nothing counts as an empty object. -/
def parse (text : Bytes) : Except JsonError (List (String × Value)) := do
  let rs := text.runes
  let (value, rest) ← readValue (2 * rs.length + 2) 0 (skipGap rs)
  if !(skipGap rest).isEmpty then throw (wrong .afterAll (skipGap rest))
  match value with
  | .table entries => return entries
  | .nothing => return []
  | other => throw (.otherKind (kindOf other))

end HostScript.Config.Json
