import HostScript.Text.Timestamp
import HostScript.Value
import HostScript.Yaml.Failure

set_option autoImplicit false

namespace HostScript.Base64

def digit? (c : Char) : Option Nat :=
  if 'A' ≤ c && c ≤ 'Z' then some (c.toNat - 65)
  else if 'a' ≤ c && c ≤ 'z' then some (c.toNat - 71)
  else if '0' ≤ c && c ≤ '9' then some (c.toNat + 4)
  else if c = '+' then some 62
  else if c = '/' then some 63
  else none

/-- Reads groups of four characters. Only the last group may be filled up with equal signs. -/
def groups? : List Char → Option Bytes
  | [] => some []
  | [a, b, '=', '='] => do
    let n := (← digit? a) * 64 + (← digit? b)
    return [UInt8.ofNat (n / 16)]
  | [a, b, c, '='] => do
    let n := ((← digit? a) * 64 + (← digit? b)) * 64 + (← digit? c)
    return [UInt8.ofNat (n / 1024), UInt8.ofNat (n / 4)]
  | a :: b :: c :: d :: rest => do
    let n := (((← digit? a) * 64 + (← digit? b)) * 64 + (← digit? c)) * 64 + (← digit? d)
    return UInt8.ofNat (n / 65536) :: UInt8.ofNat (n / 256) :: UInt8.ofNat n :: (← groups? rest)
  | _ => none

def decode? (s : String) : Option Bytes :=
  groups? (s.toList.filter fun c => c != '\n' && c != '\r')

end HostScript.Base64

namespace HostScript.Yaml

namespace Tag

def str : String := "!!str"
def bool : String := "!!bool"
def int : String := "!!int"
def float : String := "!!float"
def null : String := "!!null"
def timestamp : String := "!!timestamp"
def seq : String := "!!seq"
def map : String := "!!map"
def binary : String := "!!binary"
def merge : String := "!!merge"

def root : String := "tag:yaml.org,2002:"

def short (tag : String) : String :=
  if tag.startsWith root then "!!" ++ String.ofList (tag.toList.drop root.length) else tag

def valued : List String := [str, bool, int, float, null, timestamp]

end Tag

namespace Scalar

def decimal? (cs : List Char) : Option Decimal := do
  let (isNegative, rest) := Number.sign cs
  let whole := rest.takeWhile isDigit
  let rest := rest.drop whole.length
  let (fraction, rest) := match rest with
    | '.' :: tail => (tail.takeWhile isDigit, tail.dropWhile isDigit)
    | rest => ([], rest)
  if whole.isEmpty && fraction.isEmpty then none
  let digits ← Number.digits? 10 (whole ++ fraction)
  let behind : Int := fraction.length
  match rest with
  | [] => return ⟨isNegative, digits, -behind⟩
  | e :: tail =>
    if e = 'e' || e = 'E' then
      let (down, tail) := Number.sign tail
      let n ← Number.digits? 10 tail
      return ⟨isNegative, digits, (if down then -(n : Int) else n) - behind⟩
    else none

def float? (cs : List Char) : Option Double := (decimal? cs).bind Double.ofDecimal?

def signedLimit : Int := 9223372036854775808

def unsignedLimit : Int := 18446744073709551616

def inRange (n : Int) : Option Int := if -signedLimit ≤ n && n < unsignedLimit then some n else none

def marked? (mark : List Char) (base : Nat) (cs : List Char) : Option Int :=
  let (isNegative, cs) := match cs with
    | '-' :: rest => (true, rest)
    | cs => (false, cs)
  if !mark.isPrefixOf cs then none
  else
    let (below, digits) := if isNegative then (true, cs.drop 2) else Number.sign (cs.drop 2)
    (Number.digits? base digits).bind fun n => inRange (if below then -(n : Int) else n)

def int? (cs : List Char) : Option Int :=
  let (isNegative, rest) := Number.sign cs
  match Number.unsigned? rest with
  | some n => if isNegative || cs.head? == some '+' then
      inRange (if isNegative then -(n : Int) else n) |>.filter (· < signedLimit)
    else inRange n
  | none => none

def number? (text : String) (allowTime : Bool) : Option Value :=
  let plain := text.toList.filter (· != '_')
  (if allowTime then (Timestamp.parse? text).map .moment else none)
    <|> (int? plain).map .int
    <|> (float? plain).map .float
    <|> (marked? ['0', 'b'] 2 plain).map .int
    <|> (marked? ['0', 'o'] 8 plain).map .int

def underscoresFit (cs : List Char) : Bool := Number.underscoresFit isDigit false cs

def words : List (String × Value) :=
  (["true", "True", "TRUE"].map fun w => (w, Value.bool true))
    ++ (["false", "False", "FALSE"].map fun w => (w, Value.bool false))
    ++ (["", "~", "null", "Null", "NULL"].map fun w => (w, Value.nothing))
    ++ ([".nan", ".NaN", ".NAN"].map fun w => (w, Value.float .notNumber))
    ++ ([".inf", ".Inf", ".INF", "+.inf", "+.Inf", "+.INF"].map fun w => (w, Value.float (.infinite false)))
    ++ (["-.inf", "-.Inf", "-.INF"].map fun w => (w, Value.float (.infinite true)))

def numberOf? (text : String) (allowTime : Bool) : Option Value :=
  match text.toList with
  | [] => none
  | c :: cs =>
    if c = '.' then
      if underscoresFit (c :: cs) then (float? ((c :: cs).filter (· != '_'))).map .float else none
    else if isDigit c || c = '+' || c = '-' then number? text allowTime
    else none

def plainValue (text : String) (allowTime : Bool) : Value :=
  (words.lookup text).getD ((numberOf? text allowTime).getD (.text text))

def tagOf : Value → String
  | .nothing => Tag.null
  | .bool _ => Tag.bool
  | .int _ => Tag.int
  | .float _ => Tag.float
  | .text _ => Tag.str
  | .moment _ => Tag.timestamp
  | .list _ => Tag.seq
  | .table _ => Tag.map

def plainTag (text : String) : String := tagOf (plainValue text true)

/-- The value of a text with a tag. A whole number may have the tag of numbers with a point. -/
def resolve (tag text : String) : Except Failure Value :=
  if tag == Tag.binary then
    match Base64.decode? text with
    | some bs => .ok (.text bs.toText)
    | none => .error .notBase64
  else if tag == Tag.str || !(Tag.valued.contains tag) then .ok (.text text)
  else
    let value := plainValue text (tag == Tag.timestamp)
    match value with
    | .int n =>
      if tag == Tag.int then .ok value
      else if tag == Tag.float && n < signedLimit then .ok (.float (.ofInt n))
      else .error (.otherTag Tag.int text tag)
    | _ => if tagOf value == tag then .ok value else .error (.otherTag (tagOf value) text tag)

end Scalar

end HostScript.Yaml
