import HostScript.Text.Quoted
import HostScript.Text.Rune

set_option autoImplicit false

namespace HostScript.Number

inductive NumberFault where
  | notNumber | outOfRange
  deriving DecidableEq, Repr

def NumberFault.text : NumberFault → String
  | .notNumber => "invalid syntax"
  | .outOfRange => "value out of range"

def sign : List Char → Bool × List Char
  | '-' :: cs => (true, cs)
  | '+' :: cs => (false, cs)
  | cs => (false, cs)

def digitValue? (base : Nat) (c : Char) : Option Nat :=
  let value :=
    if isDigit c then c.toNat - 48
    else if 'a' ≤ c && c ≤ 'z' then c.toNat - 87
    else if 'A' ≤ c && c ≤ 'Z' then c.toNat - 55
    else base
  if value < base then some value else none

def digits? (base : Nat) (cs : List Char) : Option Nat :=
  if cs.isEmpty then none
  else cs.foldlM (fun n c => (digitValue? base c).map (base * n + ·)) 0

def signed (negative : Bool) (n : Nat) : Except NumberFault Int :=
  let value : Int := if negative then -(n : Int) else n
  if -9223372036854775808 ≤ value && value ≤ 9223372036854775807 then .ok value
  else .error .outOfRange

def decimal (s : String) : Except NumberFault Int :=
  let (negative, cs) := sign s.toList
  match digits? 10 cs with
  | some n => signed negative n
  | none => .error .notNumber

/-- Whether every underscore stands between digits. `afterDigit` tells whether a digit comes before;
the mark of a base counts as one. -/
def underscoresFit (isDigit : Char → Bool) (afterDigit : Bool) : List Char → Bool
  | [] => true
  | '_' :: cs => afterDigit && (cs.head?.all fun c => isDigit c) && !cs.isEmpty
      && underscoresFit isDigit false cs
  | c :: cs => underscoresFit isDigit (isDigit c) cs

def grouped? (base : Nat) (marked : Bool) (cs : List Char) : Option Nat :=
  if underscoresFit (fun c => (digitValue? base c).isSome) marked cs then
    digits? base (cs.filter (· != '_'))
  else none

def unsigned? : List Char → Option Nat
  | '0' :: x :: rest =>
    if x == 'x' || x == 'X' then grouped? 16 true rest
    else if x == 'b' || x == 'B' then grouped? 2 true rest
    else if x == 'o' || x == 'O' then grouped? 8 true rest
    else grouped? 8 true (x :: rest)
  | cs => grouped? 10 false cs

def withBase (s : String) : Except NumberFault Int :=
  let (negative, cs) := sign s.toList
  match unsigned? cs with
  | some n => signed negative n
  | none => .error .notNumber

def complaint (s : String) (fault : NumberFault) : String :=
  "strconv.ParseInt: parsing " ++ Quoted.string s ++ ": " ++ fault.text

end HostScript.Number
