import HostScript.Double
import HostScript.Text.Duration
import HostScript.Text.Split

set_option autoImplicit false

namespace HostScript

inductive Value where
  | nothing
  | bool (b : Bool)
  | int (n : Int)
  | float (x : Double)
  | text (s : String)
  | moment (shown : String)
  | list (items : List Value)
  | table (entries : List (String × Value))
  deriving Inhabited

namespace Value

def isNothing : Value → Bool
  | .nothing => true
  | _ => false

def scalarText? : Value → Option String
  | .nothing => some ""
  | .bool b => some (if b then "true" else "false")
  | .int n => some (toString n)
  | .float x => some x.text
  | .text s => some s
  | .moment shown => some shown
  | .list _ => none
  | .table _ => none

def toText (v : Value) : String := v.scalarText?.getD ""

/-- The items of a list, or the words of a text; any other value is one word. -/
def toWords : Value → List String
  | .list items => items.map toText
  | .text s => wordsOf isSpace [] s.toList
  | .nothing => []
  | v => v.scalarText?.toList

def outOfRange : Int := -9223372036854775808

/-- A span of time in nanoseconds. A text may be without a unit; what is no number counts as zero. -/
def toNanoseconds : Value → Int
  | .int n => n.bmod 18446744073709551616
  | .float x =>
    match x.truncate? with
    | some n => if outOfRange ≤ n && n < -outOfRange then n else outOfRange
    | none => outOfRange
  | .text s => Duration.lenient s
  | _ => 0

def put (key : String) (value : Value) : List (String × Value) → List (String × Value)
  | [] => [(key, value)]
  | e :: es => if e.1 == key then (key, value) :: es else e :: put key value es

mutual

def same : Value → Value → Bool
  | .nothing, .nothing => true
  | .bool a, .bool b => a == b
  | .int a, .int b => a == b
  | .float a, .float b => a == b
  | .text a, .text b => a == b
  | .moment a, .moment b => a == b
  | .list as, .list bs => sameItems as bs
  | .table as, .table bs => sameEntries as bs
  | _, _ => false

def sameItems : List Value → List Value → Bool
  | [], [] => true
  | a :: as, b :: bs => same a b && sameItems as bs
  | _, _ => false

def sameEntries : List (String × Value) → List (String × Value) → Bool
  | [], [] => true
  | (j, a) :: as, (k, b) :: bs => j == k && same a b && sameEntries as bs
  | _, _ => false

end

end Value

end HostScript
