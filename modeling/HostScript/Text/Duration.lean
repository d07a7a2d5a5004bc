import HostScript.Text.Number

set_option autoImplicit false

namespace HostScript.Duration

inductive DurationFault where
  | malformed
  | missingUnit
  | unknownUnit (unit : String)
  deriving DecidableEq, Repr

def DurationFault.message (text : String) : DurationFault → String
  | .malformed => "time: invalid duration " ++ Quoted.string text
  | .missingUnit => "time: missing unit in duration " ++ Quoted.string text
  | .unknownUnit unit =>
    "time: unknown unit " ++ Quoted.string unit ++ " in duration " ++ Quoted.string text

def units : List (String × Nat) :=
  [("ns", 1), ("us", 1000), ("µs", 1000), ("μs", 1000), ("ms", 1000000), ("s", 1000000000),
    ("m", 60000000000), ("h", 3600000000000)]

def limit : Nat := 9223372036854775807

def parts (total : Nat) : Nat → List Char → Except DurationFault Nat
  | _, [] => if total ≤ limit then .ok total else .error .malformed
  | 0, _ => .error .malformed
  | fuel + 1, cs => do
    let whole := cs.takeWhile isDigit
    let rest := cs.drop whole.length
    let (fraction, rest) := match rest with
      | '.' :: tail => (some (tail.takeWhile isDigit), tail.dropWhile isDigit)
      | rest => (none, rest)
    if whole.isEmpty && (fraction.getD []).isEmpty then throw .malformed
    let name := rest.takeWhile fun c => c != '.' && !isDigit c
    if name.isEmpty then throw .missingUnit
    match units.lookup (String.ofList name) with
    | none => throw (.unknownUnit (String.ofList name))
    | some unit =>
      let digits := whole ++ fraction.getD []
      let value := (Number.digits? 10 digits).getD 0 * unit / 10 ^ (fraction.getD []).length
      parts (total + value) fuel (rest.drop name.length)

def parse (text : String) : Except DurationFault Int :=
  let (negative, cs) := Number.sign text.toList
  if cs == ['0'] then .ok 0
  else if cs.isEmpty then .error .malformed
  else (parts 0 cs.length cs).map fun (n : Nat) => if negative then -(n : Int) else (n : Int)

/-- A span of time that may be written without a unit. Nothing that can be read counts as zero. -/
def lenient (text : String) : Int :=
  let hasUnit := text.toList.any fun c => "nsuµmh".toList.contains c
  ((parse (if hasUnit then text else text ++ "ns")).toOption).getD 0

end HostScript.Duration
