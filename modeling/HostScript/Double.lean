/-!
Numbers in the binary format of 64 bits, and their decimal texts. A decimal is rounded to the nearest
number of the format, a tie to the even one, and a number is written with the fewest digits that are
rounded to it again.
-/

set_option autoImplicit false

namespace HostScript

inductive Double where
  | finite (isNegative : Bool) (mantissa : Nat) (exponent : Int)
  | infinite (isNegative : Bool)
  | notNumber
  deriving DecidableEq, Repr, Inhabited

structure Decimal where
  isNegative : Bool
  digits : Nat
  exponent : Int
  deriving DecidableEq, Repr

def powerFraction (base : Nat) (k : Int) : Nat × Nat :=
  if 0 ≤ k then (Nat.pow base k.toNat, 1) else (1, Nat.pow base (-k).toNat)

namespace Double

def mantissaBits : Nat := 53

def mantissaLimit : Nat := Nat.pow 2 mantissaBits

def leastNormal : Nat := Nat.pow 2 (mantissaBits - 1)

def leastExponent : Int := -1074

def greatestExponent : Int := 971

def roundEven (num den : Nat) : Nat :=
  let q := num / den
  let twice := 2 * (num % den)
  if den < twice || (twice = den && q % 2 = 1) then q + 1 else q

def ofFraction? (isNegative : Bool) (num den : Nat) : Option Double :=
  let size : Int := (Nat.log2 num : Int) - (Nat.log2 den : Int)
  -- The quotient has `size` or `size + 1` bits, so one of two exponents fits.
  let scaled (e : Int) : Nat × Nat :=
    if 0 ≤ e then (num, den * Nat.pow 2 e.toNat) else (num * Nat.pow 2 (-e).toNat, den)
  let guess := size - (mantissaBits : Int) + 1
  let fits := (scaled guess).1 < (scaled guess).2 * mantissaLimit
    && (scaled guess).2 * leastNormal ≤ (scaled guess).1
  let e := max leastExponent (if fits then guess
    else if (scaled guess).1 < (scaled guess).2 * leastNormal then guess - 1 else guess + 1)
  let m := roundEven (scaled e).1 (scaled e).2
  let (m, e) := if m = mantissaLimit then (m / 2, e + 1) else (m, e)
  if greatestExponent < e then none else some (.finite isNegative m e)

def ofDecimal? (d : Decimal) : Option Double :=
  let length : Int := (Nat.toDigits 10 d.digits).length
  if d.digits = 0 || length + d.exponent < -330 then some (.finite d.isNegative 0 0)
  else if 310 < length + d.exponent then none
  else
    let (num, den) := powerFraction 10 d.exponent
    ofFraction? d.isNegative (d.digits * num) den

def ofInt (n : Int) : Double := (ofDecimal? ⟨n < 0, n.natAbs, 0⟩).getD .notNumber

def wholeDigits (num den : Nat) : Nat := (Nat.toDigits 10 (num / den)).length

/-- The power of ten just above a positive fraction. The first argument bounds the zeros behind
the point. -/
def decimalSize (num den : Nat) : Nat → Int
  | 0 => 0
  | fuel + 1 =>
    if den ≤ num then wholeDigits num den else decimalSize (10 * num) den fuel - 1

/-- The value of a positive number, and the bounds of what is rounded to it, in units of
`2 ^ (exponent - 2)`. -/
structure Interval where
  value : Nat
  low : Nat
  high : Nat
  isClosed : Bool

def interval (m : Nat) (e : Int) : Interval where
  value := 4 * m
  low := if m = leastNormal && leastExponent < e then 4 * m - 1 else 4 * m - 2
  high := 4 * m + 2
  isClosed := m % 2 = 0

def Interval.contains (i : Interval) (unit : Nat × Nat) (num den : Nat) : Bool :=
  let x := num * unit.2
  let low := i.low * unit.1 * den
  let high := i.high * unit.1 * den
  if i.isClosed then low ≤ x && x ≤ high else low < x && x < high

/-- The decimal with digits at `10 ^ k` and above that is rounded to the number, if there is one; of
two the nearer one. -/
def shortestAt? (i : Interval) (unit : Nat × Nat) (k : Int) : Option (Nat × Int) :=
  let (tenNum, tenDen) := powerFraction 10 k
  let num := i.value * unit.1 * tenDen
  let den := unit.2 * tenNum
  let below := num / den
  let isIn (c : Nat) : Bool := i.contains unit (c * tenNum) tenDen
  let nearerUp := den < 2 * (num % den) || (2 * (num % den) = den && below % 2 = 1)
  if isIn below && isIn (below + 1) then some (if nearerUp then below + 1 else below, k)
  else if isIn below then some (below, k)
  else if isIn (below + 1) then some (below + 1, k)
  else none

def shortest (m : Nat) (e : Int) : Nat × Int :=
  let i := interval m e
  let unit := powerFraction 2 (e - 2)
  let size := decimalSize (i.value * unit.1) unit.2 340
  ((List.range 17).findSome? fun (d : Nat) => shortestAt? i unit (size - (d + 1 : Nat))).getD (0, 0)

def positional (digits : Nat) (exponent : Int) : String :=
  if digits = 0 then "0"
  else
    let cs := Nat.toDigits 10 digits
    if 0 ≤ exponent then String.ofList (cs ++ List.replicate exponent.toNat '0')
    else
      let behind := (-exponent).toNat
      let padded := List.replicate (behind + 1 - cs.length) '0' ++ cs
      let whole := padded.take (padded.length - behind)
      let fraction := ((padded.drop whole.length).reverse.dropWhile (· == '0')).reverse
      String.ofList (if fraction.isEmpty then whole else whole ++ '.' :: fraction)

def text : Double → String
  | .finite isNegative m e =>
    let (digits, exponent) := if m = 0 then (0, 0) else shortest m e
    (if isNegative then "-" else "") ++ positional digits exponent
  | .infinite isNegative => if isNegative then "-Inf" else "+Inf"
  | .notNumber => "NaN"

def truncate? : Double → Option Int
  | .finite isNegative m e =>
    let (num, den) := powerFraction 2 e
    let n : Int := m * num / den
    some (if isNegative then -n else n)
  | _ => none

end Double

end HostScript
