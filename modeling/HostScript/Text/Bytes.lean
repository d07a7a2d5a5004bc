/-!
Byte sequences. Offsets into a text are byte offsets, so texts are kept as bytes
and may hold sequences that are not well-formed UTF-8.
-/

set_option autoImplicit false

namespace HostScript

abbrev Bytes := List UInt8

def utf8 (s : String) : Bytes := s.toByteArray.data.toList

@[simp] theorem utf8_append (s t : String) : utf8 (s ++ t) = utf8 s ++ utf8 t := by
  simp [utf8]

theorem utf8_inj {a b : String} (h : utf8 a = utf8 b) : a = b := by
  apply String.toByteArray_inj.mp
  exact ByteArray.ext (Array.toList_inj.mp h)

namespace Bytes

def newline : UInt8 := 10
def carriageReturn : UInt8 := 13
def blank : UInt8 := 32
def tab : UInt8 := 9

def slice (bs : Bytes) (start stop : Nat) : Bytes := (bs.drop start).take (stop - start)

def after? (bs head : Bytes) : Option Bytes :=
  if head.isPrefixOf bs then some (bs.drop head.length) else none

def startsWith (bs head : Bytes) : Bool := head.isPrefixOf bs

def endsWith (bs tail : Bytes) : Bool := tail.isSuffixOf bs

def dropRightWhile (p : UInt8 → Bool) (bs : Bytes) : Bytes :=
  (bs.reverse.dropWhile p).reverse

def splitOn (sep : UInt8) : Bytes → List Bytes
  | [] => [[]]
  | b :: bs =>
    if b = sep then [] :: splitOn sep bs
    else match splitOn sep bs with
      | [] => [[b]]
      | part :: parts => (b :: part) :: parts

def isDigit (b : UInt8) : Bool := 48 ≤ b && b ≤ 57

def isDigits (bs : Bytes) : Bool := !bs.isEmpty && bs.all isDigit

/-- Reads decimal digits from the left; other bytes do not occur in its uses. -/
def digitsValue (bs : Bytes) : Nat :=
  bs.foldl (fun n b => 10 * n + (b.toNat - 48)) 0

def numberLimit : Nat := 9223372036854775807

def number? (bs : Bytes) : Option Nat :=
  if isDigits bs then
    let n := digitsValue bs
    if n ≤ numberLimit then some n else none
  else none

def less : Bytes → Bytes → Bool
  | _, [] => false
  | [], _ :: _ => true
  | a :: as, b :: bs => a < b || (a == b && less as bs)

end Bytes

end HostScript
