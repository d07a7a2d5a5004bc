import HostScript.Text.Bytes

/-!
UTF-8 decoding of arbitrary bytes. Every byte belongs to exactly one rune: a rune is a
well-formed sequence with its character, or a single byte that starts no well-formed
sequence and stands for U+FFFD.
-/

set_option autoImplicit false

namespace HostScript

/-- White space: the ASCII controls from tab to carriage return, the blank, next line, and
the separators beyond ASCII. -/
def isSpace (c : Char) : Bool :=
  let n := c.toNat
  (9 ≤ n && n ≤ 13) || n == 0x20 || n == 0x85 || n == 0xA0 || n == 0x1680
    || (0x2000 ≤ n && n ≤ 0x200A) || n == 0x2028 || n == 0x2029 || n == 0x202F
    || n == 0x205F || n == 0x3000

def isDigit (c : Char) : Bool := '0' ≤ c && c ≤ '9'

def umlauts : List Char := ['ö', 'Ö', 'ä', 'Ä', 'ü', 'Ü', 'ß']

def isWordStart (c : Char) : Bool :=
  c == '_' || ('a' ≤ c && c ≤ 'z') || ('A' ≤ c && c ≤ 'Z') || umlauts.contains c

def isWord (c : Char) : Bool := isWordStart c || isDigit c

structure Rune where
  char : Char
  bytes : Bytes
  deriving DecidableEq, Repr, Inhabited

def Rune.size (r : Rune) : Nat := r.bytes.length

/-- Stands for every byte that is part of no well-formed sequence. -/
def replacement : Char := Char.ofNat 0xFFFD

def Rune.isInvalid (r : Rune) : Bool := r.char == replacement && r.size == 1

def unitsOf (c : Char) : Nat := if c.toNat < 0x10000 then 1 else 2

namespace Rune

def join (rs : List Rune) : Bytes := rs.flatMap (·.bytes)

def sizes : List Rune → Nat
  | [] => 0
  | r :: rs => r.size + sizes rs

def units : List Rune → Nat
  | [] => 0
  | r :: rs => unitsOf r.char + units rs

end Rune

namespace Bytes

def isTail (b : UInt8) : Bool := 0x80 ≤ b && b ≤ 0xBF

/-- Second bytes that may follow the first byte of a sequence of three or four. The bounds
leave out overlong forms, surrogates and values beyond U+10FFFF. -/
def isSecond (first second : UInt8) : Bool :=
  if first = 0xE0 then 0xA0 ≤ second && second ≤ 0xBF
  else if first = 0xED then 0x80 ≤ second && second ≤ 0x9F
  else if first = 0xF0 then 0x90 ≤ second && second ≤ 0xBF
  else if first = 0xF4 then 0x80 ≤ second && second ≤ 0x8F
  else isTail second

def tailBits (b : UInt8) : Nat := b.toNat % 64

def wellFormedHead? (b : UInt8) (bs : Bytes) : Option Rune :=
  if b < 0x80 then some ⟨Char.ofNat b.toNat, [b]⟩
  else if 0xC2 ≤ b && b ≤ 0xDF then
    match bs with
    | c :: _ =>
      if isTail c then some ⟨Char.ofNat (b.toNat % 32 * 64 + tailBits c), [b, c]⟩ else none
    | _ => none
  else if 0xE0 ≤ b && b ≤ 0xEF then
    match bs with
    | c :: d :: _ =>
      if isSecond b c && isTail d then
        some ⟨Char.ofNat (b.toNat % 16 * 4096 + tailBits c * 64 + tailBits d), [b, c, d]⟩
      else none
    | _ => none
  else if 0xF0 ≤ b && b ≤ 0xF4 then
    match bs with
    | c :: d :: e :: _ =>
      if isSecond b c && isTail d && isTail e then
        some ⟨Char.ofNat (b.toNat % 8 * 262144 + tailBits c * 4096 + tailBits d * 64 + tailBits e),
          [b, c, d, e]⟩
      else none
    | _ => none
  else none

def headRune (b : UInt8) (bs : Bytes) : Rune :=
  (wellFormedHead? b bs).getD ⟨replacement, [b]⟩

/-- Decodes after leaving out `skip` bytes, which belong to the rune decoded before. -/
def runesAfter : Nat → Bytes → List Rune
  | _, [] => []
  | skip + 1, _ :: bs => runesAfter skip bs
  | 0, b :: bs => headRune b bs :: runesAfter ((headRune b bs).size - 1) bs

def runes (bs : Bytes) : List Rune := runesAfter 0 bs

def head? : Bytes → Option Rune
  | [] => none
  | b :: bs => some (headRune b bs)

def lastOfSize? (bs : Bytes) (size : Nat) : Option Rune :=
  if size ≤ bs.length then
    (head? (bs.drop (bs.length - size))).bind fun r => if r.size = size then some r else none
  else none

/-- The rune that ends `bs`: a longer well-formed sequence before a single byte. -/
def last? (bs : Bytes) : Option Rune :=
  [4, 3, 2, 1].findSome? (lastOfSize? bs)

def units (bs : Bytes) : Nat := Rune.units (runes bs)

def toText (bs : Bytes) : String := String.ofList ((runes bs).map (·.char))

def isWellFormed (bs : Bytes) : Bool := (runes bs).all fun r => !r.isInvalid

end Bytes

def trimChars (cs : List Char) : List Char :=
  ((cs.dropWhile isSpace).reverse.dropWhile isSpace).reverse

def trimString (s : String) : String := String.ofList (trimChars s.toList)

namespace Bytes

def trim (bs : Bytes) : Bytes :=
  let rs := (runes bs).dropWhile fun r => isSpace r.char
  Rune.join (rs.reverse.dropWhile fun r => isSpace r.char).reverse

def dropIndent (bs : Bytes) : Bytes := bs.dropWhile fun b => b == blank || b == tab

end Bytes

end HostScript
