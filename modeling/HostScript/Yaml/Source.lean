import HostScript.Text.Bytes
import HostScript.Yaml.Fault

/-!
The characters of a YAML text. Its bytes are UTF-8, or UTF-16 after a byte order mark, and control
characters other than tabs and line breaks are refused.
-/

set_option autoImplicit false

namespace HostScript.Yaml

inductive Encoding where
  | utf8 | utf16 (littleEndian : Bool)
  deriving DecidableEq, Repr

def Encoding.ofMark : Bytes → Encoding × Nat
  | 0xFF :: 0xFE :: _ => (.utf16 true, 2)
  | 0xFE :: 0xFF :: _ => (.utf16 false, 2)
  | 0xEF :: 0xBB :: 0xBF :: _ => (.utf8, 3)
  | _ => (.utf8, 0)

def isAllowed (code : Nat) : Bool :=
  code == 9 || code == 10 || code == 13 || (0x20 ≤ code && code ≤ 0x7E) || code == 0x85
    || (0xA0 ≤ code && code ≤ 0xD7FF) || (0xE000 ≤ code && code ≤ 0xFFFD)
    || (0x10000 ≤ code && code ≤ 0x10FFFF)

abbrev Head := Except Problem (Option (Nat × Nat))

def octetCount (b : UInt8) : Nat :=
  if b < 0x80 then 1 else if b < 0xC0 then 0 else if b < 0xE0 then 2 else if b < 0xF0 then 3
  else if b < 0xF8 then 4 else 0

def leastCode : Nat → Nat
  | 2 => 0x80
  | 3 => 0x800
  | 4 => 0x10000
  | _ => 0

def utf8Head (b : UInt8) (bs : Bytes) : Head :=
  let width := octetCount b
  if width = 0 then .error .badLeadingOctet
  else if bs.length + 1 < width then .ok none
  else
    let tail := bs.take (width - 1)
    let lead := if width = 1 then b.toNat else b.toNat % Nat.pow 2 (7 - width)
    let code := tail.foldl (fun n b => n * 64 + b.toNat % 64) lead
    if tail.any fun b => b < 0x80 || 0xC0 ≤ b then .error .badTrailingOctet
    else if code < leastCode width then .error .badOctetLength
    else if (0xD800 ≤ code && code ≤ 0xDFFF) || 0x10FFFF < code then .error .notUnicode
    else .ok (some (code, width))

def unit (littleEndian : Bool) (a b : UInt8) : Nat :=
  if littleEndian then a.toNat + 256 * b.toNat else 256 * a.toNat + b.toNat

def utf16Head (littleEndian : Bool) : Bytes → Head
  | a :: b :: rest =>
    let high := unit littleEndian a b
    if 0xDC00 ≤ high && high ≤ 0xDFFF then .error .lowSurrogate
    else if 0xD800 ≤ high && high ≤ 0xDBFF then
      match rest with
      | c :: d :: _ =>
        let low := unit littleEndian c d
        if 0xDC00 ≤ low && low ≤ 0xDFFF then
          .ok (some (0x10000 + (high - 0xD800) * 1024 + (low - 0xDC00), 4))
        else .error .badPair
      | _ => .ok none
    else .ok (some (high, 2))
  | _ => .ok none

def Encoding.incomplete (bs : Bytes) : Encoding → Problem
  | .utf8 => .incompleteOctets
  | .utf16 _ => if bs.length < 2 then .incompleteUnit else .incompletePair

def Encoding.head (e : Encoding) : Bytes → Head
  | [] => .ok none
  | b :: bs =>
    match e with
    | .utf8 => utf8Head b bs
    | .utf16 littleEndian => utf16Head littleEndian (b :: bs)

/-- The characters that can be read, and why there are no more of them if not because the text
ends. -/
structure Source where
  chars : List Char
  problem : Option Problem := none

namespace Source

def portion : Nat := 512

def decodePortion (e : Encoding) : Nat → (size : Nat) → List Char → Bytes →
    Except Problem (List Char × Bytes)
  | 0, _, done, bs => .ok (done, bs)
  | fuel + 1, size, done, bs =>
    match e.head (bs.take size) with
    | .error problem => .error problem
    | .ok none => .ok (done, bs)
    | .ok (some (code, width)) =>
      if isAllowed code then decodePortion e fuel (size - width) (Char.ofNat code :: done) (bs.drop width)
      else .error .controlCharacter

/-- Decodes portion after portion. A problem makes the whole portion unreadable. -/
def decode (e : Encoding) : Nat → (size : Nat) → List Char → Bytes → Source
  | 0, _, done, _ => ⟨done.reverse, none⟩
  | fuel + 1, size, done, bs =>
    match decodePortion e size size done bs with
    | .error problem => ⟨done.reverse, some problem⟩
    | .ok (next, rest) =>
      if rest.isEmpty then ⟨next.reverse, none⟩
      else if bs.length ≤ size then ⟨next.reverse, some (e.incomplete rest)⟩
      else decode e fuel portion next rest

def ofBytes (bs : Bytes) : Source :=
  let (e, mark) := Encoding.ofMark bs
  decode e (bs.length + 1) (portion - mark) [] (bs.drop mark)

end Source

end HostScript.Yaml
