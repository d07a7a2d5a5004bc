import HostScript.Text.Printable
import HostScript.Text.Rune

/-!
Quoted text for messages. Printable characters stand for themselves, the usual control
characters have letter escapes, and everything else is written by its code.
-/

set_option autoImplicit false

namespace HostScript.Quoted

def hexDigit (n : Nat) : Char := Char.ofNat (if n < 10 then 48 + n else 87 + n)

def hex : (width : Nat) → (n : Nat) → String
  | 0, _ => ""
  | width + 1, n => (hex width (n / 16)).push (hexDigit (n % 16))

def escape (quote : Char) (c : Char) : String :=
  if c == quote || c == '\\' then String.ofList ['\\', c]
  else if isPrintable c then String.singleton c
  else match c.toNat with
    | 7 => "\\a"
    | 8 => "\\b"
    | 9 => "\\t"
    | 10 => "\\n"
    | 11 => "\\v"
    | 12 => "\\f"
    | 13 => "\\r"
    | n =>
      if n < 0x20 || n == 0x7F then "\\x" ++ hex 2 n
      else if n < 0x10000 then "\\u" ++ hex 4 n
      else "\\U" ++ hex 8 n

/-- A byte that cannot be decoded is written as two hexadecimal digits. -/
def escapeRune (quote : Char) (r : Rune) : String :=
  if r.isInvalid then "\\x" ++ hex 2 (r.bytes.headD 0).toNat else escape quote r.char

def text (bs : Bytes) : String :=
  "\"" ++ String.join (bs.runes.map (escapeRune '"')) ++ "\""

def string (s : String) : String :=
  "\"" ++ String.join (s.toList.map (escape '"')) ++ "\""

def char (c : Char) : String := "'" ++ escape '\'' c ++ "'"

end HostScript.Quoted
