import HostScript.Text.Quoted

/-!
JSON values and their indented text. Strings hold bytes, so text that is not well-formed
UTF-8 can be written too: each byte that cannot be decoded becomes U+FFFD.
-/

set_option autoImplicit false

namespace HostScript

/-- A number is `mantissa / 10 ^ exponent`. -/
inductive Json where
  | null
  | bool (b : Bool)
  | number (mantissa : Int) (exponent : Nat)
  | string (text : Bytes)
  | array (items : List Json)
  | object (fields : List (String × Json))
  deriving Inhabited

namespace Json

def str (s : String) : Json := .string (utf8 s)

def int (n : Int) : Json := .number n 0

def nat (n : Nat) : Json := .number n 0

def list {α : Type} (f : α → Json) (xs : List α) : Json := .array (xs.map f)

def listOrNull {α : Type} (f : α → Json) (xs : List α) : Json :=
  if xs.isEmpty then .null else list f xs

def option {α : Type} (f : α → Json) : Option α → Json
  | some a => f a
  | none => .null

def textField (key : String) (text : String) : List (String × Json) :=
  if text.isEmpty then [] else [(key, str text)]

def flagField (key : String) (flag : Bool) : List (String × Json) :=
  if flag then [(key, .bool true)] else []

def listField {α : Type} (key : String) (f : α → Json) (xs : List α) : List (String × Json) :=
  if xs.isEmpty then [] else [(key, list f xs)]

def isNull : Json → Bool
  | .null => true
  | _ => false

/-- Quotes, backslashes and control characters are escaped, and so are the characters that
have a meaning in markup and the two Unicode line separators. -/
def escapeChar (c : Char) : String :=
  if c == '"' then "\\\""
  else if c == '\\' then "\\\\"
  else match c.toNat with
    | 8 => "\\b"
    | 9 => "\\t"
    | 10 => "\\n"
    | 12 => "\\f"
    | 13 => "\\r"
    | n =>
      if n < 0x20 || c == '<' || c == '>' || c == '&' || n == 0x2028 || n == 0x2029 then
        "\\u" ++ Quoted.hex 4 n
      else String.singleton c

def quote (text : Bytes) : String :=
  "\"" ++ String.join (text.runes.map fun r => escapeChar r.char) ++ "\""

def indent (level : Nat) : String := String.ofList (List.replicate (2 * level) ' ')

def surround (opening closing : String) (level : Nat) (items : List String) : String :=
  if items.isEmpty then opening ++ closing
  else
    let lines := items.map (indent (level + 1) ++ ·)
    opening ++ "\n" ++ String.intercalate ",\n" lines ++ "\n" ++ indent level ++ closing

mutual

def renderAt (level : Nat) : Json → String
  | .null => "null"
  | .bool b => if b then "true" else "false"
  | .number mantissa exponent => toString (mantissa / (10 ^ exponent : Nat))
  | .string text => quote text
  | .array items => surround "[" "]" level (renderItems (level + 1) items)
  | .object fields => surround "\x7b" "\x7d" level (renderFields (level + 1) fields)

def renderItems (level : Nat) : List Json → List String
  | [] => []
  | item :: rest => renderAt level item :: renderItems level rest

def renderFields (level : Nat) : List (String × Json) → List String
  | [] => []
  | (key, value) :: rest =>
    (quote (utf8 key) ++ ": " ++ renderAt level value) :: renderFields level rest

end

def render (j : Json) : String := renderAt 0 j ++ "\n"

end Json

end HostScript
