import HostScript.Text.Split

/-!
Lists written in one line, with commas between the items. An item in quotes may hold commas, and
a quote in it is written twice.
-/

set_option autoImplicit false

namespace HostScript.CommaList

inductive CommaListFault where
  | bareQuote (column : Nat)
  | looseQuote (column : Nat)
  deriving DecidableEq, Repr

def CommaListFault.message : CommaListFault → String
  | .bareQuote column =>
    "parse error on line 1, column " ++ toString column ++ ": bare \" in non-quoted field"
  | .looseQuote column =>
    "parse error on line 1, column " ++ toString column ++ ": extraneous or missing \" in quoted-field"

def width (cs : List Char) : Nat := (String.ofList cs).utf8ByteSize

def quoted (column : Nat) (item : List Char) : List Char → Except CommaListFault (String × Option (List Char))
  | [] => .error (.looseQuote column)
  | ['"'] => .ok (String.ofList item.reverse, none)
  | '"' :: '"' :: cs => quoted (column + 2) ('"' :: item) cs
  | '"' :: ',' :: cs => .ok (String.ofList item.reverse, some cs)
  | '"' :: _ => .error (.looseQuote column)
  | c :: cs => quoted (column + width [c]) (c :: item) cs

def item (column : Nat) : List Char → Except CommaListFault (String × Option (List Char))
  | '"' :: cs => quoted (column + 1) [] cs
  | cs =>
    let plain := cs.takeWhile (· != ',')
    if plain.contains '"' then .error (.bareQuote (column + width (plain.takeWhile (· != '"'))))
    else .ok (String.ofList plain, match cs.drop plain.length with
      | [] => none
      | _ :: rest => some rest)

def items : Nat → (total : Nat) → List Char → Except CommaListFault (List String)
  | 0, _, _ => .ok []
  | fuel + 1, total, cs => do
    let (first, rest) ← item (total - width cs + 1) cs
    match rest with
    | none => return [first]
    | some rest => return first :: (← items fuel total rest)

def parse (text : String) : Except CommaListFault (List String) :=
  if text.isEmpty then .ok []
  else items (text.length + 1) text.utf8ByteSize text.toList

end HostScript.CommaList
