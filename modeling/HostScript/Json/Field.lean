import HostScript.Document
import HostScript.Json
import HostScript.Text.Lower

/-!
Reading values from JSON. A field that is missing or null has the value that nothing was said about;
a field of the wrong type is refused, also where its value plays no part. Field names are told apart
without regard to case, so that a field can occur more than once, and what is said last counts.
-/

set_option autoImplicit false

namespace HostScript

/-- Reads a value from all that is said about it; no result means that a type is wrong. -/
abbrev FieldReader (α : Type) := List Json → Option α

namespace Field

/-- A letter without regard to case. The long s and the Kelvin sign are letters s and k. -/
def foldChar (c : Char) : Char :=
  if c = 'ſ' then 's' else if c = 'K' then 'k' else lowerChar c

def names (key field : String) : Bool := key.map foldChar == field.map foldChar

def field (j : Json) (key : String) : List Json :=
  match j with
  | .object fields => (fields.filter fun f => names f.1 key).map (·.2)
  | _ => []

def object : FieldReader Json := fun js =>
  (js.foldlM (fun fields (j : Json) =>
    match j with
    | .null => some fields
    | .object more => some (fields ++ more)
    | _ => none) []).map Json.object

/-- Reads every occurrence with `read`; null says nothing. -/
def last {α : Type} (read : Json → Option α) (start : α) : FieldReader α := fun js =>
  js.foldlM (fun a (j : Json) =>
    match j with
    | .null => some a
    | j => read j) start

def text : FieldReader Bytes :=
  last (fun
    | .string text => some text
    | _ => none) []

def name : FieldReader String := fun js => (text js).map Bytes.toText

def flag : FieldReader Bool :=
  last (fun
    | .bool b => some b
    | _ => none) false

def whole (low high : Int) : FieldReader Int :=
  last (fun
    | .number n 0 => if low ≤ n && n ≤ high then some n else none
    | _ => none) 0

def int32 : FieldReader Int := whole (-2147483648) 2147483647

def int64 : FieldReader Int := whole (-9223372036854775808) 9223372036854775807

def unsigned : FieldReader Int := whole 0 4294967295

/-- A value that may be left out; null takes back what was said before. -/
def optional {α : Type} (read : FieldReader α) : FieldReader (Option α) := fun js =>
  (read js).map fun a =>
    match js.getLast? with
    | none | some .null => none
    | some _ => some a

def items {α : Type} (read : FieldReader α) : FieldReader (List α) := fun js =>
  js.foldlM (fun _ (j : Json) =>
    match j with
    | .null => some []
    | .array values => values.mapM fun value => read [value]
    | _ => none) []

def position (coordinate : FieldReader Int) : FieldReader Position := fun js => do
  let j ← object js
  return ⟨← coordinate (field j "line"), ← coordinate (field j "character")⟩

def range (coordinate : FieldReader Int) : FieldReader Range := fun js => do
  let j ← object js
  return ⟨← position coordinate (field j "start"), ← position coordinate (field j "end")⟩

end Field

end HostScript
