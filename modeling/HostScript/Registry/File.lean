import HostScript.Registry
import HostScript.Text.Number

/-!
A registry as the text of a file: a line for each row, its fields divided by blanks. Names and
URIs are written in hexadecimal, so that they may hold anything.
-/

set_option autoImplicit false

namespace HostScript.Registry

def firstLine : String := "script registry"

def hexOf (bs : Bytes) : String := "x" ++ String.join (bs.map fun b => Quoted.hex 2 b.toNat)

def pairs? : List Char → Option Bytes
  | [] => some []
  | a :: b :: rest => do
    let byte ← Number.digits? 16 [a, b]
    return byte.toUInt8 :: (← pairs? rest)
  | [_] => none

def ofHex? (s : String) : Option Bytes :=
  match s.toList with
  | 'x' :: cs => pairs? cs
  | _ => none

def BlockRow.line (r : BlockRow) : String :=
  String.intercalate " " [r.entry.kind.name, toString r.key, toString r.entry.number,
    if r.entry.terminated then "1" else "0", toString r.entry.startLine, toString r.entry.endLine,
    hexOf r.entry.name, hexOf (utf8 r.entry.uri)]

def IncludeRow.line (r : IncludeRow) : String :=
  String.intercalate " " ["include", toString r.block, toString r.target, toString r.line]

def HookRow.line (r : HookRow) : String :=
  String.intercalate " " ["hook", toString r.block, toString r.number, toString r.line, hexOf r.name]

def encode (r : Registry) : Bytes :=
  utf8 (String.join (([firstLine, "next " ++ toString r.nextKey] ++ r.blocks.map BlockRow.line
    ++ r.includes.map IncludeRow.line ++ r.hooks.map HookRow.line).map (· ++ "\n")))

def int? (s : String) : Option Int := (Number.decimal s).toOption

def nat? (s : String) : Option Nat := (int? s).bind fun n => if n < 0 then none else some n.toNat

def addLine (r : Registry) (line : String) : Option Registry := do
  match splitString ' ' line with
  | ["next", key] => return { r with nextKey := ← nat? key }
  | ["include", block, target, line] =>
    return { r with includes := r.includes ++ [⟨← nat? block, ← nat? target, ← int? line⟩] }
  | ["hook", block, number, line, name] =>
    return { r with hooks := r.hooks ++ [⟨← nat? block, ← ofHex? name, ← nat? number, ← int? line⟩] }
  | [kind, key, number, terminated, startLine, endLine, name, uri] =>
    let kind ← [BlockKind.script, .insertion].find? (·.name == kind)
    let entry : Entry :=
      ⟨kind, ← int? number, ← ofHex? name, (← ofHex? uri).toText, ← int? startLine, ← int? endLine,
        terminated == "1"⟩
    return { r with blocks := r.blocks ++ [⟨← nat? key, entry⟩] }
  | _ => none

/-- The registry of a text, unless the text is none of a registry. An empty file is an empty
registry. -/
def decode? (text : Bytes) : Option Registry :=
  match splitString '\n' text.toText with
  | [""] => some {}
  | first :: lines =>
    if first = firstLine then (lines.filter (!·.isEmpty)).foldlM addLine {} else none
  | [] => none

end HostScript.Registry
