import HostScript.Text.Rune
import HostScript.Value

set_option autoImplicit false

namespace HostScript.Config.Dotenv

inductive DotenvError where
  | missingQuotes
  | unset (line : String)
  | noVariable (line : String)
  deriving DecidableEq, Repr

def DotenvError.message : DotenvError → String
  | .missingQuotes => "missing quotes"
  | .unset line => "line \x60" ++ line ++ "\x60 has an unset variable"
  | .noVariable line => "line \x60" ++ line ++ "\x60 doesn't match format"

/-- Lines end at a carriage return, at a newline, or at both. -/
def linesOf (line : List Char) : List Char → List (List Char)
  | [] => if line.isEmpty then [] else [line.reverse]
  | '\r' :: '\n' :: cs => line.reverse :: linesOf [] cs
  | c :: cs => if c = '\n' || c = '\r' then line.reverse :: linesOf [] cs else linesOf (c :: line) cs

def lastIndex? (q : Char) (cs : List Char) : Option Nat :=
  let tail := cs.reverse.takeWhile (· != q)
  if tail.length = cs.length then none else some (cs.length - tail.length - 1)

def trim (cs : List Char) : List Char :=
  ((cs.dropWhile isSpace).reverse.dropWhile isSpace).reverse

def openQuote? (line : List Char) : Option Char :=
  let at? (c : Char) : Option Nat :=
    let head := line.takeWhile (· != c)
    if head.length = line.length then none else some head.length
  match (at? '=').or (at? ':') with
  | none => none
  | some i =>
    if i = 0 || line.length ≤ i + 1 then none
    else
      match trim (line.drop (i + 1)) with
      | [] => none
      | q :: rest =>
        if q = '"' || q = '\'' then
          match lastIndex? q (trim rest) with
          | some j => if (q :: rest)[j]? == some '\\' then some q else none
          | none => some q
        else none

def closeQuote (q : Char) (line : List Char) : List (List Char) → Option (List Char × List (List Char))
  | [] => none
  | next :: rest =>
    let line := line ++ '\n' :: next
    match lastIndex? q next with
    | none => closeQuote q line rest
    | some j => if 0 < j && next[j - 1]? == some '\\' then closeQuote q line rest else some (line, rest)

def isGap (c : Char) : Bool := [' ', '\t', '\n', '\r', '\x0c'].contains c

def isNameChar (c : Char) : Bool := c.isAlphanum || c == '_' || c == '.'

def isTail (cs : List Char) : Bool :=
  match cs.dropWhile isGap with
  | [] => true
  | c :: rest => c == '#' && !rest.contains '\n'

def quotedPart? (q : Char) (cs : List Char) : Option (List Char) :=
  ((List.range cs.length).reverse.find? fun n => 0 < n && cs[n]? == some q && isTail (cs.drop (n + 1))).map
    fun n => cs.take (n + 1)

def valuePart? (cs : List Char) : Option (List Char) :=
  let quoted := match cs.head? with
    | some '\'' => quotedPart? '\'' cs
    | some '"' => quotedPart? '"' cs
    | _ => none
  let plain := cs.takeWhile fun c => c != '#' && c != '\n'
  quoted.or (if isTail (cs.drop plain.length) then some plain else none)

def assignment? (cs : List Char) : Option (String × List Char) := do
  let name := cs.takeWhile isNameChar
  if name.isEmpty then none
  let rest := cs.drop name.length
  let value ← match rest.dropWhile isGap with
    | '=' :: value => some (value.dropWhile isGap)
    | _ =>
      match rest with
      | ':' :: c :: value => if isGap c then some value else none
      | _ => none
  return (String.ofList name, ← valuePart? value)

def exportWord : List Char := "export".toList

def variableOf? (line : List Char) : Option (String × List Char) :=
  let cs := line.dropWhile isGap
  let exported := if exportWord.isPrefixOf cs && ((cs.drop 6).head?.any isGap) then
      assignment? ((cs.drop 6).dropWhile isGap)
    else none
  exported.or (assignment? cs)

def unescape : List Char → List Char
  | '\\' :: c :: cs => if c = '$' then '\\' :: '$' :: unescape cs else c :: unescape cs
  | c :: cs => c :: unescape cs
  | [] => []

def breaks : List Char → List Char
  | '\\' :: 'n' :: cs => '\n' :: breaks cs
  | '\\' :: 'r' :: cs => '\r' :: breaks cs
  | c :: cs => c :: breaks cs
  | [] => []

def isVariableChar (c : Char) : Bool := ('A' ≤ c && c ≤ 'Z') || isDigit c || c == '_'

/-- Puts variables in where a dollar sign names them. A backslash before the sign keeps it. -/
def substitute (lookup : String → String) : Nat → List Char → List Char
  | 0, cs => cs
  | fuel + 1, cs =>
    match cs with
    | [] => []
    | '\\' :: '$' :: rest => '$' :: substitute lookup fuel rest
    | '$' :: rest =>
      let braced := rest.head? == some '\x7b'
      let body := if braced then rest.drop 1 else rest
      let name := body.takeWhile isVariableChar
      let after := body.drop name.length
      let after := if after.head? == some '\x7d' then after.drop 1 else after
      let used := rest.take (rest.length - after.length)
      if name.isEmpty then '$' :: used ++ substitute lookup fuel after
      else (lookup (String.ofList name)).toList ++ substitute lookup fuel after
    | c :: rest => c :: substitute lookup fuel rest

/-- The value that is meant: quotes are taken off, and outside of single quotes variables are put
in. -/
def meaning (lookup : String → String) (cs : List Char) : String :=
  let value := trim cs
  let within (q : Char) : Bool := 2 ≤ value.length && value.head? == some q && value.getLast? == some q
  let inner := (value.drop 1).dropLast
  if within '\'' then String.ofList inner
  else
    let text := if within '"' then unescape (breaks inner) else value
    String.ofList (substitute lookup (text.length + 1) text)

def complaint (known : List (String × String)) (line : List Char) : DotenvError :=
  let cs := trim line
  let name := (cs.dropWhile (· != ' ')).drop 1
  if exportWord.isPrefixOf cs && cs.contains ' ' && (known.lookup (String.ofList name)).isNone then
    .unset (String.ofList cs)
  else .noVariable (String.ofList line)

def read (outside : List (String × String)) : Nat → List (String × String) → List (List Char) →
    Except DotenvError (List (String × String))
  | 0, known, _ => .ok known
  | _, known, [] => .ok known
  | fuel + 1, known, first :: rest =>
    let line := trim first
    if line.isEmpty || line.head? == some '#' then read outside fuel known rest
    else do
      let (line, rest) ← match openQuote? line with
        | none => pure (line, rest)
        | some q =>
          match closeQuote q line rest with
          | some found => pure found
          | none => throw .missingQuotes
      match variableOf? line with
      | none => throw (complaint known line)
      | some (name, value) =>
        let lookup (name : String) : String := ((outside.lookup name).or (known.lookup name)).getD ""
        read outside fuel ((name, meaning lookup value) :: known.filter (·.1 != name)) rest

def parse (outside : List (String × String)) (text : String) : Except DotenvError (List (String × Value)) := do
  let cs := match text.toList with
    | '\uFEFF' :: cs => cs
    | cs => cs
  let known ← read outside (cs.length + 1) [] (linesOf [] cs)
  return known.map fun (name, value) => (name, .text value)

end HostScript.Config.Dotenv
