import HostScript.Config.Json
import HostScript.Text.Number
import HostScript.Yaml.Scalar

/-!
Settings written as keys with values and blocks. Only what stands outside of all blocks can be looked
up.
-/

set_option autoImplicit false

namespace HostScript.Config.Hcl

structure Place where
  line : Nat := 1
  column : Nat := 0
  lastColumn : Nat := 0
  deriving DecidableEq, Repr

namespace Place

def step (p : Place) (c : Char) : Place :=
  if c = '\n' then ⟨p.line + 1, 0, p.column + 1⟩ else { p with column := p.column + 1 }

def after (p : Place) (cs : List Char) : Place := cs.foldl step p

/-- The place of the character that was read last; the end of a line belongs to the line. -/
def text (p : Place) : String :=
  if 0 < p.column then toString p.line ++ ":" ++ toString p.column
  else if 0 < p.lastColumn then toString (p.line - 1) ++ ":" ++ toString p.lastColumn
  else "1:1"

end Place

inductive Kind where
  | illegal | ending | word | number | float | bool | string | heredoc
  | openBracket | openBrace | comma | period | closeBracket | closeBrace | assign | plus | minus
  deriving DecidableEq, Repr

def Kind.name : Kind → String
  | .illegal => "ILLEGAL"
  | .ending => "EOF"
  | .word => "IDENT"
  | .number => "NUMBER"
  | .float => "FLOAT"
  | .bool => "BOOL"
  | .string => "STRING"
  | .heredoc => "HEREDOC"
  | .openBracket => "LBRACK"
  | .openBrace => "LBRACE"
  | .comma => "COMMA"
  | .period => "PERIOD"
  | .closeBracket => "RBRACK"
  | .closeBrace => "RBRACE"
  | .assign => "ASSIGN"
  | .plus => "ADD"
  | .minus => "SUB"

inductive Problem where
  | unclosedString | badEscape | unclosedComment | lonelySlash | badHeredoc | unclosedHeredoc | illegal
  | keyWithoutValue (keys : List String)
  | twoKeys
  | noKey
  | noKeyBefore (kind : Kind)
  | otherInKey (kind : Kind)
  | unknown (token : String)
  | unclosedBlock (kind : Kind)
  | missingComma (kind : Kind)
  | otherInList (kind : Kind)
  | inList (isList : Bool) (inner : String)
  deriving DecidableEq, Repr

def Problem.text : Problem → String
  | .unclosedString => "literal not terminated"
  | .badEscape => "illegal char escape"
  | .unclosedComment => "comment not terminated"
  | .lonelySlash => "expected '/' for comment"
  | .badHeredoc => "heredoc expected second '<', didn't see it"
  | .unclosedHeredoc => "heredoc not terminated"
  | .illegal => "illegal character"
  | .keyWithoutValue keys => "key '" ++ String.intercalate " " keys
      ++ "' expected start of object ('\x7b') or assignment ('=')"
  | .twoKeys => "nested object expected: LBRACE got: ASSIGN"
  | .noKey => "no object keys found!"
  | .noKeyBefore kind => "expected: IDENT | STRING got: " ++ kind.name
  | .otherInKey kind => "expected: IDENT | STRING | ASSIGN | LBRACE got: " ++ kind.name
  | .unknown token => "Unknown token: " ++ token
  | .unclosedBlock kind => "object expected closing RBRACE got: " ++ kind.name
  | .missingComma kind => "error parsing list, expected comma or list end, got: " ++ kind.name
  | .otherInList kind => "unexpected token while parsing list: " ++ kind.name
  | .inList isList inner =>
    "error while trying to parse " ++ (if isList then "list" else "object") ++ " within list: " ++ inner

structure Fault where
  place : Place
  problem : Problem
  deriving DecidableEq, Repr

inductive HclError where
  | fault (f : Fault)
  | number (text : String) (cause : Number.NumberFault)
  | json (cause : Json.JsonError)
  deriving DecidableEq, Repr

def Fault.message (f : Fault) : String := "At " ++ f.place.text ++ ": " ++ f.problem.text

def HclError.message : HclError → String
  | .fault f => f.message
  | .number text cause => Number.complaint text cause
  | .json cause => cause.message

structure Token where
  kind : Kind
  place : Place
  shown : List Char := []
  value : List Char := []
  fault : Option Fault := none

def Token.text (t : Token) : String := t.place.text ++ " " ++ t.kind.name ++ " " ++ String.ofList t.shown

def isLetter (c : Char) : Bool := c.isAlpha || c == '_' || 0x80 ≤ c.toNat

def isWordChar (c : Char) : Bool := isLetter c || isDigit c || c == '-' || c == '.'

def escapes : List (Char × Nat) :=
  [('a', 7), ('b', 8), ('f', 12), ('n', 10), ('r', 13), ('t', 9), ('v', 11), ('\\', 92), ('"', 34)]

def escape? : List Char → Option (Nat × Nat)
  | [] => none
  | c :: cs =>
    let width := if c = 'x' then 2 else if c = 'u' then 4 else if c = 'U' then 8 else 0
    if 0 < width then (Number.digits? 16 (cs.take width)).map (·, width + 1)
    else if isDigit c then (Number.digits? 8 ((c :: cs).take 3)).map (·, 3)
    else (escapes.lookup c).map (·, 1)

/-- The value of a string, the number of characters up to its closing quote, and whether it is right.
Between braces after a dollar sign nothing has a meaning but braces. -/
def stringBody : Nat → (depth count : Nat) → List Char → List Char → List Char × Nat × Option Problem
  | 0, _, count, value, _ => (value.reverse, count, some .unclosedString)
  | _, _, count, value, [] => (value.reverse, count, some .unclosedString)
  | fuel + 1, depth, count, value, c :: cs =>
    if depth = 0 then
      if c = '"' then (value.reverse, count + 1, none)
      else if c = '\n' then (value.reverse, count + 1, some .unclosedString)
      else if c = '$' && cs.head? == some '\x7b' then
        stringBody fuel 1 (count + 2) ('\x7b' :: '$' :: value) (cs.drop 1)
      else if c = '\\' then
        match escape? cs with
        | some (code, width) =>
          stringBody fuel 0 (count + 1 + width) (Char.ofNat code :: value) (cs.drop width)
        | none => (value.reverse, count + 2, some .badEscape)
      else stringBody fuel 0 (count + 1) (c :: value) cs
    else
      let depth := if c = '\x7b' then depth + 1 else if c = '\x7d' then depth - 1 else depth
      stringBody fuel depth (count + 1) (c :: value) cs

def heredocLines (isIndented : Bool) (anchor : List Char) (count : Nat) (done : List (List Char)) :
    List (List Char) → Option (List (List Char) × Nat)
  | [] => none
  | line :: rest =>
    let isEnd := (if isIndented then line.dropWhile fun c => c == ' ' || c == '\t' else line) == anchor
    if isEnd then some (done.reverse, count + line.length)
    else heredocLines isIndented anchor (count + line.length + 1) (line :: done) rest

def heredoc (cs : List Char) : List Char × Nat × Option Problem :=
  match cs with
  | '<' :: rest =>
    let isIndented := rest.head? == some '-'
    let body := if isIndented then rest.drop 1 else rest
    let anchor := body.takeWhile (· != '\n')
    let skipped := cs.length - body.length + anchor.length + 1
    match heredocLines isIndented (trimEnd anchor) skipped [] (splitChars '\n' (body.drop (anchor.length + 1))) with
    | some (lines, count) => (lines.flatMap (· ++ ['\n']), count, none)
    | none => ([], cs.length, some .unclosedHeredoc)
  | _ => ([], 1, some .badHeredoc)
where
  trimEnd (cs : List Char) : List Char := (cs.reverse.dropWhile (· == '\r')).reverse

def numberAt (cs : List Char) : Kind × Nat :=
  let signs := if cs.head? == some '-' then 1 else 0
  let body := cs.drop signs
  let exponent (cs : List Char) : Nat :=
    match cs with
    | e :: rest =>
      if e = 'e' || e = 'E' then
        let signs := if rest.head?.any fun c => c == '-' || c == '+' then 1 else 0
        1 + signs + ((rest.drop signs).takeWhile isDigit).length
      else 0
    | [] => 0
  match body with
  | '0' :: x :: rest =>
    if x = 'x' || x = 'X' then
      (.number, signs + 2 + (rest.takeWhile fun c => (Number.digitValue? 16 c).isSome).length)
    else general signs body exponent
  | _ => general signs body exponent
where
  general (signs : Nat) (body : List Char) (exponent : List Char → Nat) : Kind × Nat :=
    let whole := (body.takeWhile isDigit).length
    match body.drop whole with
    | '.' :: rest =>
      let fraction := (rest.takeWhile isDigit).length
      (.float, signs + whole + 1 + fraction + exponent (rest.drop fraction))
    | rest => (.number, signs + whole + exponent rest)

def comment : List Char → Nat × Option Problem
  | '#' :: cs => (1 + (cs.takeWhile (· != '\n')).length, none)
  | '/' :: '/' :: cs => (2 + (cs.takeWhile (· != '\n')).length, none)
  | '/' :: '*' :: cs => block 2 cs
  | _ => (2, some .lonelySlash)
where
  block (count : Nat) : List Char → Nat × Option Problem
    | '*' :: '/' :: _ => (count + 2, none)
    | _ :: cs => block (count + 1) cs
    | [] => (count, some .unclosedComment)

def signs : List (Char × Kind) :=
  [('[', .openBracket), (']', .closeBracket), ('\x7b', .openBrace), ('\x7d', .closeBrace), (',', .comma),
    ('.', .period), ('=', .assign), ('+', .plus), ('-', .minus)]

def tokens : Nat → Place → List Char → List Token
  | 0, p, _ => [{ kind := .ending, place := p }]
  | _, p, [] => [{ kind := .ending, place := p }]
  | fuel + 1, p, c :: cs =>
    let here := p.step c
    let all := c :: cs
    let emit (kind : Kind) (count : Nat) (value : List Char) (problem : Option Problem) : List Token :=
      let stop := p.after (all.take count)
      ⟨kind, here, all.take count, value, problem.map (Fault.mk stop)⟩ :: tokens fuel stop (all.drop count)
    if c = ' ' || c = '\t' || c = '\n' || c = '\r' then tokens fuel here cs
    else if isLetter c then
      let word := all.takeWhile isWordChar
      let isBool := word == "true".toList || word == "false".toList
      emit (if isBool then .bool else .word) word.length word none
    else if isDigit c || (c = '-' && cs.head?.any isDigit) then
      let (kind, count) := numberAt all
      emit kind count [] none
    else if c = '"' then
      let (value, count, problem) := stringBody (cs.length + 1) 0 0 [] cs
      emit .string (count + 1) value problem
    else if c = '#' || c = '/' then
      match comment all with
      | (count, none) => tokens fuel (p.after (all.take count)) (all.drop count)
      | (count, problem) => emit .illegal count [] problem
    else if c = '<' then
      let (value, count, problem) := heredoc cs
      emit .heredoc (count + 1) value problem
    else match signs.lookup c with
      | some kind => emit kind 1 [] none
      | none => emit .illegal 1 [] (some .illegal)

/-- Why the reading of tokens stops: at the end where a value is wanted, or at a fault. The tokens
are those that have not been looked at. -/
inductive Stop where
  | atEnd
  | fault (f : Fault) (rest : List Token)
  | number (text : String) (cause : Number.NumberFault)

abbrev Reader (α : Type) := List Token → Except Stop (α × List Token)

def next (ts : List Token) : Token × List Token :=
  match ts with
  | [] => ({ kind := .ending, place := {} }, [])
  | [t] => (t, [t])
  | t :: rest => (t, rest)

def keysOf : Nat → List Token → Reader (List Token × Token)
  | 0, _, _ => .error .atEnd
  | fuel + 1, keys, ts =>
    let (t, rest) := next ts
    let fail (problem : Problem) : Except Stop ((List Token × Token) × List Token) :=
      .error (.fault ⟨t.place, problem⟩ rest)
    match t.kind with
    | .word | .string => keysOf fuel (keys ++ [t]) rest
    | .ending => if keys.isEmpty then .error .atEnd else .ok ((keys, t), rest)
    | .assign =>
      if keys.isEmpty then fail .noKey
      else if 1 < keys.length then fail .twoKeys
      else .ok ((keys, t), rest)
    | .openBrace => if keys.isEmpty then fail (.noKeyBefore t.kind) else .ok ((keys, t), rest)
    | .closeBrace => if keys.isEmpty then fail (.otherInKey t.kind) else .ok ((keys, t), rest)
    | .illegal => fail .illegal
    | kind => fail (.otherInKey kind)

def literal? (t : Token) : Option (Except Stop Value) :=
  let text := String.ofList t.shown
  match t.kind with
  | .bool => some (.ok (.bool (text == "true")))
  | .string | .heredoc => some (.ok (.text (String.ofList t.value)))
  | .number => some (((Number.withBase text).map Value.int).mapError (Stop.number text))
  | .float => some (.ok (((Yaml.Scalar.float? t.shown).map Value.float).getD .nothing))
  | _ => none

mutual

def entriesOf : Nat → (inBlock : Bool) → List (String × Value) → Reader (List (String × Value))
  | 0, _, done, ts => .ok (done, ts)
  | fuel + 1, inBlock, done, ts =>
    if inBlock && (next ts).1.kind = .closeBrace then .ok (done, ts)
    else
      match entryOf fuel ts with
      | .error .atEnd => .ok (done, ts.drop (ts.length - 1))
      | .error stop => .error stop
      | .ok ((key, value), rest) =>
        let (t, after) := next rest
        entriesOf fuel inBlock (Value.put key value done) (if t.kind = .comma then after else rest)

def entryOf : Nat → Reader (String × Value)
  | 0, _ => .error .atEnd
  | fuel + 1, ts => do
    let ((keys, t), rest) ← keysOf (ts.length + 1) [] ts
    let key := String.ofList ((keys.head?.map (·.value)).getD [])
    match t.kind with
    | .assign =>
      let (value, rest) ← valueOf fuel rest
      return ((key, value), rest)
    | .openBrace =>
      let (_, rest) ← blockOf fuel rest
      return ((key, .table []), rest)
    | _ => throw (.fault ⟨t.place, .keyWithoutValue (keys.map fun k => String.ofList k.shown)⟩ rest)

def valueOf : Nat → Reader Value
  | 0, _ => .error .atEnd
  | fuel + 1, ts =>
    let (t, rest) := next ts
    match literal? t with
    | some value => value.map (·, rest)
    | none =>
      match t.kind with
      | .openBrace => (blockOf fuel rest).map fun (_, rest) => (.table [], rest)
      | .openBracket => listOf fuel false [] rest
      | .ending => .error .atEnd
      | _ => .error (.fault ⟨t.place, .unknown t.text⟩ rest)

def blockOf : Nat → Reader Unit
  | 0, _ => .error .atEnd
  | fuel + 1, ts => do
    let (_, rest) ← entriesOf fuel true [] ts
    let (t, rest) := next rest
    if t.kind = .closeBrace then return ((), rest)
    throw (.fault ⟨t.place, .unclosedBlock t.kind⟩ rest)

def listOf : Nat → (needsComma : Bool) → List Value → Reader Value
  | 0, _, _, _ => .error .atEnd
  | fuel + 1, needsComma, items, ts =>
    let (t, rest) := next ts
    let within {α : Type} (isList : Bool) (found : Except Stop α) : Except Stop α :=
      found.mapError fun
        | .fault f rest => .fault ⟨t.place, .inList isList f.message⟩ rest
        | stop => stop
    if t.kind = .closeBracket then .ok (.list items, rest)
    else if t.kind = .comma then listOf fuel false items rest
    else if needsComma then .error (.fault ⟨t.place, .missingComma t.kind⟩ rest)
    else
      match literal? t with
      | some value => do listOf fuel true (items ++ [← value]) rest
      | none =>
        match t.kind with
        | .openBrace => do
          let (_, rest) ← within false (blockOf fuel rest)
          listOf fuel true (items ++ [.table []]) rest
        | .openBracket => do
          let (inner, rest) ← within true (listOf fuel false [] rest)
          listOf fuel false (items ++ [inner]) rest
        | kind => .error (.fault ⟨t.place, .otherInList kind⟩ rest)

end

def closed : Value → Value
  | .table _ => .table []
  | value => value

/-- The entries of a text. A text that begins with a brace is read as JSON. -/
def parse (text : Bytes) : Except HclError (List (String × Value)) :=
  let cs := dropReturns text.toText.toList
  if (cs.dropWhile isSpace).head? == some '\x7b' then
    ((Json.parse text).map fun entries => entries.map fun (key, value) => (key, closed value)).mapError .json
  else
    let all := tokens (cs.length + 1) {} cs
    let faultIn (rest : List Token) : Option Fault :=
      ((all.take (all.length - rest.length)).filterMap (·.fault)).getLast?
    match entriesOf (2 * all.length + 2) false [] all with
    | .ok (entries, _) =>
      match faultIn [] with
      | some f => .error (.fault f)
      | none => .ok entries
    | .error (.fault f rest) => .error (.fault ((faultIn rest).getD f))
    | .error (.number text cause) => .error (.number text cause)
    | .error .atEnd => .ok []
where
  dropReturns : List Char → List Char
    | '\r' :: '\n' :: cs => '\n' :: dropReturns cs
    | c :: cs => c :: dropReturns cs
    | [] => []

end HostScript.Config.Hcl
