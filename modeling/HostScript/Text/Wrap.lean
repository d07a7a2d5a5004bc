import HostScript.Text.Rune
import HostScript.Text.Split
import HostScript.Text.Width

set_option autoImplicit false

namespace HostScript

def escapeChar : Char := '\x1b'

def endsSequence (c : Char) : Bool := ('@' ≤ c && c ≤ 'Z') || ('a' ≤ c && c ≤ 'z')

namespace Wrap

/-- What has been written, how far the line has come, and the space and the word that are still
to be written. Texts are kept in reverse. -/
structure State where
  written : List Char := []
  column : Nat := 0
  space : List Char := []
  word : List Char := []
  width : Nat := 0
  inSequence : Bool := false

namespace State

def bytesOf : List Char → Nat
  | [] => 0
  | c :: cs => c.utf8Size + bytesOf cs

def flushSpace (s : State) : State :=
  { s with written := s.space ++ s.written, column := s.column + bytesOf s.space, space := [] }

def flushWord (s : State) : State :=
  if s.word.isEmpty then s
  else
    let s := s.flushSpace
    { s with written := s.word ++ s.written, column := s.column + s.width, word := [], width := 0 }

def breakLine (s : State) : State := { s with written := '\n' :: s.written, column := 0, space := [] }

def newline (limit : Nat) (s : State) : State :=
  let s :=
    if s.word.isEmpty then
      if limit < s.column + bytesOf s.space then { s with column := 0, space := [] }
      else { s with written := s.space ++ s.written, space := [] }
    else s
  s.flushWord.breakLine

def hyphen (s : State) : State :=
  let s := s.flushSpace.flushWord
  { s with written := '-' :: s.written }

/-- Any other character. The line is broken before a word that does not fit, unless the word is
longer than a line. -/
def letter (limit : Nat) (s : State) (c : Char) : State :=
  let s := { s with word := c :: s.word, width := s.width + columnsOf c }
  if limit < s.column + bytesOf s.space + s.width && s.width < limit then s.breakLine else s

def put (limit : Nat) (s : State) (c : Char) : State :=
  if c = escapeChar then { s with word := c :: s.word, inSequence := true }
  else if s.inSequence then { s with word := c :: s.word, inSequence := !endsSequence c }
  else if c = '\n' then s.newline limit
  else if isSpace c then { s.flushWord with space := c :: s.flushWord.space }
  else if c = '-' then s.hyphen
  else s.letter limit c

end State

def chars (limit : Nat) (cs : List Char) : List Char :=
  (cs.foldl (State.put limit) {}).flushWord.written.reverse

end Wrap

def wrap (limit : Nat) (s : String) : String := String.ofList (Wrap.chars limit s.toList)

namespace Indent

/-- How far the text has come: whether the line has its blanks, whether a control sequence is open,
what of it has been met, and which styles hold. Texts are kept in reverse. -/
structure State where
  written : List Char := []
  isIndented : Bool := false
  inSequence : Bool := false
  isOpen : Bool := false
  sequence : List Char := []
  styles : List Char := []
  isStyled : Bool := false

namespace State

def plainStyle : List Char := [escapeChar, '[', '0', 'm']

def write (s : State) (c : Char) : State :=
  if c = escapeChar then { s with isOpen := true, isStyled := true, sequence := c :: s.sequence }
  else if s.isOpen then
    let sequence := c :: s.sequence
    if endsSequence c then
      let s := { s with written := sequence ++ s.written, sequence := [], isOpen := false }
      if "m0[".toList.isPrefixOf sequence then { s with styles := [], isStyled := false }
      else if c = 'm' then { s with styles := sequence ++ s.styles }
      else s
    else { s with sequence }
  else { s with written := c :: s.written }

def indent (n : Nat) (s : State) : State :=
  let reset := if s.isStyled then plainStyle.reverse else []
  { s with written := s.styles ++ List.replicate n ' ' ++ reset ++ s.written, isIndented := true }

def put (n : Nat) (s : State) (c : Char) : State :=
  if c = escapeChar then { s with inSequence := true }.write c
  else if s.inSequence then { s with inSequence := !c.isAlpha }.write c
  else
    let s := if s.isIndented then s else s.indent n
    { s with isIndented := c != '\n' }.write c

end State

def chars (n : Nat) (cs : List Char) : List Char := (cs.foldl (State.put n) {}).written.reverse

end Indent

def indentLines (n : Nat) (s : String) : String := String.ofList (Indent.chars n s.toList)

def isBlankChar (c : Char) : Bool := c == ' '

/-- The number of blanks a line begins with; none for a line of blanks only. -/
def marginOf (line : List Char) : Option Nat :=
  let rest := line.dropWhile isBlankChar
  if rest.isEmpty then none else some (line.length - rest.length)

def commonMargin (lines : List (List Char)) : Nat := ((lines.filterMap marginOf).min?).getD 0

def dedentLine (margin : Nat) (line : List Char) : List Char :=
  if line.all isSpace then [] else line.drop margin

def dedentChars (cs : List Char) : List Char :=
  let cs := cs.flatMap fun c => if c = '\t' then [' ', ' ', ' ', ' '] else [c]
  match splitChars '\n' cs with
  | [] => []
  | first :: rest =>
    joinChars '\n' (first.dropWhile isBlankChar :: rest.map (dedentLine (commonMargin rest)))

/-- Removes the indentation that all lines after the first have in common. A tab counts as four
blanks. -/
def dedent (s : String) : String := String.ofList (dedentChars s.toList)

end HostScript
