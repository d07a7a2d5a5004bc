set_option autoImplicit false

namespace HostScript.Yaml

structure Mark where
  index : Nat := 0
  line : Nat := 0
  column : Nat := 0
  deriving DecidableEq, Repr, Inhabited

def Mark.next (m : Mark) : Mark := { m with index := m.index + 1, column := m.column + 1 }

inductive Problem where
  | badLeadingOctet | incompleteOctets | badTrailingOctet | badOctetLength | notUnicode
  | incompleteUnit | lowSurrogate | incompletePair | badPair | controlCharacter
  | badStart
  | sequenceNotAllowed | keyNotAllowed | valueNotAllowed
  | missingColon
  | tooDeep
  | endInText | documentInText
  | badEscape | badHexNumber | badCharacterCode
  | tabInText | tabInBlock | zeroIndent | restOfLine
  | badAnchor
  | unclosedTag | restOfTag | missingTagMark | missingTagText | badTagEscape | badTagLead | badTagTail
  | unknownDirective | namelessDirective | badDirectiveName
  | missingVersion | longVersion | badVersion
  | missingTagBlank | restOfTagDirective
  | repeatedVersion | otherVersion | repeatedTag | missingDocument
  | undefinedHandle
  | missingContent | missingDash | missingKey | unclosedSequence | unclosedMapping
  deriving DecidableEq, Repr

def Problem.text : Problem → String
  | .badLeadingOctet => "invalid leading UTF-8 octet"
  | .incompleteOctets => "incomplete UTF-8 octet sequence"
  | .badTrailingOctet => "invalid trailing UTF-8 octet"
  | .badOctetLength => "invalid length of a UTF-8 sequence"
  | .notUnicode => "invalid Unicode character"
  | .incompleteUnit => "incomplete UTF-16 character"
  | .lowSurrogate => "unexpected low surrogate area"
  | .incompletePair => "incomplete UTF-16 surrogate pair"
  | .badPair => "expected low surrogate area"
  | .controlCharacter => "control characters are not allowed"
  | .badStart => "found character that cannot start any token"
  | .sequenceNotAllowed => "block sequence entries are not allowed in this context"
  | .keyNotAllowed => "mapping keys are not allowed in this context"
  | .valueNotAllowed => "mapping values are not allowed in this context"
  | .missingColon => "could not find expected ':'"
  | .tooDeep => "exceeded max depth of 10000"
  | .endInText => "found unexpected end of stream"
  | .documentInText => "found unexpected document indicator"
  | .badEscape => "found unknown escape character"
  | .badHexNumber => "did not find expected hexdecimal number"
  | .badCharacterCode => "found invalid Unicode character escape code"
  | .tabInText => "found a tab character that violates indentation"
  | .tabInBlock => "found a tab character where an indentation space is expected"
  | .zeroIndent => "found an indentation indicator equal to 0"
  | .restOfLine => "did not find expected comment or line break"
  | .badAnchor => "did not find expected alphabetic or numeric character"
  | .unclosedTag => "did not find the expected '>'"
  | .restOfTag => "did not find expected whitespace or line break"
  | .missingTagMark => "did not find expected '!'"
  | .missingTagText => "did not find expected tag URI"
  | .badTagEscape => "did not find URI escaped octet"
  | .badTagLead => "found an incorrect leading UTF-8 octet"
  | .badTagTail => "found an incorrect trailing UTF-8 octet"
  | .unknownDirective => "found unknown directive name"
  | .namelessDirective => "could not find expected directive name"
  | .badDirectiveName => "found unexpected non-alphabetical character"
  | .missingVersion => "did not find expected version number"
  | .longVersion => "found extremely long version number"
  | .badVersion => "did not find expected digit or '.' character"
  | .missingTagBlank => "did not find expected whitespace"
  | .restOfTagDirective => "did not find expected whitespace or line break"
  | .repeatedVersion => "found duplicate %YAML directive"
  | .otherVersion => "found incompatible YAML document"
  | .repeatedTag => "found duplicate %TAG directive"
  | .missingDocument => "did not find expected <document start>"
  | .undefinedHandle => "found undefined tag handle"
  | .missingContent => "did not find expected node content"
  | .missingDash => "did not find expected '-' indicator"
  | .missingKey => "did not find expected key"
  | .unclosedSequence => "did not find expected ',' or ']'"
  | .unclosedMapping => "did not find expected ',' or '\x7d'"

/-- A problem with the number of the line that is named for it; none is named when it is zero. -/
structure Fault where
  line : Nat
  problem : Problem
  deriving DecidableEq, Repr

namespace Fault

def ofBytes (problem : Problem) : Fault := ⟨0, problem⟩

/-- A problem met at `place` in something that begins at `start`. Its line is that of the start,
unless this is the first line. -/
def inToken (start place : Mark) (problem : Problem) : Fault :=
  ⟨if start.line ≠ 0 then start.line + 1 else if place.line ≠ 0 then place.line + 1 else 0, problem⟩

/-- The same for a problem of the structure, for which the number of lines before is named. -/
def inNode (start place : Mark) (problem : Problem) : Fault :=
  ⟨if start.line ≠ 0 then start.line else place.line, problem⟩

def message (f : Fault) : String :=
  (if f.line = 0 then "" else "line " ++ toString f.line ++ ": ") ++ f.problem.text

end Fault

end HostScript.Yaml
