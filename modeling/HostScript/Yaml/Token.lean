import HostScript.Yaml.Fault

/-!
The tokens of a YAML text. The structure of block collections, which the text shows by indentation,
is told by tokens of its own.
-/

set_option autoImplicit false

namespace HostScript.Yaml

inductive Style where
  | plain | quoted | block
  deriving DecidableEq, Repr

inductive TokenKind where
  | streamStart | streamEnd
  | versionDirective (major minor : Nat)
  | tagDirective (handle root : String)
  | documentStart | documentEnd
  | blockSequenceStart | blockMappingStart | blockEnd
  | flowSequenceStart | flowSequenceEnd | flowMappingStart | flowMappingEnd
  | blockEntry | flowEntry | key | value
  | reference (name : String)
  | anchor (name : String)
  | tag (handle suffix : String)
  | scalar (text : String) (style : Style)
  deriving DecidableEq, Repr

structure Token where
  kind : TokenKind
  start : Mark
  stop : Mark
  deriving DecidableEq, Repr

def Token.streamEnd (place : Mark) : Token := ⟨.streamEnd, place, place⟩

end HostScript.Yaml
