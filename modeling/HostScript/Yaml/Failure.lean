import HostScript.Text.Quoted
import HostScript.Yaml.Fault

set_option autoImplicit false

namespace HostScript.Yaml

inductive Failure where
  | unreadable (fault : Fault)
  | unknownAnchor (name : String)
  | containsItself (name : String)
  | tooManyAliases
  | otherTag (found text wanted : String)
  | notBase64
  | mergeOfOther
  | badKey (shown : String)
  deriving DecidableEq, Repr

def Failure.message : Failure → String
  | .unreadable fault => fault.message
  | .unknownAnchor name => "unknown anchor '" ++ name ++ "' referenced"
  | .containsItself name => "anchor '" ++ name ++ "' value contains itself"
  | .tooManyAliases => "document contains excessive aliasing"
  | .otherTag found text wanted => "cannot decode " ++ found ++ " \x60" ++ text ++ "\x60 as a " ++ wanted
  | .notBase64 => "!!binary value contains invalid base64 data"
  | .mergeOfOther => "map merge requires map or sequence of maps as the value"
  | .badKey shown => "invalid map key: " ++ shown

inductive Complaint where
  | otherKind (line : Nat) (tag : String) (text : Option String) (wanted : String)
  | repeatedKey (line : Nat) (key : String) (first : Nat)
  | repeatedField (line : Nat) (key wanted : String)
  deriving DecidableEq, Repr

/-- The text of a scalar in a complaint. Of a long one only the first bytes are shown. -/
def shownText (text : String) : String :=
  let bs := utf8 text
  " \x60" ++ (if 10 < bs.length then Bytes.toText (bs.take 7) ++ "..." else text) ++ "\x60"

def Complaint.message : Complaint → String
  | .otherKind line tag text wanted =>
    "line " ++ toString line ++ ": cannot unmarshal " ++ tag ++ (text.map shownText).getD "" ++ " into " ++ wanted
  | .repeatedKey line key first =>
    "line " ++ toString line ++ ": mapping key " ++ Quoted.string key ++ " already defined at line "
      ++ toString first
  | .repeatedField line key wanted =>
    "line " ++ toString line ++ ": field " ++ key ++ " already set in type " ++ wanted

inductive Error where
  | failure (cause : Failure)
  | complaints (list : List Complaint)
  deriving DecidableEq, Repr

def Error.message : Error → String
  | .failure cause => "yaml: " ++ cause.message
  | .complaints list => "yaml: unmarshal errors:" ++ String.join (list.map fun c => "\n  " ++ c.message)

end HostScript.Yaml
