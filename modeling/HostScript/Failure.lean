import HostScript.Text.Bytes

set_option autoImplicit false

namespace HostScript

inductive FileError where
  | missing (action path : String)
  | notDirectory (action path : String)
  | isDirectory (path : String)
  | other (text : String)
  deriving DecidableEq, Repr

namespace FileError

def missingText : String := "no such file or directory"

def message : FileError → String
  | .missing action path => action ++ " " ++ path ++ ": " ++ missingText
  | .notDirectory action path => action ++ " " ++ path ++ ": not a directory"
  | .isDirectory path => "read " ++ path ++ ": is a directory"
  | .other text => text

end FileError

inductive Failure where
  | notFound (uri : String)
  | unreadable (path : String) (cause : FileError)
  | duringCheck (block : Bytes) (check : String) (cause : Failure)
  | cancelled
  | deadline
  deriving DecidableEq, Repr

namespace Failure

def message : Failure → Bytes
  | .notFound uri => utf8 (uri ++ ": document not found")
  | .unreadable path cause => utf8 ("reading " ++ path ++ ": " ++ cause.message)
  | .duringCheck block check cause => block ++ utf8 (": check " ++ check ++ ": ") ++ cause.message
  | .cancelled => utf8 "context canceled"
  | .deadline => utf8 "context deadline exceeded"

def root : Failure → Failure
  | .duringCheck _ _ cause => cause.root
  | failure => failure

end Failure

end HostScript
