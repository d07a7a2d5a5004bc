import HostScript.Text.Split

/-!
File paths. A path is cleaned by its text alone: empty and dot components go, and a double dot
takes the component before it.
-/

set_option autoImplicit false

namespace HostScript.Path

def isAbsolute (path : String) : Bool := path.toList.head? == some '/'

def components (path : String) : List String :=
  (splitString '/' path).filter fun part => !part.isEmpty && part != "."

/-- Takes back a component for each double dot. At the root there is nothing to take back. -/
def reduce (rooted : Bool) (kept : List String) : List String → List String
  | [] => kept.reverse
  | part :: parts =>
    if part == ".." then
      match kept with
      | last :: before =>
        if last == ".." then reduce rooted (part :: kept) parts else reduce rooted before parts
      | [] => reduce rooted (if rooted then [] else [part]) parts
    else reduce rooted (part :: kept) parts

def clean (path : String) : String :=
  let rooted := isAbsolute path
  let text := String.intercalate "/" (reduce rooted [] (components path))
  if rooted then "/" ++ text else if text.isEmpty then "." else text

def join (a b : String) : String :=
  if a.isEmpty then if b.isEmpty then "" else clean b
  else if b.isEmpty then clean a
  else clean (a ++ "/" ++ b)

def absolute (workingDirectory path : String) : String :=
  if isAbsolute path then clean path else join workingDirectory path

def extension (path : String) : String :=
  let tail := path.toList.reverse.takeWhile (· != '/')
  let back := tail.takeWhile (· != '.')
  if back.length = tail.length then "" else String.ofList ('.' :: back.reverse)

end HostScript.Path
