set_option autoImplicit false

namespace HostScript

def splitChars (sep : Char) : List Char → List (List Char)
  | [] => [[]]
  | c :: cs =>
    if c = sep then [] :: splitChars sep cs
    else match splitChars sep cs with
      | [] => [[c]]
      | part :: parts => (c :: part) :: parts

def joinChars (sep : Char) : List (List Char) → List Char
  | [] => []
  | [part] => part
  | part :: parts => part ++ sep :: joinChars sep parts

def splitString (sep : Char) (s : String) : List String :=
  (splitChars sep s.toList).map String.ofList

def cutString? (sep : Char) (s : String) : Option (String × String) :=
  let head := s.toList.takeWhile (· != sep)
  match s.toList.drop head.length with
  | [] => none
  | _ :: tail => some (String.ofList head, String.ofList tail)

/-- The number of lines of a text; the end of the last line does not begin another one. -/
def lineCount (text : String) : Nat :=
  let lines := splitString '\n' text
  if (lines.getLastD "").isEmpty then lines.length - 1 else lines.length

def wordsOf (isGap : Char → Bool) (word : List Char) : List Char → List String
  | [] => if word.isEmpty then [] else [String.ofList word.reverse]
  | c :: cs =>
    if isGap c then (if word.isEmpty then [] else [String.ofList word.reverse]) ++ wordsOf isGap [] cs
    else wordsOf isGap (c :: word) cs

def sortStrings (xs : List String) : List String := xs.mergeSort fun a b => !decide (b < a)

end HostScript
