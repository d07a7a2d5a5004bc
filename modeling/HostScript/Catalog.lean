import HostScript.Json
import HostScript.Text.Split

set_option autoImplicit false

namespace HostScript

structure Param where
  name : String
  type : String := ""
  isOptional : Bool := false
  doc : String := ""
  deriving DecidableEq, Repr, Inhabited

structure ParserFunction where
  name : String
  params : List Param := []
  variadic : Bool := false
  returns : String := ""
  doc : String := ""
  deriving DecidableEq, Repr, Inhabited

/-- In a closed namespace a call of a function that is not listed is an error. -/
structure Namespace where
  name : String
  doc : String := ""
  closed : Bool := false
  listed : Option (List ParserFunction) := none
  deriving DecidableEq, Repr, Inhabited

inductive Precedence where
  | first | last
  deriving DecidableEq, Repr

structure Catalog where
  listed : Option (List Namespace)
  precedence : Precedence
  deriving DecidableEq, Repr

def Precedence.find? {α : Type} (precedence : Precedence) (p : α → Bool) (xs : List α) : Option α :=
  match precedence with
  | .first => xs.find? p
  | .last => xs.reverse.find? p

def Param.label (p : Param) : String :=
  let label := if p.type.isEmpty then p.name else p.type ++ " " ++ p.name
  if p.isOptional then "[" ++ label ++ "]" else label

namespace ParserFunction

/-- The least number of arguments, and the greatest unless the function is variadic. -/
def arity (f : ParserFunction) : Nat × Option Nat :=
  ((f.params.filter (!·.isOptional)).length, if f.variadic then none else some f.params.length)

def acceptsArgs (f : ParserFunction) (n : Int) : Bool :=
  (f.arity.1 : Int) ≤ n && f.arity.2.all fun most => n ≤ (most : Int)

/-- The display label of every parameter; a variadic function has one for the rest. -/
def paramLabels (f : ParserFunction) : List String :=
  f.params.map Param.label ++ if f.variadic then ["..."] else []

def head (f : ParserFunction) (space : String) : String :=
  (if space.isEmpty then "" else space ++ ".") ++ f.name ++ "("

def signature (f : ParserFunction) (space : String) : String :=
  f.head space ++ String.intercalate ", " f.paramLabels ++ ")"
    ++ if f.returns.isEmpty then "" else " " ++ f.returns

end ParserFunction

namespace Namespace

def functions (s : Namespace) : List ParserFunction := s.listed.getD []

def names (s : Namespace) : List String :=
  sortStrings (s.functions.map (·.name))

def function? (s : Namespace) (precedence : Precedence) (name : String) : Option ParserFunction :=
  precedence.find? (·.name == name) s.functions

end Namespace

namespace Catalog

def spaces (c : Catalog) : List Namespace := c.listed.getD []

def space? (c : Catalog) (name : String) : Option Namespace :=
  c.precedence.find? (·.name == name) c.spaces

def function? (c : Catalog) (space name : String) : Option ParserFunction :=
  (c.space? space).bind fun s => s.function? c.precedence name

def empty : Catalog := ⟨none, .last⟩

end Catalog

def Param.toJson (p : Param) : Json :=
  .object ([("name", Json.str p.name)] ++ Json.textField "type" p.type
    ++ Json.flagField "optional" p.isOptional ++ Json.textField "doc" p.doc)

def ParserFunction.toJson (f : ParserFunction) : Json :=
  .object ([("name", Json.str f.name)] ++ Json.listField "params" Param.toJson f.params
    ++ Json.flagField "variadic" f.variadic ++ Json.textField "returns" f.returns
    ++ Json.textField "doc" f.doc)

def Namespace.toJson (s : Namespace) : Json :=
  .object ([("name", Json.str s.name)] ++ Json.textField "doc" s.doc
    ++ Json.flagField "closed" s.closed
    ++ [("functions", Json.option (Json.list ParserFunction.toJson) s.listed)])

def Catalog.toJson (c : Catalog) : Json :=
  .object [("namespaces", Json.option (Json.list Namespace.toJson) c.listed)]

end HostScript
