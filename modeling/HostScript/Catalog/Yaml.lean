import HostScript.Catalog.Reader
import HostScript.Yaml.Decode

set_option autoImplicit false

namespace HostScript.Catalog

open Yaml (Node Decode)
open Yaml.Decode (Record)

def setTo {α β : Type} (a : α) (found : Decode (Option β)) (set : β → α) : Option (Decode α) :=
  some (do
    match ← found with
    | some b => return set b
    | none => return a)

def paramRecord : Record Param where
  wanted := "analysis.Param"
  set? p name node :=
    match name with
    | "name" => setTo p (Yaml.Decode.text node) fun name => { p with name }
    | "type" => setTo p (Yaml.Decode.text node) fun type => { p with type }
    | "optional" => setTo p (Yaml.Decode.flag node) fun isOptional => { p with isOptional }
    | "doc" => setTo p (Yaml.Decode.text node) fun doc => { p with doc }
    | _ => none

def functionRecord (fuel : Nat) : Record ParserFunction where
  wanted := "analysis.Function"
  set? f name node :=
    match name with
    | "name" => setTo f (Yaml.Decode.text node) fun name => { f with name }
    | "params" =>
      setTo f (Yaml.Decode.list "[]analysis.Param" (Yaml.Decode.record paramRecord { name := "" } fuel) node)
        fun params => { f with params := params.getD [] }
    | "variadic" => setTo f (Yaml.Decode.flag node) fun variadic => { f with variadic }
    | "returns" => setTo f (Yaml.Decode.text node) fun returns => { f with returns }
    | "doc" => setTo f (Yaml.Decode.text node) fun doc => { f with doc }
    | _ => none

def namespaceRecord (fuel : Nat) : Record ListedNamespace where
  wanted := "analysis.Namespace"
  set? s name node :=
    match name with
    | "name" => setTo s (Yaml.Decode.text node) fun name => { s with name }
    | "doc" => setTo s (Yaml.Decode.text node) fun doc => { s with doc }
    | "closed" => setTo s (Yaml.Decode.flag node) fun closed => { s with closed }
    | "functions" =>
      setTo s (Yaml.Decode.list "[]*analysis.Function"
        (Yaml.Decode.recordOrNothing (functionRecord fuel) { name := "" } fuel) node)
        fun functions => { s with functions }
    | _ => none

def listingRecord (fuel : Nat) : Record Listing where
  wanted := "analysis.Catalog"
  set? listing name node :=
    match name with
    | "namespaces" =>
      setTo listing (Yaml.Decode.list "[]*analysis.Namespace"
        (Yaml.Decode.recordOrNothing (namespaceRecord fuel) {} fuel) node) fun found => found
    | _ => none

def listingOfYaml (text : Bytes) : Except String Listing :=
  (Yaml.Decode.ofBytes text none fun fuel node =>
    return (← Yaml.Decode.record (listingRecord fuel) none fuel node).join).mapError (·.message)

instance : Decoder where
  decode := listingOfYaml

/-- The catalog of a text as it is listed, without regard to missing names. -/
def ofYaml (text : Bytes) (precedence : Precedence) : Except String Catalog := do
  let listing ← listingOfYaml text
  (ofListing? listing precedence).elim (.error CatalogError.emptyItem.message) .ok

end HostScript.Catalog
