import HostScript.Yaml.Node

/-!
Taking values out of the nodes of a YAML text. What is of another kind than wanted is noted and left
out, and all that was noted is reported at the end.
-/

set_option autoImplicit false

namespace HostScript.Yaml

structure MetKey where
  isText : Bool
  text : String
  deriving DecidableEq

structure Notes where
  complaints : List Complaint := []
  nodes : Nat := 0
  aliased : Nat := 0
  aliasDepth : Nat := 0
  met : Option (List MetKey) := none

abbrev Decode := StateT Notes (Except Failure)

namespace Decode

def complain (c : Complaint) : Decode Unit := modify fun n => { n with complaints := c :: n.complaints }

def aliasScale : Nat := 360000000

/-- How many of a number of nodes may be behind aliases, as a multiple of a part of one: 99 of 100 in
a small text, and down to 10 of 100 in a large one. -/
def allowedAliases (nodes : Nat) : Nat :=
  nodes * (99 * 3600000 - 89 * (min 4000000 (max 400000 nodes) - 400000))

def count : Decode Unit := do
  modify fun n =>
    { n with nodes := n.nodes + 1, aliased := if n.aliasDepth = 0 then n.aliased else n.aliased + 1 }
  let n ← get
  if 100 < n.aliased && 1000 < n.nodes && allowedAliases n.nodes < n.aliased * aliasScale then
    throw .tooManyAliases

def follow {α : Type} (node : Node) (decode : Node → Decode α) : Decode α := do
  count
  match node with
  | .reference _ name none => throw (.containsItself name)
  | .reference _ _ (some target) =>
    modify fun n => { n with aliasDepth := n.aliasDepth + 1 }
    count
    let a ← decode target
    modify fun n => { n with aliasDepth := n.aliasDepth - 1 }
    return a
  | node => decode node

def keyOf : Node → Nat × String
  | .scalar _ _ text => (0, text)
  | .sequence .. => (1, "")
  | .mapping .. => (2, "")
  | .reference _ name _ => (3, name)

def repeatedKeys : List (Node × Node) → List Complaint
  | [] => []
  | (key, _) :: rest =>
    (rest.filter fun e => keyOf e.1 == keyOf key).map
        (fun e => Complaint.repeatedKey e.1.line (keyOf key).2 key.line)
      ++ repeatedKeys rest

def keysDiffer (entries : List (Node × Node)) : Decode Bool := do
  let found := repeatedKeys entries
  modify fun n => { n with complaints := found.reverse ++ n.complaints }
  return found.isEmpty

def refuse (wanted : String) : Node → Decode Unit
  | .scalar line tag text => complain (.otherKind line tag (some text) wanted)
  | .sequence line tag _ =>
    complain (.otherKind line tag (if tag == Tag.seq || tag == Tag.map then none else some "") wanted)
  | .mapping line tag entries => do
    if ← keysDiffer entries then
      complain (.otherKind line tag (if tag == Tag.seq || tag == Tag.map then none else some "") wanted)
  | .reference .. => return ()

/-- Any scalar is a text, save one that stands for nothing. -/
def text (node : Node) : Decode (Option String) :=
  follow node fun
    | .scalar _ tag text => do
      match ← Scalar.resolve tag text with
      | .nothing => return none
      | .text s => return some s
      | _ => return some text
    | other => do
      refuse "string" other
      return none

def flagWords : List (String × Bool) :=
  (["y", "Y", "yes", "Yes", "YES", "on", "On", "ON"].map fun w => (w, true))
    ++ (["n", "N", "no", "No", "NO", "off", "Off", "OFF"].map fun w => (w, false))

def flag (node : Node) : Decode (Option Bool) :=
  follow node fun
    | .scalar line tag text => do
      let value ← Scalar.resolve tag text
      let found := match value with
        | .bool b => some b
        | .text s => flagWords.lookup s
        | _ => none
      if found.isNone && !value.isNothing then refuse "bool" (.scalar line tag text)
      return found
    | other => do
      refuse "bool" other
      return none

/-- The items of a sequence, and no list where nothing is written. Items that cannot be taken are
left out. -/
def list {α : Type} (wanted : String) (item : Node → Decode (Option α)) (node : Node) :
    Decode (Option (Option (List α))) :=
  follow node fun
    | .sequence _ _ items => do
      let found ← items.mapM item
      return some (some (found.filterMap id))
    | .scalar line tag text => do
      if (← Scalar.resolve tag text).isNothing then return some none
      refuse wanted (.scalar line tag text)
      return none
    | other => do
      refuse wanted other
      return none

def isMerge : Node → Bool
  | .scalar _ tag text => text == "<<" && tag == Tag.merge
  | _ => false

def mergeValue? (entries : List (Node × Node)) : Option Node :=
  (entries.reverse.find? fun e => isMerge e.1).map (·.2)

def ownEntries (entries : List (Node × Node)) : List (Node × Node) := entries.filter fun e => !isMerge e.1

/-- Runs `own` for the entries of a mapping, of which nothing is merged at first, and tells it the
keys that count already. -/
def outsideMerge {α : Type} (own : Option (List MetKey) → Decode (α × Option (List MetKey))) :
    Decode α := do
  let met := (← get).met
  modify fun n => { n with met := none }
  let (a, met) ← own met
  modify fun n => { n with met := met }
  return a

/-- Merges mappings: `merge` is run for each of those that `node` gives. While it runs, the keys
in `own` count already. -/
def mergeInto {α : Type} (own : Decode (List MetKey)) (merge : Node → α → Decode α) (node : Node) (a : α) :
    Decode α := do
  let before := (← get).met
  if before.isNone then
    let keys ← own
    modify fun n => { n with met := some keys }
  let isFit : Node → Bool
    | .mapping .. => true
    | .reference _ _ target => target.all (·.isMapping)
    | _ => false
  let a ← match node with
    | .sequence _ _ items =>
      items.foldlM (fun a item => do
        if !isFit item then throw .mergeOfOther
        merge item a) a
    | node => do
      if !isFit node then throw .mergeOfOther
      merge node a
  modify fun n => { n with met := before }
  return a

def meet? (key : MetKey) : Option (List MetKey) → Option (Option (List MetKey))
  | none => some none
  | some keys => if keys.contains key then none else some (some (key :: keys))

def shownKey : Value → String
  | .list _ => "[]interface \x7b\x7d"
  | _ => "map[string]interface \x7b\x7d"

mutual

def value : Nat → Node → Decode (Option Value)
  | 0, _ => return none
  | fuel + 1, node =>
    follow node fun
      | .scalar _ tag text => return some (← Scalar.resolve tag text)
      | .sequence _ _ items => do
        let found ← items.mapM fun item => value fuel item
        return some (.list (found.filterMap id))
      | .mapping _ _ entries => do
        if !(← keysDiffer entries) then return none
        let isText : Node × Node → Bool
          | (.scalar _ tag _, _) => tag == Tag.str || tag == Tag.merge
          | (.reference _ _ (some (.scalar _ tag _)), _) => tag == Tag.str || tag == Tag.merge
          | _ => false
        return some (.table (← entriesOf fuel (entries.all isText) entries []))
      | .reference .. => return none

def entriesOf : Nat → (textKeys : Bool) → List (Node × Node) → List (String × Value) →
    Decode (List (String × Value))
  | 0, _, _, table => return table
  | fuel + 1, textKeys, entries, table => do
    let table ← outsideMerge fun met =>
      (ownEntries entries).foldlM (fun (table, met) (key, node) => do
        let found ← if textKeys then do
            pure ((← text key).map fun s => MetKey.mk true s)
          else do
            match ← value fuel key with
            | none => pure none
            | some v =>
              match v with
              | .list _ => throw (.badKey (shownKey v))
              | .table _ => throw (.badKey (shownKey v))
              | .text s => pure (some ⟨true, s⟩)
              | v => pure (some ⟨false, v.toText⟩)
        match found.bind fun key => (meet? key met).map (key, ·) with
        | none => return (table, met)
        | some (key, met) =>
          match ← value fuel node with
          | some v => return (Value.put key.text v table, met)
          | none => return (table, met)) (table, met)
    match mergeValue? entries with
    | none => return table
    | some node =>
      mergeInto (keysOf fuel entries) (fun merged table =>
        follow merged fun
          | .mapping _ _ entries => do
            if ← keysDiffer entries then entriesOf fuel textKeys entries table else return table
          | _ => return table) node table

def keysOf : Nat → List (Node × Node) → Decode (List MetKey)
  | 0, _ => return []
  | fuel + 1, entries => do
    let found ← entries.mapM fun (key, _) => do
      match ← value fuel key with
      | some (.text s) => return some (MetKey.mk true s)
      | some v => return v.scalarText?.map fun s => MetKey.mk false s
      | none => return none
    return found.filterMap id

end

def table (wanted : String) (fuel : Nat) (node : Node) : Decode (List (String × Value)) :=
  follow node fun
    | .mapping _ _ entries => do
      if ← keysDiffer entries then entriesOf fuel true entries [] else return []
    | .scalar line tag text => do
      if !(← Scalar.resolve tag text).isNothing then refuse wanted (.scalar line tag text)
      return []
    | other => do
      refuse wanted other
      return []

structure Record (α : Type) where
  wanted : String
  set? : α → String → Node → Option (Decode α)

def fields {α : Type} (r : Record α) : Nat → List (Node × Node) → α → Decode α
  | 0, _, a => return a
  | fuel + 1, entries, a => do
    let (a, _) ← outsideMerge fun met => do
      let (a, done, met) ← (ownEntries entries).foldlM (fun (a, done, met) (key, node) => do
        match (← text key).bind fun s => (meet? ⟨true, s⟩ met).map (s, ·) with
        | none => return (a, done, met)
        | some (name, met) =>
          match r.set? a name node with
          | none => return (a, done, met)
          | some next =>
            if done.contains name then
              complain (.repeatedField key.line name r.wanted)
              return (a, done, met)
            else return (← next, name :: done, met)) (a, ([] : List String), met)
      return ((a, done), met)
    match mergeValue? entries with
    | none => return a
    | some node =>
      mergeInto (keysOf fuel entries) (fun merged a =>
        follow merged fun
          | .mapping _ _ entries => do
            if ← keysDiffer entries then fields r fuel entries a else return a
          | _ => return a) node a

def recordOrNothing {α : Type} (r : Record α) (start : α) (fuel : Nat) (node : Node) :
    Decode (Option (Option α)) :=
  follow node fun
    | .mapping _ _ entries => do
      if ← keysDiffer entries then return some (some (← fields r fuel entries start)) else return none
    | .scalar line tag text => do
      if (← Scalar.resolve tag text).isNothing then return some none
      refuse r.wanted (.scalar line tag text)
      return none
    | other => do
      refuse r.wanted other
      return none

def record {α : Type} (r : Record α) (start : α) (fuel : Nat) (node : Node) : Decode (Option α) :=
  return (← recordOrNothing r start fuel node).join

def ofBytes {α : Type} (text : Bytes) (missing : α) (decode : Nat → Node → Decode α) : Except Error α :=
  match Document.ofBytes text with
  | .error cause => .error (.failure cause)
  | .ok document =>
    match document.root with
    | none => .ok missing
    | some root =>
      match (decode document.size root).run {} with
      | .error cause => .error (.failure cause)
      | .ok (a, notes) =>
        if notes.complaints.isEmpty then .ok a else .error (.complaints notes.complaints.reverse)

end Decode

end HostScript.Yaml
