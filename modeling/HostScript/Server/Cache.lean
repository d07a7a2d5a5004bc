import HostScript.Check

/-!
Readings of blocks that are kept from one request to the next. What a reading without strict
checks says depends on the text of the block, on where it stands and on the catalog, so a reading
is kept under the first two and all are dropped when the catalog changes.
-/

set_option autoImplicit false

namespace HostScript

variable [Similar.Matcher]

structure BlockKey where
  uri : String
  text : Bytes
  start : Nat
  line : Int
  deriving DecidableEq, Repr

def BlockKey.ofBlock (doc : Document) (block : Block) : BlockKey :=
  ⟨doc.uri, doc.text.slice block.start block.stop, block.start, block.range.start.line⟩

structure ParseCache where
  entries : List (BlockKey × ParseResult) := []

namespace ParseCache

/-- When this many readings are kept, all are dropped before the next is added. -/
def limit : Nat := 2048

def find? (cache : ParseCache) (key : BlockKey) : Option ParseResult :=
  (cache.entries.find? (·.1 == key)).map (·.2)

def insert (cache : ParseCache) (key : BlockKey) (result : ParseResult) : ParseCache :=
  ⟨(key, result) :: if limit ≤ cache.entries.length then [] else cache.entries⟩

/-- The reading of a block of a document: the one that is kept, or a new one, which is then kept. -/
def parse (ws : Workspace) (doc : Document) (block : Block) : StateM ParseCache ParseResult := do
  let key := BlockKey.ofBlock doc block
  match (← get).find? key with
  | some result => return result
  | none =>
    let result := Parse.ofDocument ws doc block
    modify (·.insert key result)
    return result

end ParseCache

end HostScript
