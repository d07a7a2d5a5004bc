import HostScript.Block.Scan
import HostScript.Failure

/-!
Computations that ask for documents, their blocks and the index of a workspace. What such a
computation does is said apart from where its answers come from, so the same request can be run
against a frozen set of documents, or in a session that reads files on first use.
-/

set_option autoImplicit false

namespace HostScript

structure HostFile where
  doc : Document
  blocks : List Block
  blocks_eq : blocks = Block.scan doc

def HostFile.ofDocument (doc : Document) : HostFile := ⟨doc, Block.scan doc, rfl⟩

/-- The blocks of a workspace, ordered by document URI and then by offset. -/
structure Index where
  blocks : List Block

inductive Reading.Request where
  | document (uri : String)
  | blocks (uri : String)
  | index (uris : List String)
  deriving DecidableEq

abbrev Reading.Request.Answer : Reading.Request → Type
  | .document _ => Document
  | .blocks _ => List Block
  | .index _ => Index

/-- A computation that is done, or that goes on with the answer to a request. -/
inductive Reading (α : Type) where
  | done (a : α)
  | ask (request : Reading.Request) (next : Except Failure request.Answer → Reading α)

namespace Reading

def bind {α β : Type} : Reading α → (α → Reading β) → Reading β
  | .done a, f => f a
  | .ask request next, f => .ask request fun answer => (next answer).bind f

instance : Monad Reading where
  pure := .done
  bind := Reading.bind

def gather (source : String → Except Failure HostFile) : List String → Except Failure (List Block)
  | [] => .ok []
  | uri :: rest => do
    let file ← source uri
    return file.blocks ++ (← gather source rest)

def answer (source : String → Except Failure HostFile) :
    (request : Request) → Except Failure request.Answer
  | .document uri => (source uri).map (·.doc)
  | .blocks uri => (source uri).map (·.blocks)
  | .index uris => (gather source uris).map .mk

def run {α : Type} (source : String → Except Failure HostFile) : Reading α → α
  | .done a => a
  | .ask request next => (next (answer source request)).run source

def runM {α : Type} {m : Type → Type} [Monad m]
    (supply : (request : Request) → m (Except Failure request.Answer)) : Reading α → m α
  | .done a => pure a
  | .ask request next => do (next (← supply request)).runM supply

end Reading

abbrev ReadM := ExceptT Failure Reading

namespace ReadM

def ask (request : Reading.Request) : ReadM request.Answer := ExceptT.mk (.ask request .done)

def run {α : Type} (source : String → Except Failure HostFile) (x : ReadM α) : Except Failure α :=
  Reading.run source (ExceptT.run x)

def within {α : Type} (context : Failure → Failure) (x : ReadM α) : ReadM α :=
  ExceptT.mk ((ExceptT.run x).bind fun result => .done (result.mapError context))

end ReadM

end HostScript
