import HostScript.Proofs.Workspace.Readable
import HostScript.Session

set_option autoImplicit false

namespace HostScript

namespace Reading

/-- No index is asked for but that of one list of URIs. -/
def IndexesOnly {α : Type} (uris : List String) : Reading α → Prop
  | .done _ => True
  | .ask request next =>
    (∀ other, request = .index other → other = uris) ∧ ∀ answer, (next answer).IndexesOnly uris

theorem answer_blocks (source : Supply) (uri : String) :
    answer source (.blocks uri) = (answer source (.document uri)).map Block.scan := by
  rw [answer, answer]
  cases source uri with
  | error failure => rfl
  | ok file => exact congrArg Except.ok file.blocks_eq

variable {uris : List String} {α β : Type}

theorem IndexesOnly.bind {x : Reading α} {f : α → Reading β} (hx : x.IndexesOnly uris)
    (hf : ∀ a, (f a).IndexesOnly uris) : (x >>= f).IndexesOnly uris := by
  induction x with
  | done a => exact hf a
  | ask request next ih => exact ⟨hx.1, fun answer => ih answer (hx.2 answer)⟩

theorem IndexesOnly.map {x : Reading α} (hx : x.IndexesOnly uris) (f : α → β) :
    (f <$> x).IndexesOnly uris := hx.bind fun _ => trivial

theorem IndexesOnly.bindExcept {x : ReadM α} {f : α → ReadM β}
    (hx : (ExceptT.run x).IndexesOnly uris) (hf : ∀ a, (ExceptT.run (f a)).IndexesOnly uris) :
    (ExceptT.run (x >>= f)).IndexesOnly uris := by
  refine IndexesOnly.bind (x := ExceptT.run x) hx fun result => ?_
  cases result with
  | ok a => exact hf a
  | error failure => trivial

theorem IndexesOnly.within {x : ReadM α} (hx : (ExceptT.run x).IndexesOnly uris)
    (context : Failure → Failure) : (ExceptT.run (ReadM.within context x)).IndexesOnly uris :=
  hx.bind fun _ => trivial

end Reading

namespace Workspace

variable (ws : Workspace)

theorem document_indexesOnly (uri : String) :
    (ExceptT.run (ws.document uri)).IndexesOnly ws.uris :=
  ⟨(fun _ h => nomatch h), fun _ => trivial⟩

theorem blocks_indexesOnly (uri : String) : (ExceptT.run (ws.blocks uri)).IndexesOnly ws.uris :=
  ⟨(fun _ h => nomatch h), fun _ => trivial⟩

theorem index_indexesOnly : (ExceptT.run ws.index).IndexesOnly ws.uris :=
  ⟨fun _ h => (Reading.Request.index.inj h).symm, fun _ => trivial⟩

theorem parse_indexesOnly [Similar.Matcher] (origin : Origin) (block : Block) (strict : Bool) :
    (ExceptT.run (Parse.run ws origin block strict)).IndexesOnly ws.uris := by
  refine (ws.document_indexesOnly block.uri).bindExcept fun doc => ?_
  cases strict with
  | false => trivial
  | true =>
    simp only [if_true]
    split
    · exact (ws.index_indexesOnly.within _).bindExcept fun ix => trivial
    · trivial

theorem resolve_indexesOnly (uri : String) :
    (ExceptT.run (Resolution.ofDocument ws uri)).IndexesOnly ws.uris := by
  refine (ws.blocks_indexesOnly uri).bindExcept fun focal => ?_
  split
  · exact ws.index_indexesOnly.bindExcept fun ix => trivial
  · trivial

theorem visit_indexesOnly [Similar.Matcher] (stop : Option Stop) (total done : Nat) (blocks : List Block) :
    (GraphCheck.visit ws stop total done blocks).IndexesOnly ws.uris := by
  induction blocks generalizing done with
  | nil => trivial
  | cons block rest ih =>
    rw [GraphCheck.visit]
    split
    · trivial
    · refine (ws.parse_indexesOnly .workspace block true).bind fun result => ?_
      cases result with
      | error failure => trivial
      | ok result => exact (ih (done + 1)).bind fun after => trivial

theorem check_indexesOnly [Similar.Matcher] (uri : String) (stop : Option Stop) :
    (GraphCheck.run ws uri stop).IndexesOnly ws.uris := by
  refine (ws.resolve_indexesOnly uri).bind fun result => ?_
  cases result with
  | error failure => trivial
  | ok found => exact (ws.visit_indexesOnly stop _ 0 found.blocks).bind fun all => trivial

theorem query_indexesOnly [Similar.Matcher] (query : Session.Query) :
    (query.reading ws).IndexesOnly ws.uris := by
  cases query with
  | document uri => exact (ws.document_indexesOnly uri).map _
  | blocks uri => exact (ws.blocks_indexesOnly uri).map _
  | index => exact ws.index_indexesOnly.map _
  | resolve uri => exact (ws.resolve_indexesOnly uri).map _
  | parse origin block strict => exact (ws.parse_indexesOnly origin block strict).map _
  | check uri stop => exact (ws.check_indexesOnly uri stop).map _

end Workspace

end HostScript
