import HostScript.GraphCheck
import HostScript.Server.State

set_option autoImplicit false

namespace HostScript

variable [Similar.Matcher]

namespace Diagnostic

def saysSame (a b : Diagnostic) : Bool :=
  a.range == b.range && a.code == b.code && a.message == b.message

def addMissing (known : List Diagnostic) : List Diagnostic → List Diagnostic
  | [] => known
  | d :: ds => addMissing (if known.any (·.saysSame d) then known else known ++ [d]) ds

def merge (findings extra : List Diagnostic) : List Diagnostic := sort (addMissing findings extra)

end Diagnostic

structure WholeCheck where
  progress : List Progress
  outcome : Except ServerError (List Diagnostic)
  published : List Notification

namespace WholeCheck

def uris (focal : String) (blocks : List Block) : List String :=
  dropRepeats (sortStrings (focal :: blocks.map (·.uri)))

/-- What is published for a document. An open one keeps its live findings besides the errors. -/
def findingsFor (s : Server) (ws : Workspace) (errors : List Diagnostic) (uri : String) :
    StateM ParseCache (List Diagnostic) := do
  let own := errors.filter (·.uri == uri)
  match s.buffers.doc? uri with
  | none => return own
  | some doc => return Diagnostic.merge own (← Server.liveFindings ws doc)

def publish (s : Server) (ws : Workspace) (errors : List Diagnostic) :
    List String → StateM ParseCache (List Notification)
  | [] => return []
  | uri :: rest => do
    let findings ← findingsFor s ws errors uri
    return .publish uri findings :: (← publish s ws errors rest)

/-- The stop that applies to a check of the server: a farewell, a lack of time, or the wish of the
editor to stop after some blocks. -/
def stop? (s : Server) (after : Option Nat) : Option Stop :=
  if s.isStopped then some ⟨0, .cancelled⟩
  else if s.isExpired then some ⟨0, .deadline⟩
  else after.map fun n => ⟨n, .cancelled⟩

/-- Checks everything reachable from a document. A check that fails publishes nothing. -/
def run (s : Server) (d : Disk) (uri : String) (after : Option Nat) : StateM ParseCache WholeCheck := do
  match s.view d with
  | .error e => return ⟨[], .error e, []⟩
  | .ok v =>
    match v.run (Resolution.ofDocument v.workspace uri) with
    | .error e => return ⟨[], .error e, []⟩
    | .ok found =>
      let check := Reading.run v.source (GraphCheck.run v.workspace uri (stop? s after))
      match check.outcome with
      | .error e => return ⟨check.progress, .error (.documents e), []⟩
      | .ok errors =>
        return ⟨check.progress, .ok errors, ← publish s v.workspace errors (uris uri found.blocks)⟩

def isCancelled (c : WholeCheck) : Bool :=
  match c.outcome with
  | .error (.documents e) => e.root == .cancelled || e.root == .deadline
  | _ => false

def notifications (uri : String) (c : WholeCheck) : List Notification :=
  c.progress.map (fun p =>
      .progress { uri, done := p.done, total := p.total, script := p.block.describe })
    ++ c.published
    ++ [.progress { uri, finished := true, errors := (c.outcome.toOption.getD []).length
                    cancelled := c.isCancelled }]

end WholeCheck

end HostScript
