import HostScript.Check

set_option autoImplicit false

namespace HostScript

variable [Similar.Matcher]

structure Progress where
  done : Nat
  total : Nat
  block : Block

structure Stop where
  after : Nat
  failure : Failure

structure GraphCheck where
  progress : List Progress
  outcome : Except Failure (List Diagnostic)

namespace GraphCheck

def stopped? (stop : Option Stop) (done : Nat) : Option Failure :=
  stop.bind fun s => if s.after ≤ done then some s.failure else none

/-- Reads the blocks in order and collects what they report. A stop is noticed before each block
and at the end. -/
def visit (ws : Workspace) (stop : Option Stop) (total : Nat) :
    (done : Nat) → List Block → Reading GraphCheck
  | done, [] =>
    return ⟨[], match stopped? stop done with
      | some failure => .error failure
      | none => .ok []⟩
  | done, block :: rest => do
    match stopped? stop done with
    | some failure => return ⟨[], .error failure⟩
    | none =>
      match ← ExceptT.run (Parse.run ws .workspace block true) with
      | .error failure => return ⟨[], .error failure⟩
      | .ok result =>
        let after ← visit ws stop total (done + 1) rest
        return ⟨⟨done + 1, total, block⟩ :: after.progress,
          after.outcome.map (result.diagnostics ++ ·)⟩

/-- The errors of every block reachable from a document. What is reachable is found before a
stop is noticed. -/
def run (ws : Workspace) (uri : String) (stop : Option Stop) : Reading GraphCheck := do
  match ← ExceptT.run (Resolution.ofDocument ws uri) with
  | .error failure => return ⟨[], .error failure⟩
  | .ok found =>
    let all ← visit ws stop found.blocks.length 0 found.blocks
    return { all with outcome := all.outcome.map Diagnostic.errors }

end GraphCheck

end HostScript
