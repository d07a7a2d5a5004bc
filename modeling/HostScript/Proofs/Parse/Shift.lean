import HostScript.Proofs.Block.Shift
import HostScript.Proofs.Parse.Locality
import HostScript.Proofs.Parse.Places

/-!
Reading a block of a text that moves. Each step of a walk over its tokens moves with them, so the calls
and the findings of the block move, and its counts stay as they are.
-/

set_option autoImplicit false

namespace HostScript

def Diagnostic.moved (d : Diagnostic) (s : Shift) : Diagnostic := { d with range := d.range.moved s }

def Call.moved (c : Call) (s : Shift) : Call :=
  { c with
    nameRange := c.nameRange.moved s
    openAt := s.bytes + c.openAt
    closeAt := c.closeAt.map (s.bytes + ·)
    commas := c.commas.map (s.bytes + ·) }

theorem Call.close_moved (c : Call) (offset : Int) (hasContent : Bool) (s : Shift) :
    (c.moved s).close (s.bytes + offset) hasContent = (c.close offset hasContent).moved s := by
  simp only [close, moved, List.length_map, Option.map_some]

def ParseResult.moved (r : ParseResult) (s : Shift) : ParseResult :=
  { r with
    block := r.block.moved s
    diagnostics := r.diagnostics.map (·.moved s)
    calls := r.calls.map (·.moved s) }

namespace Parse

def Opener.moved (o : Opener) (s : Shift) : Opener :=
  { o with start := s.bytes + o.start, line := s.lines + o.line }

def Walk.moved (w : Walk) (s : Shift) : Walk :=
  { stack := w.stack.map (·.moved s)
    calls := w.calls.map (·.moved s)
    recent := w.recent.map (·.moved s.bytes)
    diagnostics := w.diagnostics.map (·.moved s) }

theorem Walk.Within.openers_nonneg {start stop : Nat} {w : Walk} (hw : w.Within start stop) :
    ∀ o ∈ w.stack, 0 ≤ o.start := fun o ho =>
  Int.le_trans (Int.natCast_nonneg start) (hw.openers o ho).1

theorem nonneg_of_within {start stop : Nat} {t : Token} (ht : Lexer.Within start stop t) : t.Nonneg := by
  have hstart := ht.start_inside
  have hstop := ht.stop_inside
  exact ⟨by omega, by omega⟩

namespace Walk

theorem report_moved (w : Walk) (ds : List Diagnostic) (s : Shift) :
    (w.moved s).report (ds.map (·.moved s)) = (w.report ds).moved s := by
  simp only [report, moved, List.map_append]

theorem markContent_moved (w : Walk) (s : Shift) : (w.moved s).markContent = w.markContent.moved s := by
  obtain ⟨stack, calls, recent, diagnostics⟩ := w
  cases stack <;> rfl

theorem pop_moved (w : Walk) (token : Token) (s : Shift) :
    pop (w.moved s) (token.moved s.bytes) = (pop w token).moved s := by
  obtain ⟨stack, calls, recent, diagnostics⟩ := w
  cases stack with
  | nil => rfl
  | cons top rest =>
    have hcall : (top.moved s).call = top.call := rfl
    simp only [pop, moved, List.map_cons, hcall]
    cases top.call with
    | none => rfl
    | some i =>
      have hclose (c : Call) := c.close_moved token.span.start top.content s
      exact congrArg (Walk.mk _ · _ _) (map_modify (fun c => (hclose c).symm) calls i).symm

theorem comma_moved (w : Walk) (token : Token) (s : Shift) :
    comma (w.moved s) (token.moved s.bytes) = (comma w token).moved s := by
  obtain ⟨stack, calls, recent, diagnostics⟩ := w
  cases stack with
  | nil => rfl
  | cons top rest =>
    have hcall : (top.moved s).call = top.call := rfl
    simp only [comma, moved, List.map_cons, hcall]
    cases top.call with
    | none => rfl
    | some i =>
      refine congrArg (Walk.mk _ · _ _) (map_modify (fun c => ?_) calls i).symm
      simp only [Call.moved, List.map_append, List.map_cons, List.map_nil]
      rfl

section

variable {d e : Document} {s : Shift} (h : d.Follows e s)

include h

theorem finding_moved {a b : Int} (ha : 0 ≤ a) (hb : 0 ≤ b) (severity : Severity) (code : String)
    (message : Bytes) : finding d (s.bytes + a) (s.bytes + b) severity code message
      = (finding e a b severity code message).moved s := by
  simp only [finding, Diagnostic.moved, h.uri, h.range ha hb]

theorem unclosed_moved {openers : List Opener} (ho : ∀ o ∈ openers, 0 ≤ o.start) {offset : Int}
    (hoffset : 0 ≤ offset) : (openers.map (·.moved s)).map (unclosed d (s.bytes + offset))
      = (openers.map (unclosed e offset)).map (·.moved s) := by
  rw [List.map_map, List.map_map]
  exact List.map_congr_left fun o hm => finding_moved h (ho o hm) hoffset _ _ _

variable {start stop : Nat} {w : Walk} {token : Token} (hw : w.Within start stop)
  (ht : Lexer.Within start stop token)

include ht in
theorem tokenFinding_moved (severity : Severity) (code : String) (message : Bytes) :
    [finding d (token.moved s.bytes).span.start (token.moved s.bytes).span.stop severity code message]
      = [finding e token.span.start token.span.stop severity code message].map (·.moved s) := by
  obtain ⟨hstart, hstop⟩ := nonneg_of_within ht
  exact congrArg (· :: []) (finding_moved h hstart hstop severity code message)

include ht in
theorem lexicalError_moved :
    lexicalError d (w.moved s) (token.moved s.bytes) = (lexicalError e w token).moved s := by
  simp only [lexicalError, Token.moved_text, tokenFinding_moved h ht, report_moved,
    h.token_line (nonneg_of_within ht)]
  split
  · rfl
  · have hdrop : (w.moved s).stack.dropWhile
          (fun o => o.line == s.lines + e.lineAt token.span.start && o.kind != .braceOpen)
        = (w.stack.dropWhile fun o => o.line == e.lineAt token.span.start && o.kind != .braceOpen).map
          (·.moved s) := by
      rw [moved, List.dropWhile_map]
      congr 2
      funext o
      have hsame : (s.lines + o.line == s.lines + e.lineAt token.span.start)
          = (o.line == e.lineAt token.span.start) := by
        rw [Bool.eq_iff_iff, beq_iff_eq, beq_iff_eq, Nat.add_left_cancel_iff]
      simp only [Function.comp_apply, Opener.moved, hsame]
    rw [hdrop]
    rfl

include hw in
theorem callAt?_moved :
    callAt? d (w.moved s) (token.moved s.bytes) = (callAt? e w token).map (·.moved s) := by
  obtain ⟨stack, calls, recent, diagnostics⟩ := w
  match recent, hw.recent with
  | [], _ | [_], _ | [_, _], _ => rfl
  | name :: dot :: space :: rest, hrecent =>
    have hname := nonneg_of_within (hrecent name List.mem_cons_self)
    have htouch (t u : Token) : (t.moved s.bytes).span.stop = (u.moved s.bytes).span.start
        ↔ t.span.stop = u.span.start := Int.add_right_inj _
    simp only [callAt?, moved, List.map_cons, h.token_range hname, htouch, Token.moved_kind]
    split <;> rfl

include hw ht in
theorem openGroup_moved :
    openGroup d (w.moved s) (token.moved s.bytes) = (openGroup e w token).moved s := by
  have hcall : (if (token.moved s.bytes).kind = .parenOpen then
        callAt? d (w.moved s) (token.moved s.bytes) else none)
      = (if token.kind = .parenOpen then callAt? e w token else none).map (·.moved s) := by
    rw [callAt?_moved h hw, Token.moved_kind]
    split <;> rfl
  have hlength : (w.moved s).calls.length = w.calls.length := List.length_map _
  simp only [openGroup, hcall, h.token_line (nonneg_of_within ht), hlength]
  cases (if token.kind = .parenOpen then callAt? e w token else none) with
  | none => simp only [moved, Option.map_none, Option.toList_none, List.append_nil, List.map_cons]; rfl
  | some call =>
    simp only [moved, Option.map_some, Option.toList_some, List.map_append, List.map_cons, List.map_nil]
    rfl

include hw ht in
theorem closeGroup_moved :
    closeGroup d (w.moved s) (token.moved s.bytes) = (closeGroup e w token).moved s := by
  obtain ⟨hstart, _⟩ := nonneg_of_within ht
  cases hs : w.stack with
  | nil =>
    have hs' : (w.moved s).stack = [] := by rw [moved, hs]; rfl
    simp only [closeGroup, hs, hs', Token.moved_kind, tokenFinding_moved h ht, report_moved]
  | cons top rest =>
    have hs' : (w.moved s).stack = top.moved s :: rest.map (·.moved s) := by rw [moved, hs]; rfl
    have hmap : top.moved s :: rest.map (·.moved s) = (top :: rest).map (·.moved s) := rfl
    have hfits : (top.moved s :: rest.map (·.moved s)).any (fits (token.moved s.bytes))
        = (top :: rest).any (fits token) := by
      rw [hmap]
      exact List.any_map
    -- Whether a delimiter fits is a matter of kinds, so the same groups are skipped.
    have hskipped :
        (top.moved s :: rest.map (·.moved s)).takeWhile (fun o => !fits (token.moved s.bytes) o)
          = ((top :: rest).takeWhile fun o => !fits token o).map (·.moved s) := by
      rw [hmap]
      exact List.takeWhile_map
    have hnonneg : ∀ o ∈ (top :: rest).takeWhile fun o => !fits token o, 0 ≤ o.start := fun o ho =>
      hw.openers_nonneg o (hs ▸ (List.takeWhile_sublist _).subset ho)
    have htop : (top.moved s).kind = top.kind := rfl
    have hat : (token.moved s.bytes).span.start = s.bytes + token.span.start := rfl
    simp only [closeGroup, hs, hs', Token.moved_kind, htop, hfits, hskipped, tokenFinding_moved h ht,
      report_moved]
    split
    · rw [hat, unclosed_moved h hnonneg hstart, report_moved, List.length_map, hmap, ← List.map_drop]
      exact pop_moved { w.report _ with stack := _ } token s
    · rfl

include hw ht in
theorem dispatch_moved :
    dispatch d (w.moved s) (token.moved s.bytes) = (dispatch e w token).moved s := by
  simp only [dispatch, Token.moved_kind, Token.moved_text, lexicalError_moved h ht,
    tokenFinding_moved h ht, report_moved, openGroup_moved h hw ht, closeGroup_moved h hw ht, comma_moved]
  repeat' split
  all_goals rfl

include hw ht in
theorem step_moved : step d (w.moved s) (token.moved s.bytes) = (step e w token).moved s := by
  have hmarked : (if (token.moved s.bytes).kind.isClose then w.moved s else (w.moved s).markContent)
      = (if token.kind.isClose then w else w.markContent).moved s := by
    rw [markContent_moved, Token.moved_kind]
    split <;> rfl
  simp only [step, hmarked, dispatch_moved h (hw.marked token) ht]
  simp only [moved, List.map_take, List.map_cons]

include hw in
theorem foldl_step_moved {tokens : List Token} (ht : ∀ t ∈ tokens, Lexer.Within start stop t) :
    (tokens.map (·.moved s.bytes)).foldl (step d) (w.moved s) = (tokens.foldl (step e) w).moved s := by
  induction tokens generalizing w with
  | nil => rfl
  | cons token tokens ih =>
    have htoken := ht token List.mem_cons_self
    rw [List.map_cons, List.foldl_cons, step_moved h hw htoken]
    exact ih (hw.step htoken e) fun t hm => ht t (List.mem_cons_of_mem _ hm)

end

end Walk

theorem codeTokens_moved (tokens : List Token) (n : Nat) :
    codeTokens (tokens.map (·.moved n)) = (codeTokens tokens).map (·.moved n) := List.filter_map

section

variable {d e : Document} {s : Shift} {block : Block} (h : d.Follows e s) (hb : block ∈ Block.scan e)

include h hb

theorem walk_moved : walk d (block.moved s) ((bodyTokens e block).map (·.moved s.bytes))
    = (walk e block (bodyTokens e block)).moved s := by
  obtain ⟨_, g, _, hg⟩ := Block.exists_beginsAt hb
  obtain ⟨_, _, hbody, hend, _, hstop⟩ := hg.bounds
  have hwithin : ∀ t ∈ codeTokens (bodyTokens e block),
      Lexer.Within block.bodyStart block.bodyEnd t := fun t ht =>
    Lexer.tokens_within hbody (Nat.le_trans hend hstop) t (List.mem_filter.mp ht).1
  have hempty : Walk.Within block.bodyStart block.bodyEnd {} := ⟨by simp, by simp⟩
  have hfold := Walk.foldl_step_moved h hempty hwithin
  have hat : ((block.moved s).stop : Int) = s.bytes + block.stop := Int.natCast_add _ _
  have hunclosed := Walk.unclosed_moved h (hempty.foldl hwithin e).openers_nonneg
    (Int.natCast_nonneg block.stop)
  have hstart : ({} : Walk) = Walk.moved {} s := rfl
  have hopen (w : Walk) : (w.moved s).stack = w.stack.map (·.moved s) := rfl
  rw [walk, codeTokens_moved, hstart, hfold, Walk.finish, hopen, hat, hunclosed, Walk.report_moved]
  rfl

theorem structureOf_moved : structureOf d (block.moved s) = (structureOf e block).moved s := by
  have htokens : bodyTokens d (block.moved s) = (bodyTokens e block).map (·.moved s.bytes) :=
    h.tokens block.bodyStart block.bodyEnd
  have hline (n : Nat) : d.lineAt (s.bytes + n : Nat) = s.lines + e.lineAt n := by
    rw [Int.natCast_add]
    exact h.lineAt (Int.natCast_nonneg n)
  have hlines : d.lineAt (block.moved s).stop - d.lineAt (block.moved s).start
      = e.lineAt block.stop - e.lineAt block.start := by
    rw [show (block.moved s).stop = s.bytes + block.stop from rfl,
      show (block.moved s).start = s.bytes + block.start from rfl, hline, hline, Nat.add_sub_add_left]
  have hcount (p : TokenKind → Bool) :
      (((bodyTokens e block).map (·.moved s.bytes)).filter (p ·.kind)).length
        = ((bodyTokens e block).filter (p ·.kind)).length := by
    rw [List.filter_map, List.length_map]
    rfl
  have hcalls (w : Walk) : (w.moved s).calls.length = w.calls.length := List.length_map _
  have hincludes : (block.moved s).includes.length = block.includes.length := List.length_map _
  have hhooks : (block.moved s).hooks.length = block.hooks.length := List.length_map _
  simp only [structureOf, htokens, walk_moved h hb, hlines, hcount (· != .eof), hcount (· == .comment),
    hcalls, hincludes, hhooks]
  rfl

end

end Parse

end HostScript
