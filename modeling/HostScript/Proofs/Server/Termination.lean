import HostScript.Proofs.Block.Edits
import HostScript.Proofs.Check.Codes
import HostScript.Server.QuickFix
import HostScript.Similar

set_option autoImplicit false

namespace HostScript

namespace Block

def terminating (d : Document) (b : Block) : TextEdit :=
  QuickFix.lines (d.positionAt b.stop) (QuickFix.startsLine d b.stop) (terminatorKeyword ++ "\n")

theorem placed_ascending (d : Document) :
    ((scan d).map (placed d)).Pairwise fun p q => p.start < q.start := by
  rw [List.pairwise_map]
  exact scan_starts_ascending d

theorem terminating_apply {d : Document} {b : Block} {offset : Nat}
    (hp : d.offsetNear (d.positionAt b.stop) = offset) :
    ((terminating d b).apply d).text = d.text.take offset
      ++ ((if QuickFix.startsLine d b.stop then [] else [Bytes.newline])
        ++ (terminatorLine ++ d.text.drop offset)) := by
  subst hp
  have htext (atStart : Bool) : utf8 (if atStart then terminatorKeyword ++ "\n"
        else "\n" ++ (terminatorKeyword ++ "\n"))
      = (if atStart then [] else [Bytes.newline]) ++ terminatorLine := by
    cases atStart with
    | true => rfl
    | false => decide
  simp only [terminating, QuickFix.lines, TextEdit.apply, Document.ofText, htext, List.append_assoc]

/-- A block that the next header cuts off is ended before that header, which no block begins at after
that. -/
theorem mends_interrupted {d : Document} {h : OpenBlock} {m : Nat} {kind : BlockKind} {fields : Bytes}
    (ho : d.OpenBefore m h) (hr : lineRole (d.line m) = .header kind fields)
    (hb : cut d h (d.lineStart m) ∈ scan d) :
    Mends d ((terminating d (cut d h (d.lineStart m))).apply d) (cut d h (d.lineStart m)) ∧
      ∀ t ∈ scan ((terminating d (cut d h (d.lineStart m))).apply d), t.start ≠ d.lineStart m := by
  have hm : m < d.lineCount := ((d.isHeader_iff_role m).mpr ⟨kind, fields, hr⟩).lt_lineCount
  have hnear : d.offsetNear (d.positionAt (cut d h (d.lineStart m)).stop) = d.lineStart m := by
    have hp : d.positionAt (cut d h (d.lineStart m)).stop = ⟨m, 0⟩ := d.positionAt_lineStart hm
    rw [hp, d.offsetNear_lineStart hm]
  have he := terminating_apply hnear
  have hstarts : QuickFix.startsLine d (cut d h (d.lineStart m)).stop = true := d.startsLine_lineStart hm
  rw [hstarts, if_pos rfl, List.nil_append] at he
  generalize (terminating d (cut d h (d.lineStart m))).apply d = e at he ⊢
  have hsense : senseOf (d.rawLine m).lineText = .header (.ofFields kind fields) := senseOf_rawLine hm hr
  have hrest := d.rawLines_drop_cons hm
  have hopen := pass_openBefore ho (Nat.le_of_lt hm)
  -- Both documents go through the same lines before line `m`, where the block is open.
  have hd := scan_placed_split d hm
  have he := scan_placed_take hm he
  rw [hopen, hrest, passAll_header hsense] at hd
  rw [hopen, rawLines_terminatorLine, hrest, passAll_terminator senseOf_terminatorLine] at he
  simp only [Option.map_some, Option.toList_some, List.singleton_append] at hd he
  refine ⟨mends_of_placed hb hd he rfl rfl rfl rfl ?_, fun t ht hstart => ?_⟩
  · rw [passAll_content, passAll_content (d.lineStart m)]
  · have hbefore : d.lineStart h.line < d.lineStart m := d.lineStart_lt ho.before hm
    have hasc := placed_ascending d
    rw [hd, List.pairwise_append] at hasc
    have hmem : t.placed e ∈ _ := List.mem_map_of_mem ht
    rw [he] at hmem
    rcases List.mem_append.mp hmem with hmem | hmem
    · have hlt := hasc.2.2 _ hmem ((begunBefore d m h).finish false) List.mem_cons_self
      simp only [placed, Begun.finish, begunBefore] at hlt
      omega
    · cases List.mem_cons.mp hmem with
      | inl hmem =>
        have heq := congrArg Placed.start hmem
        simp only [placed, Begun.finish, begunBefore] at heq
        omega
      | inr hmem =>
        have hle := le_start_of_mem_passAll hmem
        have hlen : terminatorLine.length = 10 := by decide
        simp only [placed] at hle
        omega

/-- A block that reaches to the end of the text is ended there, on a line of its own. -/
theorem mends_unfinished {d : Document} {h : OpenBlock} (ho : d.OpenBefore d.lineCount h)
    (hb : cut d h d.length ∈ scan d) :
    Mends d ((terminating d (cut d h d.length)).apply d) (cut d h d.length) := by
  have hlast := d.lastLine_lt
  have hcount := d.lastLine_succ
  have hnear : d.offsetNear (d.positionAt (cut d h d.length).stop) = d.lineEnd d.lastLine :=
    d.offsetNear_length
  have he := terminating_apply hnear
  rw [show (cut d h d.length).stop = d.length from rfl] at he
  generalize (terminating d (cut d h d.length)).apply d = e at he ⊢
  have hrest := d.rawLines_lastLine
  have hd := scan_placed_split d hlast
  have hopen : (passLine (d.lineStart d.lastLine) (d.rawLine d.lastLine)
      (pass 0 (d.linesBefore d.lastLine) none).2).2 = some (begunBefore d d.lineCount h) := by
    have hall := pass_openBefore ho (Nat.le_refl _)
    rw [← hcount, d.linesBefore_succ, pass_append, d.length_linesBefore, Nat.zero_add, hcount] at hall
    simpa [pass] using hall
  rw [hrest, passAll_cons, hopen, ← List.append_assoc] at hd
  by_cases htext : d.lineStart d.lastLine < d.length
  · -- The last line has text, so the terminator gets a newline in front.
    rw [d.startsLine_length htext, if_neg (by simp), ← d.take_lineStart_append_line hlast,
      List.append_assoc, List.singleton_append] at he
    have he := scan_placed_take hlast he
    have hline : senseOf (d.rawLine d.lastLine).lineText
        = senseOf (d.line d.lastLine ++ [Bytes.newline]).lineText := by
      rw [d.lineText_rawLine hlast, senseOf_lineText, Bytes.dropEnd_append]
    obtain ⟨hdone, hlike⟩ := passLine_like hline (d.lineStart d.lastLine)
      (pass 0 (d.linesBefore d.lastLine) none).2
    rw [hopen] at hlike
    cases hnext : (passLine (d.lineStart d.lastLine) (d.line d.lastLine ++ [Bytes.newline])
        (pass 0 (d.linesBefore d.lastLine) none).2).2 with
    | none => rw [hnext] at hlike; cases hlike
    | some o =>
      rw [hnext] at hlike
      cases hlike with
      | some hlike =>
        obtain ⟨hback, hother⟩ := d.rawLines_drop_lineEnd
        rw [Bytes.rawLines_line (d.newline_notMem_line hlast), rawLines_terminatorLine, hback,
          passAll_cons, hnext, ← hdone, passAll_terminator senseOf_terminatorLine,
          passAll_singleton_other hother, List.append_nil, ← List.append_assoc] at he
        exact mends_of_placed hb hd he rfl hlike.1.symm hlike.2.symm rfl rfl
  · -- The last line is empty, and the terminator takes its place.
    obtain ⟨hempty, hend, hnil⟩ := d.lastLine_empty htext
    have hrole : lineRole (d.line d.lastLine) = .other := by rw [hnil]; decide
    have hraw : senseOf (d.rawLine d.lastLine).lineText = .other := senseOf_rawLine hlast hrole
    rw [passLine_other _ _ hraw] at hopen hd
    obtain ⟨o, hstate, ho⟩ := Option.map_eq_some_iff.mp hopen
    rw [← hempty, d.startsLine_lineStart hlast, if_pos rfl, List.nil_append, hend] at he
    have he := scan_placed_take hlast he
    rw [hstate, rawLines_terminatorLine, passAll_terminator senseOf_terminatorLine, hrest,
      passAll_singleton_other hraw] at he
    rw [List.append_nil] at hd
    have hlike : o.start = d.lineStart h.line ∧ o.header = .ofFields h.kind h.fields :=
      ⟨congrArg Begun.start ho, congrArg Begun.header ho⟩
    exact mends_of_placed hb hd he rfl hlike.1 hlike.2 rfl rfl

/-- Every block without a terminator is mended by its edit. If the text goes on behind the block, no
block begins where it stopped. -/
theorem mends_of_not_terminated {d : Document} {b : Block} (hb : b ∈ scan d)
    (ht : b.terminated = false) : Mends d ((terminating d b).apply d) b ∧
      (b.stop < d.length → ∀ t ∈ scan ((terminating d b).apply d), t.start ≠ b.stop) := by
  obtain ⟨_, h, rfl, he⟩ := exists_beginsAt hb
  cases he with
  | terminated ho hr => exact absurd ht (by simp [close])
  | interrupted ho hr =>
    obtain ⟨hm, hn⟩ := mends_interrupted ho hr hb
    exact ⟨hm, fun _ => hn⟩
  | unfinished ho => exact ⟨mends_unfinished ho hb, fun hlt => absurd hlt (Nat.lt_irrefl _)⟩

/-- The block found at the beginning of a block is the block itself, unless another one stops there. -/
theorem at?_start {d : Document} {s : Block} (hs : s ∈ scan d) :
    (∃ p ∈ scan d, p.start < s.start ∧ p.stop = s.start ∧ at? (scan d) s.start = some p) ∨
      (∀ p ∈ scan d, p.start < s.start → p.stop ≠ s.start) ∧ at? (scan d) s.start = some s := by
  have hself : s.contains s.start = true := by
    obtain ⟨_, h, rfl, he⟩ := exists_beginsAt hs
    have hle := he.bounds.2.2.2.2.1
    simp [contains, hle]
  by_cases hcut : ∃ p ∈ scan d, p.start < s.start ∧ p.stop = s.start
  · obtain ⟨p, hp, hlt, hstop⟩ := hcut
    refine Or.inl ⟨p, hp, hlt, hstop, at?_eq_some_iff.mpr ⟨hp, ?_, fun a ha hap => ?_⟩⟩
    · simp only [contains, Bool.and_eq_true, decide_eq_true_eq]
      omega
    · have hbefore := (stop_le_start ha hp hap).1
      simp only [contains, Bool.and_eq_false_iff, decide_eq_false_iff_not]
      omega
  · have hapart : ∀ p ∈ scan d, p.start < s.start → p.stop ≠ s.start :=
      fun p hp hlt hstop => hcut ⟨p, hp, hlt, hstop⟩
    refine Or.inr ⟨hapart, at?_eq_some_iff.mpr ⟨hs, hself, fun a ha hlt => ?_⟩⟩
    have hbefore := (stop_le_start ha hs hlt).1
    have hne := hapart a ha hlt
    simp only [contains, Bool.and_eq_false_iff, decide_eq_false_iff_not]
    omega

end Block

def Diagnostic.given (d : Diagnostic) : GivenFinding :=
  { range := d.range, severity := some d.shownSeverity.level, code := some d.code
    source := some findingSource, message := d.shownMessage }

def Check.missing (s : Block) : Diagnostic :=
  finding .missingEndScript s s.headerRange (s.describe ++ utf8 (" has no matching " ++ terminatorKeyword))

namespace Parse

theorem missingEndScript_findings [Similar.Matcher] (ws : Workspace) (d : Document) {s : Block}
    (ht : s.terminated = false) :
    (ofDocument ws d s).diagnostics.filter (·.code == Check.missingEndScript.name)
      = [Check.missing s] := by
  have hone : Check.onMissingEndScript s = [Check.missing s] := by
    simp [Check.onMissingEndScript, Check.missing, ht]
  have hfound := ofDocument_filter ws d s ⟨[]⟩ .workspace (c := .missingEndScript) rfl
  rw [Check.findings, hone] at hfound
  rw [hfound]
  exact List.mergeSort_singleton _

end Parse

namespace QuickFix

theorem ofFinding?_missingEndScript {d : Document} {s q : Block} {finding : GivenFinding}
    (hs : s ∈ Block.scan d) (hat : Block.at? (Block.scan d) s.start = some q)
    (hq : q.terminated = false) (hsource : finding.source = some findingSource)
    (hcode : finding.code = some Check.missingEndScript.name) (hrange : finding.range = s.headerRange) :
    ofFinding? d finding = some ⟨utf8 ("Add " ++ terminatorKeyword), d.uri, finding,
      Block.terminating d q⟩ := by
  obtain ⟨_, h, rfl, he⟩ := Block.exists_beginsAt hs
  have hline := he.bounds.1
  have hstart : d.offsetAt finding.range.start = some s.start := by
    have hpos : s.headerRange.start = ⟨h.line, 0⟩ := by
      rw [he.eq_close]
      exact d.positionAt_lineStart hline
    rw [hrange, hpos, d.offsetAt_lineStart hline, he.bounds.2.1]
  have hblock : d.blockAt? finding.range.start = some q := by
    simp only [Document.blockAt?, hstart, Option.bind_some, hat]
  have hother : ¬ (some Check.missingEndScript.name == some Check.unknownFunction.name) = true := by decide
  simp only [ofFinding?, hsource, hcode, hother, termination?, hblock]
  simp [hq, Block.terminating]

theorem quickFixes_eq {srv : Server} {uri : String} {d : Document} (hd : srv.buffers.doc? uri = some d)
    (findings : List GivenFinding) : srv.quickFixes uri [] findings = findings.filterMap (ofFinding? d) := by
  simp only [Server.quickFixes, hd]
  rfl

theorem quickFixes_missingEndScript {srv : Server} {uri : String} {d : Document} {s q : Block}
    (hd : srv.buffers.doc? uri = some d) (hs : s ∈ Block.scan d)
    (hat : Block.at? (Block.scan d) s.start = some q) (hq : q.terminated = false) :
    srv.quickFixes uri [] [(Check.missing s).given] = [⟨utf8 ("Add " ++ terminatorKeyword), d.uri,
      (Check.missing s).given, Block.terminating d q⟩] := by
  rw [quickFixes_eq hd, List.filterMap_cons, ofFinding?_missingEndScript hs hat hq rfl rfl rfl,
    List.filterMap_nil]

/-- A block without terminator has one finding of that, and the finding has one edit. The edit ends
the block exactly if no block before it reaches to its beginning, and otherwise ends that one. -/
theorem mends_iff_apart [Similar.Matcher] {srv : Server} {uri : String} {d : Document} {s : Block}
    (hd : srv.buffers.doc? uri = some d) (hs : s ∈ Block.scan d) (ht : s.terminated = false)
    (ws : Workspace) :
    ∃ diag fix,
      (Parse.ofDocument ws d s).diagnostics.filter (·.code == Check.missingEndScript.name) = [diag] ∧
      diag.range = s.headerRange ∧ srv.quickFixes uri [] [diag.given] = [fix] ∧
      (Block.Mends d (fix.edit.apply d) s ↔
        ∀ p ∈ Block.scan d, p.start < s.start → p.stop ≠ s.start) ∧
      ∀ p ∈ Block.scan d, p.start < s.start → p.stop = s.start → Block.Mends d (fix.edit.apply d) p := by
  have hdiag := Parse.missingEndScript_findings ws d ht
  rcases Block.at?_start hs with ⟨q, hq, hlt, hstop, hat⟩ | ⟨hapart, hat⟩
  · have hqt : q.terminated = false := by
      cases hterm : q.terminated with
      | false => rfl
      | true =>
        have hbefore := (Block.stop_le_start hq hs hlt).2 hterm
        omega
    obtain ⟨hmends, hnone⟩ := Block.mends_of_not_terminated hq hqt
    have hmore := Block.start_lt_length hs
    refine ⟨Check.missing s, _, hdiag, rfl, quickFixes_missingEndScript hd hs hat hqt,
      ⟨fun hs' => ?_, fun hall => absurd hstop (hall q hq hlt)⟩, ?_⟩
    · obtain ⟨_, _, _, t, _, _, hscan, hstart, _⟩ := hs'
      exact absurd (hstart.trans hstop.symm) (hnone (by omega) t (by simp [hscan]))
    · intro p hp hplt hpstop
      obtain rfl : p = q := by
        rcases Nat.lt_trichotomy p.start q.start with hpq | hpq | hpq
        · have hle := (Block.stop_le_start hp hq hpq).1
          omega
        · exact Block.eq_of_start_eq hp hq hpq
        · have hle := (Block.stop_le_start hq hp hpq).1
          omega
      exact hmends
  · refine ⟨Check.missing s, _, hdiag, rfl, quickFixes_missingEndScript hd hs hat ht, ?_, ?_⟩
    · exact ⟨fun _ => hapart, fun _ => (Block.mends_of_not_terminated hs ht).1⟩
    · intro p hp hlt hstop
      exact absurd hstop (hapart p hp hlt)

def twoHeaders : Document := .ofText "file:///a.cpp" (utf8 "SCRIPT:1,A\nSCRIPT:2,B\n")

def firstHeader : Block := .cut twoHeaders ⟨0, .script, utf8 "1,A"⟩ 11

def secondHeader : Block := .cut twoHeaders ⟨1, .script, utf8 "2,B"⟩ 22

def twoHeadersServer : Server := { buffers := { entries := [⟨twoHeaders, 1⟩] } }

theorem twoHeaders_scan : Block.scan twoHeaders = [firstHeader, secondHeader] := by decide +kernel

theorem mends_iff_apart_twoHeaders :
    ∃ diag fix,
      (Parse.ofDocument ⟨[], none⟩ twoHeaders secondHeader).diagnostics.filter
        (·.code == Check.missingEndScript.name) = [diag] ∧
      diag.range = secondHeader.headerRange ∧
      twoHeadersServer.quickFixes "file:///a.cpp" [] [diag.given] = [fix] ∧
      Block.Mends twoHeaders (fix.edit.apply twoHeaders) firstHeader := by
  have hs : secondHeader ∈ Block.scan twoHeaders := by simp [twoHeaders_scan]
  have hd : twoHeadersServer.buffers.doc? "file:///a.cpp" = some twoHeaders := by rfl
  obtain ⟨diag, fix, hdiag, hrange, hfix, _, hfirst⟩ := mends_iff_apart hd hs rfl ⟨[], none⟩
  refine ⟨diag, fix, hdiag, hrange, hfix, hfirst firstHeader (by simp [twoHeaders_scan]) ?_ ?_⟩
  · decide
  · decide

/-- The edit for the second of two headers leaves its block without a terminator: no block begins
there any more. -/
theorem not_mends_secondHeader :
    secondHeader ∈ Block.scan twoHeaders ∧ secondHeader.terminated = false ∧
      (Parse.ofDocument ⟨[], none⟩ twoHeaders secondHeader).diagnostics.filter
        (·.code == Check.missingEndScript.name) = [Check.missing secondHeader] ∧
      ∃ fix, twoHeadersServer.quickFixes "file:///a.cpp" [] [(Check.missing secondHeader).given] = [fix] ∧
        ¬ Block.Mends twoHeaders (fix.edit.apply twoHeaders) secondHeader := by
  have hs : secondHeader ∈ Block.scan twoHeaders := by simp [twoHeaders_scan]
  have hq : firstHeader ∈ Block.scan twoHeaders := by simp [twoHeaders_scan]
  have hd : twoHeadersServer.buffers.doc? "file:///a.cpp" = some twoHeaders := by rfl
  have hat : Block.at? (Block.scan twoHeaders) secondHeader.start = some firstHeader := by
    rw [twoHeaders_scan]
    decide
  refine ⟨hs, rfl, Parse.missingEndScript_findings _ _ rfl, _,
    quickFixes_missingEndScript hd hs hat rfl, ?_⟩
  rintro ⟨_, _, _, t, _, _, hscan, hstart, _⟩
  have hnone := (Block.mends_of_not_terminated hq rfl).2 (by decide) t (by simp [hscan])
  exact hnone (hstart.trans (by decide))

end QuickFix

end HostScript
