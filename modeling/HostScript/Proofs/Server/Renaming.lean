import HostScript.Proofs.Check.Unknown
import HostScript.Proofs.Parse.Called
import HostScript.Proofs.Server.Suggestion
import HostScript.Proofs.Server.Termination
import HostScript.Similar

set_option autoImplicit false

namespace HostScript

namespace Document

theorem le_lineEnd_of_byte (d : Document) {o : Nat} {b : UInt8} (hb : d.text[o]? = some b)
    (hr : b ≠ Bytes.carriageReturn) : o + 1 ≤ d.lineEnd (d.lineAt (o + 1 : Nat)) := by
  obtain ⟨hline, hlow, hhigh⟩ := d.lineAt_bounds (o + 1)
  generalize d.lineAt (o + 1 : Nat) = n at hline hlow hhigh ⊢
  have hlen : o < d.length := (List.getElem?_eq_some_iff.mp hb).1
  have hstop : o + 1 ≤ d.lineStop n := by
    by_cases hn : n + 1 < d.lineCount
    · have hlt := hhigh hn
      rw [d.lineStop_of_lt hn]
      omega
    · rw [d.lineStop_of_last (by omega)]
      omega
  rw [d.lineEnd_nat]
  split
  · rename_i hreturn
    by_contra hle
    rw [show d.lineStop n - 1 = o by omega, hb] at hreturn
    exact hr (Option.some.inj hreturn.2)
  · exact hstop

theorem offsetNear_of_byte {d : Document} {o : Nat} {b : UInt8} (hb : d.text[o]? = some b)
    (hr : b ≠ Bytes.carriageReturn) (ho : d.text.IsBoundary (o + 1)) :
    d.offsetNear (d.positionAt (o + 1 : Nat)) = o + 1 := by
  rw [offsetNear, (d.isBoundary_of_text ho).offsetAt (d.le_lineEnd_of_byte hb hr)]
  rfl

end Document

namespace Parse

open Lexer

variable {d : Document} {b : Block} {before old after : List Rune}

theorem Called.apply_text (h : Called d b before old after) (hb : b ∈ Block.scan d) (name : Bytes) :
    ((⟨d.range (nameStart b before) (nameStart b before + Rune.sizes old : Nat), name⟩ : TextEdit).apply d).text
      = frontText d b before ++ Bytes.dot :: (name ++ backText d b after) := by
  have htext := h.text_eq hb
  have hfront := length_frontText hb before
  have hold : (Rune.join old).length = Rune.sizes old := Rune.length_join old
  have hpos := h.sizes_old_pos
  have hstart : d.offsetNear (d.positionAt (nameStart b before)) = nameStart b before := by
    rw [← hfront]
    exact Document.offsetNear_of_byte (b := Bytes.dot) (by simp [htext]) (by decide)
      (hfront ▸ h.start_isBoundary hb)
  have hstop : d.offsetNear (d.positionAt (nameStart b before + Rune.sizes old : Nat))
      = nameStart b before + Rune.sizes old := by
    rcases List.eq_nil_or_concat (Rune.join old) with hnil | ⟨init, last, hlast⟩
    · rw [hnil, List.length_nil] at hold
      omega
    · have hlen : (frontText d b before ++ Bytes.dot :: init).length + 1 = nameStart b before + Rune.sizes old := by
        simp only [hlast, List.concat_eq_append, List.length_append, List.length_cons, List.length_nil] at hold ⊢
        omega
      rw [← hlen]
      refine Document.offsetNear_of_byte (b := last) ?_ ?_ (hlen ▸ h.stop_isBoundary hb)
      · rw [htext, hlast]
        simp
      · rintro rfl
        exact h.return_notMem (by simp [hlast])
  have htake : d.text.take (nameStart b before) = frontText d b before ++ [Bytes.dot] := by
    rw [htext, List.append_cons, ← hfront]
    exact List.take_left' (by simp)
  have hdrop : d.text.drop (nameStart b before + Rune.sizes old) = backText d b after := by
    rw [htext, List.append_cons, ← List.append_assoc, ← hfront, ← hold]
    exact List.drop_left' (by simp; omega)
  simp only [TextEdit.apply, Document.range, Document.ofText, hstart, hstop, htake, hdrop]
  simp

end Parse

namespace Block

/-- What is told of a block: its kind, its number, its name, and whether it has a terminator. -/
def summary (b : Block) : BlockKind × Int × Bytes × Bool := (b.kind, b.id, b.name, b.terminated)

def Header.id (h : Header) : Int := match h.number with
  | some n => n
  | none => -1

theorem summary_eq (b : Block) : b.summary = (b.header.kind, b.header.id, b.header.name, b.terminated) :=
  rfl

def Content.summary (c : Content) : BlockKind × Int × Bytes × Bool :=
  (c.header.kind, c.header.id, c.header.name, c.terminated)

theorem map_summary_eq (d : Document) (bs : List Block) :
    bs.map Block.summary = (bs.map (content d)).map Content.summary := by
  rw [List.map_map]
  rfl

theorem getElem?_scan {d : Document} {b : Block} {pre post : List Block} {k : Nat}
    (hk : (scan d)[k]? = some b) (h : scan d = pre ++ b :: post) : k = pre.length := by
  have hlen := (List.getElem?_eq_some_iff.mp hk).1
  refine (List.getElem?_inj hlen (scan_nodup d)).mp ?_
  rw [hk, h]
  simp

end Block

namespace QuickFix

/-- The edit for a finding with a hint puts the suggested name in its range. -/
theorem quickFixes_hint {srv : Server} {uri : String} {d : Document} {diag : Diagnostic}
    {space name best : String} (hd : srv.buffers.doc? uri = some d)
    (hcode : diag.code = Check.unknownFunction.name)
    (hmessage : diag.message = utf8 ("unknown function " ++ (space ++ "." ++ name)))
    (hnotes : diag.notes = ["did you mean " ++ space ++ "." ++ best ++ "?"])
    (hs : IsWordText space) (hn : IsWordText name) (hb : IsWordText best) :
    srv.quickFixes uri [] [diag.given]
      = [⟨utf8 ("Change to " ++ space ++ "." ++ best), d.uri, diag.given, diag.range, utf8 best⟩] := by
  have hshown : diag.shownMessage = utf8 ("unknown function " ++ (space ++ "." ++ name) ++ ("\n" ++
      ("did you mean " ++ space ++ "." ++ best ++ "?"))) := by
    rw [Diagnostic.shownMessage, hmessage, hnotes, List.flatMap_singleton, ← utf8_append]
  have hfound : suggestion? diag.given.message.toText.toList = some (space, best) := by
    rw [Diagnostic.given, hshown, Bytes.toText_utf8, suggestion?_message hs hn hb]
  have hfix : ofFinding? d diag.given
      = some ⟨utf8 ("Change to " ++ space ++ "." ++ best), d.uri, diag.given, diag.range, utf8 best⟩ := by
    have hsource : ¬ (diag.given.source != some findingSource) = true := by simp [Diagnostic.given]
    have hgiven : (diag.given.code == some Check.unknownFunction.name) = true := by simp [Diagnostic.given, hcode]
    rw [ofFinding?, if_neg hsource, if_pos hgiven, renaming?, hfound]
    rfl
  rw [quickFixes_eq hd, List.filterMap_cons, hfix, List.filterMap_nil]

/-- A call that is reported with a hint has one edit. After it the blocks are the same, and the calls of
the block are the same but for the one, which has the name in the hint. That is a function of the
namespace, so one finding less is left. -/
theorem renames_call [Similar.Matcher] (hfinds : Similar.FindsCandidates) {srv : Server} {uri : String}
    {d : Document} {ws : Workspace} {k i : Nat} {b : Block} {c : Call} {diag : Diagnostic}
    (hd : srv.buffers.doc? uri = some d)
    (hnames : ∀ catalog ∈ ws.catalog, ∀ s ∈ catalog.spaces, ∀ f ∈ s.functions,
      Lexer.IsIdentifier f.name.toList [])
    (hb : (Block.scan d)[k]? = some b) (hc : (Parse.ofDocument ws d b).calls[i]? = some c)
    (hdiag : diag ∈ (Parse.ofDocument ws d b).diagnostics)
    (hcode : diag.code = Check.unknownFunction.name) (hrange : diag.range = c.nameRange)
    (hhint : diag.notes ≠ []) :
    ∃ fix best t, diag.notes = ["did you mean " ++ c.space.toText ++ "." ++ best ++ "?"] ∧
      srv.quickFixes uri [] [diag.given] = [fix] ∧
      (Block.scan (fix.edit.apply d)).map Block.summary = (Block.scan d).map Block.summary ∧
      (Block.scan (fix.edit.apply d))[k]? = some t ∧
      (Parse.ofDocument ws (fix.edit.apply d) t).calls.map Parse.outline
        = ((Parse.ofDocument ws d b).calls.map Parse.outline).modify i (·.withName (utf8 best)) ∧
      (ws.function? c.space.toText best).isSome = true ∧
      ((Parse.ofDocument ws (fix.edit.apply d) t).diagnostics.filter
          (·.code == Check.unknownFunction.name)).length + 1
        = ((Parse.ofDocument ws d b).diagnostics.filter (·.code == Check.unknownFunction.name)).length := by
  have hbm := List.mem_of_getElem? hb
  have hcm : c ∈ (Parse.structureOf d b).calls := List.mem_of_getElem? hc
  have hreported := Parse.unknownFunctionAt_of_range hbm hcm hdiag hcode hrange
  obtain ⟨best, hmessage, hnotes, hfunction, catalog, hcatalog, s, hs, f, hf, rfl⟩ :=
    Check.unknownFunctionAt_hint hfinds hreported hhint
  have hident := hnames catalog hcatalog s hs f hf
  obtain ⟨⟨_, hspace⟩, ⟨_, hname⟩⟩ := Parse.isIdentifier_call hcm
  have hfix := quickFixes_hint hd hcode hmessage hnotes (.of_identifier hspace) (.of_identifier hname)
    (.of_identifier hident)
  obtain ⟨before, old, after, hcalled, -, hplace⟩ := Parse.exists_called hbm hcm
  rw [hrange, hplace] at hfix
  have htext := hcalled.apply_text hbm (utf8 f.name)
  generalize he : TextEdit.apply (⟨_, utf8 f.name⟩ : TextEdit) d = e at htext
  obtain ⟨pre, post, pre', t, post', hscan, hscan', hpre, hpost, hheader, hterm, htokens⟩ :=
    hcalled.exists_replaced hbm hident htext
  have hcalls := hcalled.calls_replaced hbm hident htext htokens
  have hstart : c.nameRange.start = d.positionAt (hcalled.replacing hident).start := by
    rw [hplace]
    rfl
  rw [Parse.map_outline_eq_modify (Parse.calls_starts_nodup hbm) hc hstart] at hcalls
  have hlength : pre'.length = pre.length := by simpa using congrArg List.length hpre
  have hsummary : t.summary = b.summary := by
    simp only [Block.summary_eq, hheader, hterm]
  have hsummaries : (Block.scan e).map Block.summary = (Block.scan d).map Block.summary := by
    rw [hscan, hscan', List.map_append, List.map_append, List.map_cons, List.map_cons, hsummary,
      Block.map_summary_eq e pre', Block.map_summary_eq d pre, Block.map_summary_eq e post',
      Block.map_summary_eq d post, hpre, hpost]
  have hplaced : (Block.scan e)[k]? = some t := by
    rw [hscan', Block.getElem?_scan hb hscan, ← hlength]
    simp
  have hcount := Parse.unknownFunction_count_renamed hc (by simp [hreported]) hfunction hcalls
  subst he
  exact ⟨_, f.name, t, hnotes, hfix, hsummaries, hplaced, hcalls, hfunction, hcount⟩

def misspelt : Document := .ofText "file:///a.cpp" (utf8 "SCRIPT:1,A\nP.Prnt(1)\nENDSCRIPT\n")

def misspeltBlock : Block := .close misspelt ⟨0, .script, utf8 "1,A"⟩ 21 30 true

def misspeltCall : Call := ⟨utf8 "P", utf8 "Prnt", ⟨⟨1, 2⟩, ⟨1, 6⟩⟩, 17, some 19, 1, []⟩

def misspeltFinding : Diagnostic :=
  Check.finding .unknownFunction misspeltBlock misspeltCall.nameRange (utf8 "unknown function P.Prnt")
    ["did you mean P.Print?"]

def misspeltServer : Server := { buffers := { entries := [⟨misspelt, 1⟩] } }

def printOnly : Workspace :=
  ⟨[], some ⟨some [{ name := "P", closed := true, listed := some [{ name := "Print" }] }], .last⟩⟩

theorem misspelt_scan : Block.scan misspelt = [misspeltBlock] := by decide +kernel

theorem misspelt_calls : (Parse.structureOf misspelt misspeltBlock).calls = [misspeltCall] := by
  decide +kernel

theorem misspelt_reported :
    Check.unknownFunctionAt printOnly misspeltBlock misspeltCall = some misspeltFinding := by
  decide +kernel

theorem renames_call_misspelt :
    ∃ fix best t, misspeltFinding.notes = ["did you mean P." ++ best ++ "?"] ∧
      misspeltServer.quickFixes "file:///a.cpp" [] [misspeltFinding.given] = [fix] ∧
      (Block.scan (fix.edit.apply misspelt)).map Block.summary = (Block.scan misspelt).map Block.summary ∧
      (Block.scan (fix.edit.apply misspelt))[0]? = some t ∧
      (Parse.ofDocument printOnly (fix.edit.apply misspelt) t).calls.map Parse.outline
        = [(Parse.outline misspeltCall).withName (utf8 best)] ∧
      (printOnly.function? "P" best).isSome = true ∧
      (Parse.ofDocument printOnly (fix.edit.apply misspelt) t).diagnostics.filter
        (·.code == Check.unknownFunction.name) = [] := by
  have hd : misspeltServer.buffers.doc? "file:///a.cpp" = some misspelt := by rfl
  have hnames : ∀ catalog ∈ printOnly.catalog, ∀ s ∈ catalog.spaces, ∀ f ∈ s.functions,
      Lexer.IsIdentifier f.name.toList [] := by
    rintro _ ⟨⟩ s hs f hf
    obtain rfl := List.mem_singleton.mp hs
    obtain rfl := List.mem_singleton.mp hf
    have hbody : ['r', 'i', 'n', 't'].all isWord = true := by decide
    exact ⟨⟨'P', _, by decide, by decide, List.all_eq_true.mp hbody⟩, by rintro _ ⟨⟩⟩
  have hb : (Block.scan misspelt)[0]? = some misspeltBlock := by rw [misspelt_scan]; rfl
  have hcalls : (Parse.ofDocument printOnly misspelt misspeltBlock).calls = [misspeltCall] := misspelt_calls
  have hc : (Parse.ofDocument printOnly misspelt misspeltBlock).calls[0]? = some misspeltCall := by rw [hcalls]; rfl
  have hm : misspeltCall ∈ (Parse.structureOf misspelt misspeltBlock).calls := by simp [misspelt_calls]
  obtain ⟨hdiag, hcode⟩ := (Parse.mem_unknownFunction_iff printOnly misspeltFinding).mpr
    ⟨misspeltCall, hm, misspelt_reported⟩
  obtain ⟨fix, best, t, hnotes, hfix, hblocks, ht, hrenamed, hbest, hcount⟩ :=
    renames_call Similar.findsCandidates hd hnames hb hc hdiag hcode rfl (by decide)
  refine ⟨fix, best, t, hnotes, hfix, hblocks, ht, ?_, hbest, ?_⟩
  · rw [hrenamed, hcalls]
    rfl
  · rw [Parse.unknownFunction_findings printOnly misspelt, misspelt_calls, List.filterMap_cons_some misspelt_reported]
      at hcount
    exact List.length_eq_zero_iff.mp (by simpa [Diagnostic.sort] using hcount)

end QuickFix

end HostScript
