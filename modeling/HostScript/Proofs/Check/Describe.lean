import HostScript.Proofs.Check.Sites
import HostScript.Proofs.Text.Digits
import HostScript.Proofs.Text.Run

/-!
The line of a finding tells where it is and which check made it. The path ends at the first colon, the
line and the character are numbers between colons, and the code stands behind the last parenthesis.
-/

set_option autoImplicit false

namespace HostScript

theorem toNat_of_mem_utf8EncodeChar {c : Char} {b : UInt8} (hb : b.toNat < 128)
    (h : b ∈ String.utf8EncodeChar c) : c.toNat = b.toNat := by
  have hhigh {k : Nat} (hk : 128 ≤ k) (hlt : k < 256) : b ≠ UInt8.ofNat k := by
    rintro rfl
    rw [UInt8.toNat_ofNat', Nat.mod_eq_of_lt hlt] at hb
    omega
  unfold String.utf8EncodeChar at h
  simp only at h
  split at h
  · rename_i hc
    rw [List.mem_singleton.mp h, UInt8.toNat_ofNat', Nat.mod_eq_of_lt (by omega)]
    rfl
  · exfalso
    split at h
    · simp only [List.mem_cons, List.not_mem_nil, or_false] at h
      rcases h with h | h <;> exact hhigh (by omega) (by omega) h
    · split at h <;> simp only [List.mem_cons, List.not_mem_nil, or_false] at h
      · rcases h with h | h | h <;> exact hhigh (by omega) (by omega) h
      · rcases h with h | h | h | h <;> exact hhigh (by omega) (by omega) h

theorem colon_notMem_utf8 {s : String} (h : ':' ∉ s.toList) : (58 : UInt8) ∉ utf8 s := by
  rw [← String.ofList_toList (s := s), utf8_ofList]
  intro hmem
  obtain ⟨c, hc, hb⟩ := List.mem_flatMap.mp hmem
  have hcolon : c = ':' := Char.toNat_inj.mp (toNat_of_mem_utf8EncodeChar (by decide) hb)
  exact h (hcolon ▸ hc)

theorem nextWhole_nat {n : Nat} (h : n < Bytes.numberLimit) : nextWhole n = (n + 1 : Nat) := by
  unfold Bytes.numberLimit at h
  unfold nextWhole
  rw [Int.bmod_eq_of_le] <;> omega

theorem Document.positionAt_le (d : Document) (o : Nat) :
    ∃ line character : Nat, d.positionAt o = ⟨line, character⟩ ∧ line ≤ o ∧ character ≤ o := by
  have hclamp : d.clamp o ≤ o := by simp only [clamp, Int.toNat_natCast]; omega
  refine ⟨_, _, rfl, ?_, ?_⟩
  · rw [lineAt_eq_count]
    have hcount := (d.text.take (d.clamp o)).count_le_length (a := Bytes.newline)
    rw [List.length_take] at hcount
    omega
  · refine (Bytes.units_le_length _).trans ?_
    rw [Bytes.slice, List.length_take]
    omega

theorem utf8_toString_inj {m n : Nat} (h : utf8 (toString m) = utf8 (toString n)) : m = n := by
  rw [← Bytes.digitsValue_utf8_toString m, h, Bytes.digitsValue_utf8_toString]

namespace Diagnostic

/-- A finding whose line can be taken apart. -/
structure Legible (d : Diagnostic) : Prop where
  path : ':' ∉ (pathOfUri d.uri).toList
  start : ∃ line character : Nat, d.range.start = ⟨line, character⟩ ∧ line < Bytes.numberLimit ∧
    character < Bytes.numberLimit
  code : d.code ∈ Parse.findingCodes

theorem findingCodes_plain : ∀ code ∈ Parse.findingCodes, code.isEmpty = false ∧ (40 : UInt8) ∉ utf8 code := by
  decide +kernel

theorem describe_eq {d : Diagnostic} (hcode : d.code.isEmpty = false) {line character : Nat}
    (hstart : d.range.start = ⟨line, character⟩) (hline : line < Bytes.numberLimit)
    (hcharacter : character < Bytes.numberLimit) :
    ∃ rest, d.describe = utf8 (pathOfUri d.uri) ++ 58 :: (utf8 (toString (line + 1))
      ++ 58 :: (utf8 (toString (character + 1)) ++ 58 :: (rest ++ 40 :: (utf8 d.code ++ [41])))) := by
  have hcolon : utf8 ":" = [58] := by decide
  have hbefore : utf8 ": " = 58 :: [32] := by decide
  have hopen : utf8 " (" = 32 :: [40] := by decide
  have hclose : utf8 ")" = [41] := by decide
  have hplace : d.range.start.describe = toString (line + 1) ++ ":" ++ toString (character + 1) := by
    rw [hstart, Position.describe, nextWhole_nat hline, nextWhole_nat hcharacter]
    rfl
  refine ⟨32 :: (utf8 (Severity.nameOf d.severity) ++ utf8 ": " ++ d.message ++ [32]), ?_⟩
  rw [describe, hplace, hcode]
  simp only [utf8_append, hcolon, hbefore, hopen, hclose, Bool.false_eq_true, if_false, List.append_assoc,
    List.cons_append, List.nil_append]

theorem digits_notMem_colon (n : Nat) : (58 : UInt8) ∉ utf8 (toString n) := by
  intro hmem
  have hdigit := (toNat_of_mem_utf8_toString hmem).2
  exact absurd hdigit (by decide)

theorem Legible.describe_inj {x y : Diagnostic} (hx : x.Legible) (hy : y.Legible)
    (h : x.describe = y.describe) :
    pathOfUri x.uri = pathOfUri y.uri ∧ x.range.start = y.range.start ∧ x.code = y.code := by
  obtain ⟨line, character, hstart, hline, hcharacter⟩ := hx.start
  obtain ⟨line', character', hstart', hline', hcharacter'⟩ := hy.start
  obtain ⟨hempty, hcode⟩ := findingCodes_plain x.code hx.code
  obtain ⟨hempty', hcode'⟩ := findingCodes_plain y.code hy.code
  obtain ⟨rest, hd⟩ := describe_eq hempty hstart hline hcharacter
  obtain ⟨rest', hd'⟩ := describe_eq hempty' hstart' hline' hcharacter'
  rw [hd, hd'] at h
  obtain ⟨hpath, h⟩ := Bytes.split_at_first (colon_notMem_utf8 hx.path) (colon_notMem_utf8 hy.path) h
  obtain ⟨hl, h⟩ := Bytes.split_at_first (digits_notMem_colon _) (digits_notMem_colon _) h
  obtain ⟨hc, h⟩ := Bytes.split_at_first (digits_notMem_colon _) (digits_notMem_colon _) h
  -- A message may hold any separator, so the code is found from the end.
  have htail := Bytes.split_at_last (by simpa using hcode) (by simpa using hcode') h
  refine ⟨utf8_inj hpath, ?_, utf8_inj (List.append_cancel_right htail)⟩
  have hl := utf8_toString_inj hl
  have hc := utf8_toString_inj hc
  rw [hstart, hstart', Position.mk.injEq]
  omega

end Diagnostic

theorem Parse.strictly_legible [Similar.Matcher] {ws : Workspace} {ix : Index} {origin : Origin}
    {doc : Document} {block : Block} (hb : block ∈ Block.scan doc) (hpath : ':' ∉ (pathOfUri doc.uri).toList)
    (hlength : doc.length ≤ Bytes.numberLimit) {d : Diagnostic}
    (hd : d ∈ (strictly ws ix origin doc block).diagnostics) : d.Legible := by
  obtain ⟨huri, hplace⟩ := (strictly_sites ws ix origin hb).2 d hd
  obtain ⟨o, _, hstop, _, hstart⟩ := Block.places_hold hb _ hplace
  obtain ⟨line, character, hat, hline, hcharacter⟩ := doc.positionAt_le o
  obtain ⟨_, hbegins⟩ := Block.exists_beginsAt hb
  have hend := hbegins.liesAt.stop_le_length
  exact {
    path := huri ▸ hpath
    start := ⟨line, character, hstart.trans hat, by omega, by omega⟩
    code := strictly_code_mem hd }

/-- A readable workspace whose findings have lines that can be taken apart: paths tell documents
apart and have no colon, and numbers of 64 bits count the bytes of a document. -/
structure Workspace.LegibleFrom (ws : Workspace) (source : Supply) : Prop extends
    ws.ReadableFrom source where
  path : ∀ uri ∈ ws.uris, ':' ∉ (pathOfUri uri).toList
  apart : ∀ a ∈ ws.uris, ∀ b ∈ ws.uris, pathOfUri a = pathOfUri b → a = b
  length : ∀ doc : Document, source doc.uri = .ok (.ofDocument doc) → doc.length ≤ Bytes.numberLimit

/-- Findings of a legible workspace that have one line are one finding. -/
theorem Parse.eq_of_describe_eq [Similar.Matcher] {ws : Workspace} {source : Supply}
    (h : ws.LegibleFrom source) {a b : Block}
    (ha : a ∈ (ws.indexFrom source).blocks) (hb : b ∈ (ws.indexFrom source).blocks) {x y : Diagnostic}
    (hx : x ∈ findingsFrom ws source a) (hy : y ∈ findingsFrom ws source b)
    (hline : x.describe = y.describe) : x = y := by
  have hone {block : Block} (hb : block ∈ (ws.indexFrom source).blocks) {d : Diagnostic}
      (hd : d ∈ findingsFrom ws source block) : d.uri ∈ ws.uris ∧ d.Legible := by
    obtain ⟨doc, huri, hsource, hscan, hfound⟩ := exists_document h.toReadableFrom hb
    rw [hfound] at hd
    have hd' := ((strictly_sites ws _ _ hscan).2 d hd).1
    exact ⟨hd' ▸ huri, strictly_legible hscan (h.path _ huri) (h.length doc hsource) hd⟩
  obtain ⟨hxu, hxl⟩ := hone ha hx
  obtain ⟨hyu, hyl⟩ := hone hb hy
  obtain ⟨hpath, hstart, hcode⟩ := hxl.describe_inj hyl hline
  exact findingsFrom_eq_of_site h.toReadableFrom ha hb hx hy (h.apart _ hxu _ hyu hpath) hstart hcode

end HostScript
