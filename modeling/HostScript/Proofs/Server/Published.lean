import HostScript.Proofs.Server.Termination
import HostScript.Proofs.Text.Encoding
import HostScript.Server.Request

set_option autoImplicit false

namespace HostScript

namespace Field

/-- What an object says about a field depends on which of its keys name the field. -/
theorem field_zip (keys : List String) (named : List Bool) (values : List Json) {key : String}
    (h : keys.map (names · key) = named) :
    field (.object (keys.zip values)) key = ((named.zip values).filter (·.1)).map (·.2) := by
  subst h
  induction keys generalizing values with
  | nil => rfl
  | cons k keys ih =>
    cases values with
    | nil => rfl
    | cons v values =>
      have hrest := ih values
      simp only [field] at hrest ⊢
      simp only [List.zip_cons_cons, List.map_cons, List.filter_cons]
      split <;> simp [hrest]

theorem name_str (s : String) : name [.str s] = some s := by
  have htext : text [.str s] = some (utf8 s) := rfl
  rw [name, htext, Option.map_some, Bytes.toText_utf8]

theorem whole_int {low high n : Int} (h : low ≤ n ∧ n ≤ high) : whole low high [.int n] = some n := by
  simp [whole, last, Json.int, h]

variable {read : FieldReader Int}

theorem position_toJson {p : Position} (hline : read [.int p.line] = some p.line)
    (hcharacter : read [.int p.character] = some p.character) : position read [p.toJson] = some p := by
  have hl : field p.toJson "line" = [.int p.line] :=
    field_zip ["line", "character"] [true, false] [_, .int p.character] (by decide +kernel)
  have hc : field p.toJson "character" = [.int p.character] :=
    field_zip ["line", "character"] [false, true] [.int p.line, _] (by decide +kernel)
  have hobject : object [p.toJson] = some p.toJson := rfl
  simp only [position, hobject, Option.bind_eq_bind, Option.bind_some, hl, hc, hline, hcharacter]
  rfl

theorem range_toJson {r : Range} (hr : ∀ n ∈ [r.start.line, r.start.character, r.stop.line, r.stop.character],
    read [.int n] = some n) : range read [r.toJson] = some r := by
  have hstart : field r.toJson "start" = [r.start.toJson] :=
    field_zip ["start", "end"] [true, false] [_, r.stop.toJson] (by decide +kernel)
  have hstop : field r.toJson "end" = [r.stop.toJson] :=
    field_zip ["start", "end"] [false, true] [r.start.toJson, _] (by decide +kernel)
  have hobject : object [r.toJson] = some r.toJson := rfl
  simp only [range, hobject, Option.bind_eq_bind, Option.bind_some, hstart, hstop,
    position_toJson (hr r.start.line (by simp)) (hr r.start.character (by simp)),
    position_toJson (hr r.stop.line (by simp)) (hr r.stop.character (by simp))]
  rfl

end Field

namespace Diagnostic

def editorKeys : List String := ["range", "severity", "code", "source", "message"]

theorem field_toEditor {d : Diagnostic} (hcode : d.code ≠ "") (named : List Bool) {key : String}
    (h : editorKeys.map (Field.names · key) = named) : Field.field d.toEditor key =
      ((named.zip [d.range.toJson, .nat d.shownSeverity.level, .str d.code, .str findingSource,
        .string d.shownMessage]).filter (·.1)).map (·.2) := by
  rw [← Field.field_zip editorKeys named _ h]
  simp [toEditor, Json.textField, hcode, editorKeys]

/-- A published finding is read back as it was given, if the numbers of its range have 32 bits. -/
theorem finding_toEditor {d : Diagnostic} (hcode : d.code ≠ "")
    (hr : ∀ n ∈ [d.range.start.line, d.range.start.character, d.range.stop.line, d.range.stop.character],
      0 ≤ n ∧ n ≤ 4294967295) : Request.finding [d.toEditor] = some d.given := by
  have hobject : Field.object [d.toEditor] = some d.toEditor := rfl
  have hrange : Field.field d.toEditor "range" = [d.range.toJson] :=
    field_toEditor hcode [true, false, false, false, false] (by decide +kernel)
  have hseverity : Field.field d.toEditor "severity" = [.nat d.shownSeverity.level] :=
    field_toEditor hcode [false, true, false, false, false] (by decide +kernel)
  have hcodes : Field.field d.toEditor "code" = [.str d.code] :=
    field_toEditor hcode [false, false, true, false, false] (by decide +kernel)
  have hsource : Field.field d.toEditor "source" = [.str findingSource] :=
    field_toEditor hcode [false, false, false, true, false] (by decide +kernel)
  have hmessage : Field.field d.toEditor "message" = [.string d.shownMessage] :=
    field_toEditor hcode [false, false, false, false, true] (by decide +kernel)
  have hnone (key : String) (h : editorKeys.map (Field.names · key) = [false, false, false, false, false]) :
      Field.field d.toEditor key = [] := field_toEditor hcode _ h
  have hread : Params.range [d.range.toJson] = some d.range :=
    Field.range_toJson fun n hn => Field.whole_int (hr n hn)
  have hlevel : Field.optional Field.int32 [.nat d.shownSeverity.level]
      = some (some (d.shownSeverity.level : Int)) := by
    cases d.shownSeverity <;> rfl
  have hname : Request.code [.str d.code] = some (some d.code) := by
    have htext : Request.code [.str d.code] = some (some (Bytes.toText (utf8 d.code))) := rfl
    rw [htext, Bytes.toText_utf8]
  have hfrom : Field.optional Field.name [.str findingSource] = some (some findingSource) := by
    rw [Field.optional, Field.name_str]
    rfl
  unfold Request.finding
  simp only [hobject, Option.bind_eq_bind, Option.bind_some, hrange, hread, hseverity, hlevel, hcodes, hname,
    hsource, hfrom, hmessage, hnone "codeDescription" (by decide +kernel), hnone "tags" (by decide +kernel),
    hnone "relatedInformation" (by decide +kernel), hnone "data" (by decide +kernel)]
  rfl

end Diagnostic

end HostScript
