import HostScript.Proofs.Document.Joined
import HostScript.Proofs.Text.CodeUnits
import HostScript.Server.Signature

/-!
The parts of a signature that stand for its parameters. Their offsets count bytes, so a client that counts
code units finds a parameter where the signature has only ASCII characters up to its end.
-/

set_option autoImplicit false

namespace HostScript

namespace SignatureParam

/-- What a client that counts code units finds at the offsets is `part`. -/
def Selects (p : SignatureParam) (label part : String) : Prop :=
  p.stop ≤ (utf16 label).length ∧ ((utf16 label).take p.stop).drop p.start = utf16 part

instance (p : SignatureParam) (label part : String) : Decidable (p.Selects label part) :=
  inferInstanceAs (Decidable (_ ∧ _))

/-- The offsets count the bytes of a label in front of `part` and up to its end. -/
structure Placed (p : SignatureParam) (label front part : String) : Prop where
  in_label : ∃ rest, label = front ++ part ++ rest
  start_eq : p.start = front.utf8ByteSize
  stop_eq : p.stop = (front ++ part).utf8ByteSize

/-- A parameter shown as `part` behind `front`, with offsets that count code units as positions do. -/
def inUnits (front part doc : String) : SignatureParam :=
  ⟨(utf8 front).units, (utf8 (front ++ part)).units, doc⟩

theorem inUnits_eq (front part doc : String) :
    inUnits front part doc = ⟨(utf16 front).length, (utf16 (front ++ part)).length, doc⟩ := by
  rw [inUnits, units_utf8, units_utf8]

theorem selects_inUnits (front part rest doc : String) :
    (inUnits front part doc).Selects (front ++ part ++ rest) part := by
  rw [inUnits_eq]
  refine ⟨?_, ?_⟩
  · rw [utf16_append (front ++ part), List.length_append]
    exact Nat.le_add_right _ _
  · rw [utf16_append (front ++ part), List.take_left, utf16_append, List.drop_left]

namespace Placed

variable {p : SignatureParam} {label front part : String}

theorem slice (h : p.Placed label front part) : (utf8 label).slice p.start p.stop = utf8 part := by
  obtain ⟨rest, rfl⟩ := h.in_label
  rw [h.start_eq, h.stop_eq, ← length_utf8, ← length_utf8, utf8_append, utf8_append, List.length_append,
    List.append_assoc]
  exact Bytes.slice_append_middle _ _ _

/-- Bytes and code units agree about the part if there are only ASCII characters up to its end. -/
theorem eq_inUnits_iff (h : p.Placed label front part) :
    p = inUnits front part p.doc ↔ IsAscii (front ++ part) := by
  have hfields : p = inUnits front part p.doc ↔
      p.start = (utf16 front).length ∧ p.stop = (utf16 (front ++ part)).length := by
    rw [inUnits_eq]
    cases p
    simp
  rw [hfields, h.start_eq, h.stop_eq, ← length_utf16_eq_iff]
  refine ⟨fun hunits => hunits.2.symm, fun hstop => ⟨?_, hstop.symm⟩⟩
  have hascii := (length_utf16_eq_iff _).mp hstop
  exact ((length_utf16_eq_iff front).mpr (isAscii_append.mp hascii).1).symm

/-- As many code units as the part has bytes are not the part, unless it is ASCII. -/
theorem isAscii_of_selects (h : p.Placed label front part) (hs : p.Selects label part) : IsAscii part := by
  have hlen := congrArg List.length hs.2
  rw [List.length_drop, List.length_take, Nat.min_eq_left hs.1, h.start_eq, h.stop_eq,
    String.utf8ByteSize_append] at hlen
  exact (length_utf16_eq_iff part).mp (by omega)

end Placed

end SignatureParam

namespace ParserFunction

def upTo (f : ParserFunction) (space : String) (i : Nat) : String :=
  f.head space ++ String.join ((f.paramLabels.take i).map (· ++ ", "))

end ParserFunction

namespace SignatureHelp

theorem length_place (offset : Nat) (labels docs : List String) :
    (place offset labels docs).length = labels.length := by
  induction labels generalizing offset docs with
  | nil => rfl
  | cons label labels ih => simp [place, ih]

/-- Every label stands behind the labels before it, each with its comma. -/
theorem getElem?_place {labels : List String} {i : Nat} {part : String} (h : labels[i]? = some part)
    (offset : Nat) (docs : List String) : ∃ doc, (place offset labels docs)[i]? = some
      ⟨offset + (String.join ((labels.take i).map (· ++ ", "))).utf8ByteSize,
        offset + (String.join ((labels.take i).map (· ++ ", "))).utf8ByteSize + part.utf8ByteSize, doc⟩ := by
  induction labels generalizing offset docs i with
  | nil => cases h
  | cons label labels ih =>
    cases i with
    | zero =>
      obtain rfl : label = part := by simpa using h
      exact ⟨docs.headD "", by simp [place]⟩
    | succ i =>
      have htail : labels[i]? = some part := by simpa using h
      obtain ⟨doc, hdoc⟩ := ih htail (offset + label.utf8ByteSize + ", ".utf8ByteSize) docs.tail
      refine ⟨doc, ?_⟩
      rw [place, List.getElem?_cons_succ, hdoc]
      simp only [List.take_succ_cons, List.map_cons, String.join_cons, String.utf8ByteSize_append,
        Nat.add_assoc]

theorem intercalate_split (sep : String) {part : String} {labels : List String} {i : Nat}
    (h : labels[i]? = some part) : ∃ rest, String.intercalate sep labels
      = String.join ((labels.take i).map (· ++ sep)) ++ part ++ rest := by
  induction labels generalizing i with
  | nil => cases h
  | cons label labels ih =>
    cases i with
    | zero =>
      obtain rfl : label = part := by simpa using h
      cases labels with
      | nil => exact ⟨"", by simp⟩
      | cons next labels => exact ⟨sep ++ String.intercalate sep (next :: labels), by simp [String.append_assoc]⟩
    | succ i =>
      have hne : labels ≠ [] := by
        rintro rfl
        cases h
      obtain ⟨rest, hrest⟩ := ih (by simpa using h)
      refine ⟨rest, ?_⟩
      rw [String.intercalate_cons_of_ne_nil hne, hrest]
      simp [String.append_assoc]

section Function

variable {space : String} (f : ParserFunction) (arg : Nat)

theorem label_ofFunction (hspace : space.isEmpty = false) :
    (ofFunction space f arg).label = f.signature space := by
  simp [ofFunction, ParserFunction.signature, ParserFunction.head, hspace]

theorem placed_ofFunction (hspace : space.isEmpty = false) {i : Nat} {part : String}
    (h : f.paramLabels[i]? = some part) : ∃ p, (ofFunction space f arg).params[i]? = some p ∧
      p.Placed (f.signature space) (f.upTo space i) part := by
  have hhead : f.head space = space ++ "." ++ f.name ++ "(" := by simp [ParserFunction.head, hspace]
  obtain ⟨doc, hdoc⟩ := getElem?_place h (f.head space).utf8ByteSize (f.params.map (·.doc))
  refine ⟨_, by rw [ofFunction, ← hhead]; exact hdoc, ?_, ?_, ?_⟩
  · obtain ⟨rest, hrest⟩ := intercalate_split ", " h
    refine ⟨rest ++ ")" ++ if f.returns.isEmpty then "" else " " ++ f.returns, ?_⟩
    rw [ParserFunction.signature, hrest, ParserFunction.upTo]
    simp only [String.append_assoc]
  · simp [ParserFunction.upTo]
  · simp [ParserFunction.upTo]

theorem length_params : (ofFunction space f arg).params.length = f.paramLabels.length := length_place _ _ _

theorem active_valid_iff : ((ofFunction space f arg).active < (ofFunction space f arg).params.length ∨
    (ofFunction space f arg).params = [] ∧ (ofFunction space f arg).active = 0) ↔
      f.paramLabels ≠ [] ∨ arg = 0 := by
  rw [← List.length_eq_zero_iff, length_params, ne_eq, ← List.length_eq_zero_iff]
  simp only [ofFunction, List.isEmpty_iff_length_eq_zero]
  split <;> omega

end Function

/-- A signature's parameters are parts of its label that are counted in bytes. In code units they are those
parts if only ASCII characters stand up to their ends. -/
theorem ofFunction_parameters (space : String) (f : ParserFunction) (arg : Nat)
    (hspace : space.isEmpty = false) :
    (ofFunction space f arg).label = f.signature space ∧
    (ofFunction space f arg).params.length = f.paramLabels.length ∧
    (∀ i part, f.paramLabels[i]? = some part → ∃ p, (ofFunction space f arg).params[i]? = some p ∧
      (utf8 (f.signature space)).slice p.start p.stop = utf8 part ∧
      (SignatureParam.inUnits (f.upTo space i) part p.doc).Selects (f.signature space) part ∧
      (p = .inUnits (f.upTo space i) part p.doc ↔ IsAscii (f.upTo space i ++ part)) ∧
      (p.Selects (f.signature space) part → IsAscii part)) ∧
    (ofFunction space f arg).active
      = (if f.paramLabels = [] then arg else min arg (f.paramLabels.length - 1)) ∧
    (((ofFunction space f arg).active < (ofFunction space f arg).params.length ∨
      (ofFunction space f arg).params = [] ∧ (ofFunction space f arg).active = 0) ↔
        f.paramLabels ≠ [] ∨ arg = 0) := by
  refine ⟨label_ofFunction f arg hspace, length_params f arg, fun i part h => ?_, ?_, active_valid_iff f arg⟩
  · obtain ⟨p, hp, hplaced⟩ := placed_ofFunction f arg hspace h
    obtain ⟨rest, hrest⟩ := hplaced.in_label
    refine ⟨p, hp, hplaced.slice, ?_, hplaced.eq_inUnits_iff, hplaced.isAscii_of_selects⟩
    rw [hrest]
    exact SignatureParam.selects_inUnits _ _ rest p.doc
  · simp [ofFunction, List.isEmpty_iff]

def umlautSecond : ParserFunction :=
  { name := "A", params := [{ name := "p" }, { name := "Ä", isOptional := true }], variadic := true }

theorem ofFunction_parameters_umlautSecond : "X".isEmpty = false ∧
    (ofFunction "X" umlautSecond 7).label = "X.A(p, [Ä], ...)" ∧ (ofFunction "X" umlautSecond 7).active = 2 ∧
    (∃ p, (ofFunction "X" umlautSecond 7).params[0]? = some p ∧ p.Selects "X.A(p, [Ä], ...)" "p") ∧
    (∃ p, (ofFunction "X" umlautSecond 7).params[1]? = some p ∧ ¬ p.Selects "X.A(p, [Ä], ...)" "[Ä]") := by
  have hspace : "X".isEmpty = false := by decide
  have hsignature : umlautSecond.signature "X" = "X.A(p, [Ä], ...)" := by decide +kernel
  obtain ⟨hlabel, -, hparams, hactive, -⟩ := ofFunction_parameters "X" umlautSecond 7 hspace
  rw [hsignature] at hlabel hparams
  obtain ⟨p, hp, -, hunits, hbytes, -⟩ := hparams 0 "p" rfl
  obtain ⟨q, hq, -, -, -, hascii⟩ := hparams 1 "[Ä]" (by decide +kernel)
  refine ⟨hspace, hlabel, hactive, ⟨p, hp, ?_⟩, q, hq, fun hs => absurd (hascii hs) (by decide +kernel)⟩
  rw [hbytes.mpr (by decide +kernel)]
  exact hunits

def umlautName : ParserFunction := { name := "Ä", params := [{ name := "p" }] }

/-- The name moves the parameter behind its place in the label, and of a function without parameters the second
argument may be the one being written. -/
theorem umlautName_misplaced :
    (ofFunction "X" umlautName 0).params = [⟨5, 6, ""⟩] ∧
    ¬ SignatureParam.Selects ⟨5, 6, ""⟩ (umlautName.signature "X") "p" ∧
    SignatureParam.Selects ⟨4, 5, ""⟩ (umlautName.signature "X") "p" ∧
    (ofFunction "X" { name := "B" } 1).params = [] ∧ (ofFunction "X" { name := "B" } 1).active = 1 :=
  ⟨by decide +kernel, by decide +kernel, by decide +kernel, by decide +kernel, by decide +kernel⟩

end SignatureHelp

end HostScript
