import HostScript.Proofs.Text.Run
import HostScript.Proofs.Text.Split
import HostScript.Text.Wrap

/-!
Removing a common indentation. All lines of text lose the same blanks. They lose all that they have in
common, so that nothing is left to remove, unless a line of other white space is indented less than all of
them.
-/

set_option autoImplicit false

namespace HostScript

namespace Dedent

def untabbed (cs : List Char) : List Char := cs.flatMap fun c => if c = '\t' then [' ', ' ', ' ', ' '] else [c]

def linesOf (s : String) : List (List Char) := splitChars '\n' (untabbed s.toList)

/-- White space and nothing else. -/
def IsGap (line : List Char) : Prop := ∀ c ∈ line, isSpace c = true

def IsBlank (line : List Char) : Prop := ∀ c ∈ line, c = ' '

/-- The blanks that a line begins with. -/
def indentOf (line : List Char) : Nat := (line.takeWhile isBlankChar).length

/-- The lines have no indentation in common: if there is any text, some line of it begins without a blank. -/
def IsFlush (lines : List (List Char)) : Prop :=
  (∃ line ∈ lines, ¬ IsGap line) → ∃ line ∈ lines, ¬ IsGap line ∧ indentOf line = 0

/-- No line of other white space than blanks is indented less than all lines of text. -/
def IsMeasured (lines : List (List Char)) : Prop :=
  (∃ line ∈ lines, ¬ IsGap line) → ∀ gap ∈ lines, IsGap gap → ¬ IsBlank gap →
    ∃ line ∈ lines, ¬ IsGap line ∧ indentOf line ≤ indentOf gap

-- Given by name, because the instance that is found may try all characters there are.
instance (line : List Char) : Decidable (IsGap line) := List.decidableBAll (fun c => isSpace c = true) line

instance (line : List Char) : Decidable (IsBlank line) := List.decidableBAll (fun c => c = ' ') line

instance (lines : List (List Char)) : Decidable (IsFlush lines) := inferInstanceAs (Decidable (_ → _))

instance (lines : List (List Char)) : Decidable (IsMeasured lines) := inferInstanceAs (Decidable (_ → _))

variable {line : List Char} {lines : List (List Char)} {n : Nat}

theorem isBlankChar_iff {c : Char} : isBlankChar c = true ↔ c = ' ' := by simp [isBlankChar]

theorem IsBlank.isGap (h : IsBlank line) : IsGap line := fun c hc => h c hc ▸ rfl

theorem not_isBlank (h : ¬ IsGap line) : ¬ IsBlank line := fun hb => h hb.isGap

theorem IsGap.nil : IsGap [] := fun _ hc => absurd hc List.not_mem_nil

theorem exists_eq_replicate (line : List Char) :
    ∃ body, line = List.replicate (indentOf line) ' ' ++ body ∧ body.head? ≠ some ' ' := by
  obtain ⟨run, body, rfl, hrun⟩ := exists_isRun isBlankChar line
  have hreplicate : run = List.replicate run.length ' ' :=
    List.eq_replicate_iff.mpr ⟨rfl, fun c hc => isBlankChar_iff.mp (hrun.all c hc)⟩
  refine ⟨body, ?_, fun hhead => ?_⟩
  · rw [indentOf, hrun.takeWhile, ← hreplicate]
  · have hends := hrun.ends ' ' hhead
    simp [isBlankChar] at hends

theorem indentOf_replicate {body : List Char} (h : body.head? ≠ some ' ') (n : Nat) :
    indentOf (List.replicate n ' ' ++ body) = n := by
  have hrun : IsRun isBlankChar (List.replicate n ' ') body := by
    refine ⟨fun c hc => isBlankChar_iff.mpr (List.eq_of_mem_replicate hc), fun c hc => ?_⟩
    refine Bool.eq_false_iff.mpr fun hblank => h ?_
    rw [← isBlankChar_iff.mp hblank]
    exact hc
  rw [indentOf, hrun.takeWhile, List.length_replicate]

theorem drop_indent (h : n ≤ indentOf line) :
    line = List.replicate n ' ' ++ line.drop n ∧ indentOf (line.drop n) = indentOf line - n := by
  obtain ⟨body, hline, hbody⟩ := exists_eq_replicate line
  have hdrop : line.drop n = List.replicate (indentOf line - n) ' ' ++ body := by
    rw [hline, List.drop_append_of_le_length (by simpa using h), List.drop_replicate,
      indentOf_replicate hbody]
  refine ⟨?_, by rw [hdrop, indentOf_replicate hbody]⟩
  rw [hdrop, ← List.append_assoc, List.replicate_append_replicate, Nat.add_sub_of_le h]
  exact hline

theorem marginOf_eq (line : List Char) :
    marginOf line = if IsBlank line then none else some (indentOf line) := by
  obtain ⟨run, body, rfl, hrun⟩ := exists_isRun isBlankChar line
  have hblank : IsBlank (run ++ body) ↔ body = [] := by
    constructor
    · intro h
      cases body with
      | nil => rfl
      | cons c body =>
        have hends := hrun.ends c rfl
        rw [isBlankChar_iff.mpr (h c (by simp))] at hends
        cases hends
    · rintro rfl c hc
      exact isBlankChar_iff.mp (hrun.all c (by simpa using hc))
  simp [marginOf, indentOf, hrun.dropWhile, hrun.takeWhile, hblank]

theorem mem_margins {m : Nat} :
    m ∈ lines.filterMap marginOf ↔ ∃ line ∈ lines, ¬ IsBlank line ∧ indentOf line = m := by
  simp only [List.mem_filterMap, marginOf_eq, Option.ite_none_left_eq_some, Option.some.injEq]

theorem commonMargin_le (hline : line ∈ lines) (h : ¬ IsBlank line) : commonMargin lines ≤ indentOf line := by
  have hmem : indentOf line ∈ lines.filterMap marginOf := mem_margins.mpr ⟨line, hline, h, rfl⟩
  unfold commonMargin
  cases hmin : (lines.filterMap marginOf).min? with
  | none => exact Nat.zero_le _
  | some m => exact (List.min?_eq_some_iff.mp hmin).2 _ hmem

theorem exists_commonMargin (hline : line ∈ lines) (h : ¬ IsBlank line) :
    ∃ least ∈ lines, ¬ IsBlank least ∧ indentOf least = commonMargin lines := by
  have hmem : indentOf line ∈ lines.filterMap marginOf := mem_margins.mpr ⟨line, hline, h, rfl⟩
  unfold commonMargin
  cases hmin : (lines.filterMap marginOf).min? with
  | none => simp [List.min?_eq_none_iff.mp hmin] at hmem
  | some m => exact mem_margins.mp (List.min?_eq_some_iff.mp hmin).1

theorem dedentLine_gap (h : IsGap line) : dedentLine n line = [] := if_pos (List.all_eq_true.mpr h)

theorem dedentLine_text (h : ¬ IsGap line) : dedentLine n line = line.drop n :=
  if_neg fun hall => h (List.all_eq_true.mp hall)

theorem not_isGap_drop (h : ¬ IsGap line) (hn : n ≤ indentOf line) : ¬ IsGap (line.drop n) := by
  intro hgap
  obtain ⟨hsplit, -⟩ := drop_indent hn
  refine h fun c hc => ?_
  rw [hsplit, List.mem_append] at hc
  rcases hc with hc | hc
  · rw [List.eq_of_mem_replicate hc]
    rfl
  · exact hgap c hc

def flushed (lines : List (List Char)) : List (List Char) := lines.map (dedentLine (commonMargin lines))

theorem mem_flushed_text {out : List Char} (h : ¬ IsGap out) :
    out ∈ flushed lines ↔ ∃ line ∈ lines, ¬ IsGap line ∧ line.drop (commonMargin lines) = out := by
  rw [flushed, List.mem_map]
  constructor
  · rintro ⟨line, hline, rfl⟩
    by_cases hgap : IsGap line
    · rw [dedentLine_gap hgap] at h
      exact absurd IsGap.nil h
    · exact ⟨line, hline, hgap, (dedentLine_text hgap).symm⟩
  · rintro ⟨line, hline, hgap, rfl⟩
    exact ⟨line, hline, dedentLine_text hgap⟩

theorem exists_text_flushed_iff : (∃ out ∈ flushed lines, ¬ IsGap out) ↔ ∃ line ∈ lines, ¬ IsGap line := by
  constructor
  · rintro ⟨out, hout, h⟩
    obtain ⟨line, hline, hgap, -⟩ := (mem_flushed_text h).mp hout
    exact ⟨line, hline, hgap⟩
  · rintro ⟨line, hline, hgap⟩
    have hout := not_isGap_drop hgap (commonMargin_le hline (not_isBlank hgap))
    exact ⟨_, (mem_flushed_text hout).mpr ⟨line, hline, hgap, rfl⟩, hout⟩

theorem isFlush_flushed_iff : IsFlush (flushed lines) ↔ IsMeasured lines := by
  unfold IsFlush IsMeasured
  rw [exists_text_flushed_iff]
  refine imp_congr_right fun ⟨text, htext, hsome⟩ => ?_
  constructor
  · rintro ⟨out, hout, hgap, hzero⟩ gap hin - hblank
    obtain ⟨line, hline, htext, rfl⟩ := (mem_flushed_text hgap).mp hout
    have hle := commonMargin_le hline (not_isBlank htext)
    rw [(drop_indent hle).2] at hzero
    have hgap := commonMargin_le hin hblank
    exact ⟨line, hline, htext, by omega⟩
  · intro h
    -- The least indentation is one of text, or text is indented no more than the gap that has it.
    obtain ⟨least, hleast, hblank, hmargin⟩ := exists_commonMargin htext (not_isBlank hsome)
    obtain ⟨line, hline, hgap, hle⟩ : ∃ line ∈ lines, ¬ IsGap line ∧ indentOf line ≤ indentOf least := by
      by_cases hgap : IsGap least
      · exact h least hleast hgap hblank
      · exact ⟨least, hleast, hgap, Nat.le_refl _⟩
    have hcommon := commonMargin_le hline (not_isBlank hgap)
    refine ⟨_, (mem_flushed_text (not_isGap_drop hgap hcommon)).mpr ⟨line, hline, hgap, rfl⟩,
      not_isGap_drop hgap hcommon, ?_⟩
    rw [(drop_indent hcommon).2]
    omega

theorem isBlank_of_isGap_flushed {out : List Char} (h : out ∈ flushed lines) (hgap : IsGap out) : out = [] := by
  obtain ⟨line, hline, rfl⟩ := List.mem_map.mp h
  by_cases hline' : IsGap line
  · exact dedentLine_gap hline'
  · rw [dedentLine_text hline'] at hgap
    exact absurd hgap (not_isGap_drop hline' (commonMargin_le hline (not_isBlank hline')))

/-- Nothing is removed twice exactly if no indentation is left in common. -/
theorem flushed_flushed_iff : flushed (flushed lines) = flushed lines ↔ IsFlush (flushed lines) := by
  have hfixed : flushed (flushed lines) = flushed lines ↔ ∀ out ∈ flushed lines,
      dedentLine (commonMargin (flushed lines)) out = out := by
    conv_lhs => rhs; rw [← List.map_id (flushed lines)]
    exact List.map_inj_left
  rw [hfixed]
  constructor
  · rintro h ⟨text, htext, hgap⟩
    obtain ⟨least, hleast, hblank, hmargin⟩ := exists_commonMargin htext (not_isBlank hgap)
    have hsome : ¬ IsGap least := fun hnone => hblank (isBlank_of_isGap_flushed hleast hnone ▸ by simp [IsBlank])
    refine ⟨least, hleast, hsome, ?_⟩
    have hle := commonMargin_le hleast hblank
    have hsame := h least hleast
    rw [dedentLine_text hsome] at hsame
    have hindent := (drop_indent hle).2
    rw [hsame] at hindent
    omega
  · intro h out hout
    by_cases hgap : IsGap out
    · rw [dedentLine_gap hgap, isBlank_of_isGap_flushed hout hgap]
    · obtain ⟨line, hline, htext, hzero⟩ := h ⟨out, hout, hgap⟩
      have hle := commonMargin_le hline (not_isBlank htext)
      rw [dedentLine_text hgap, show commonMargin (flushed lines) = 0 by omega, List.drop_zero]

/-- Neither the end of a line nor a tab. -/
def IsPlain (line : List Char) : Prop := ∀ c ∈ line, c ≠ '\n' ∧ c ≠ '\t'

theorem isPlain_of_mem_linesOf {s : String} (h : line ∈ linesOf s) : IsPlain line := by
  intro c hc
  obtain ⟨hnewline, hmem⟩ := of_mem_splitChars h c hc
  refine ⟨hnewline, ?_⟩
  rintro rfl
  obtain ⟨d, -, hd⟩ := List.mem_flatMap.mp hmem
  split at hd
  · simp at hd
  · rename_i hd'
    exact hd' (List.mem_singleton.mp hd).symm

theorem untabbed_of_notMem {cs : List Char} (h : '\t' ∉ cs) : untabbed cs = cs := by
  unfold untabbed
  induction cs with
  | nil => rfl
  | cons c cs ih =>
    rw [List.mem_cons, not_or] at h
    rw [List.flatMap_cons, if_neg fun heq => h.1 heq.symm, ih h.2, List.singleton_append]

theorem linesOf_join (hne : lines ≠ []) (h : ∀ line ∈ lines, IsPlain line) :
    linesOf (String.ofList (joinChars '\n' lines)) = lines := by
  have htabs : '\t' ∉ joinChars '\n' lines := by
    intro hmem
    rcases mem_joinChars hmem with heq | ⟨line, hline, hc⟩
    · exact absurd heq (by decide)
    · exact (h line hline _ hc).2 rfl
  rw [linesOf, String.toList_ofList, untabbed_of_notMem htabs]
  exact splitChars_joinChars (fun line hline hc => (h line hline _ hc).1 rfl) hne

theorem linesOf_dedent (s : String) : ∃ first rest, linesOf s = first :: rest ∧
    dedent s = String.ofList (joinChars '\n' (first.dropWhile isBlankChar :: flushed rest)) ∧
    linesOf (dedent s) = first.dropWhile isBlankChar :: flushed rest := by
  obtain ⟨first, rest, hlines⟩ := List.exists_cons_of_ne_nil (splitChars_ne_nil '\n' (untabbed s.toList))
  have hdedent : dedent s = String.ofList (joinChars '\n' (first.dropWhile isBlankChar :: flushed rest)) := by
    have hsplit := hlines
    unfold untabbed at hsplit
    rw [dedent, dedentChars]
    simp only [hsplit]
    rfl
  refine ⟨first, rest, hlines, hdedent, hdedent ▸ linesOf_join (List.cons_ne_nil _ _) ?_⟩
  have hplain : ∀ line ∈ first :: rest, IsPlain line := fun line hline => isPlain_of_mem_linesOf (hlines ▸ hline)
  refine List.forall_mem_cons.mpr ⟨fun c hc => ?_, fun out hout c hc => ?_⟩
  · exact hplain first List.mem_cons_self c ((List.dropWhile_sublist _).subset hc)
  · obtain ⟨line, hline, rfl⟩ := List.mem_map.mp hout
    refine hplain line (List.mem_cons_of_mem _ hline) c ?_
    unfold dedentLine at hc
    split at hc
    · cases hc
    · exact List.mem_of_mem_drop hc

theorem dropWhile_dropWhile (line : List Char) :
    (line.dropWhile isBlankChar).dropWhile isBlankChar = line.dropWhile isBlankChar := by
  obtain ⟨run, body, rfl, hrun⟩ := exists_isRun isBlankChar line
  have hbody : IsRun isBlankChar [] body := ⟨by simp, hrun.ends⟩
  rw [hrun.dropWhile]
  exact hbody.dropWhile

theorem dedent_dedent_iff {s : String} {first : List Char} {rest : List (List Char)}
    (h : linesOf s = first :: rest) : dedent (dedent s) = dedent s ↔ IsMeasured rest := by
  obtain ⟨first', rest', hlines, hdedent, hout⟩ := linesOf_dedent s
  obtain ⟨rfl, rfl⟩ := List.cons.inj (h.symm.trans hlines)
  obtain ⟨again, more, hlines', hdedent', hout'⟩ := linesOf_dedent (dedent s)
  obtain ⟨rfl, rfl⟩ := List.cons.inj (hout.symm.trans hlines')
  rw [← isFlush_flushed_iff, ← flushed_flushed_iff]
  constructor
  · intro heq
    rw [heq, hout] at hout'
    exact (List.cons.inj hout').2.symm
  · intro heq
    rw [hdedent', heq, dropWhile_dropWhile, hdedent]

/-- Behind the first line a text loses its white space lines and as many blanks from every other line. It is
left without a common indentation, and stays the same the next time, exactly if no line of other white space
is indented less than all text. -/
theorem dedent_lines_iff (s : String) : ∃ first rest, linesOf s = first :: rest ∧
    ∃ n out, linesOf (dedent s) = first.dropWhile isBlankChar :: out ∧ out.length = rest.length ∧
      (∀ (i : Nat) line, rest[i]? = some line → IsGap line → out[i]? = some []) ∧
      (∀ (i : Nat) line, rest[i]? = some line → ¬ IsGap line →
        ∃ body, line = List.replicate n ' ' ++ body ∧ out[i]? = some body) ∧
      (IsFlush out ↔ IsMeasured rest) ∧ (dedent (dedent s) = dedent s ↔ IsMeasured rest) := by
  obtain ⟨first, rest, hlines, -, hout⟩ := linesOf_dedent s
  have hget {i : Nat} {line : List Char} (h : rest[i]? = some line) :
      (flushed rest)[i]? = some (dedentLine (commonMargin rest) line) := by
    rw [flushed, List.getElem?_map, h, Option.map_some]
  refine ⟨first, rest, hlines, commonMargin rest, flushed rest, hout, List.length_map _, ?_, ?_,
    isFlush_flushed_iff, dedent_dedent_iff hlines⟩
  · intro i line hline hgap
    rw [hget hline, dedentLine_gap hgap]
  · intro i line hline hgap
    have hle := commonMargin_le (List.mem_of_getElem? hline) (not_isBlank hgap)
    exact ⟨line.drop (commonMargin rest), (drop_indent hle).1, by rw [hget hline, dedentLine_text hgap]⟩

def tabbed : String := "x\n\ty\n    \r\n      z"

theorem dedent_lines_iff_tabbed : ∃ out, linesOf (dedent tabbed) = ['x'] :: out ∧
    (IsGap "    \r".toList ∧ out[1]? = some []) ∧
    (¬ IsGap "      z".toList ∧
      ∃ n body, "      z".toList = List.replicate n ' ' ++ body ∧ out[2]? = some body) ∧
    IsFlush out ∧ dedent (dedent tabbed) = dedent tabbed := by
  have heval : linesOf tabbed = [['x'], "    y".toList, "    \r".toList, "      z".toList] := by decide +kernel
  have hgap : IsGap "    \r".toList := by decide
  have htext : ¬ IsGap "      z".toList := by decide
  obtain ⟨first, rest, hlines, n, out, hout, -, hgaps, htexts, hflush, hagain⟩ := dedent_lines_iff tabbed
  obtain ⟨rfl, rfl⟩ := List.cons.inj (hlines.symm.trans heval)
  have hmeasured : IsMeasured ["    y".toList, "    \r".toList, "      z".toList] := by decide
  exact ⟨out, hout, ⟨hgap, hgaps 1 _ rfl hgap⟩, ⟨htext, n, htexts 2 _ rfl htext⟩, hflush.mpr hmeasured,
    hagain.mpr hmeasured⟩

/-- A line with nothing but a carriage return keeps the text below it indented, until it is empty the next
time. -/
theorem returnLine_keeps_indent : dedent "a\n\r\n  b" = "a\n\n  b" ∧ dedent "a\n\n  b" = "a\n\nb" ∧
    ¬ IsFlush ((linesOf (dedent "a\n\r\n  b")).drop 1) ∧
    dedent (dedent "a\n\r\n  b") ≠ dedent "a\n\r\n  b" :=
  ⟨by decide +kernel, by decide +kernel, by decide +kernel, by decide +kernel⟩

end Dedent

end HostScript
