import HostScript.Proofs.Text.Run
import HostScript.Proofs.Token.Lookahead
import HostScript.Server.QuickFix

/-!
The way of a suggestion from a finding into its edit. It is written into a note, shown as a line of the
message, and read back from there.
-/

set_option autoImplicit false

namespace HostScript

/-- A text of word characters. -/
structure IsWordText (s : String) : Prop where
  ne_nil : s.toList ≠ []
  words : ∀ c ∈ s.toList, isWord c = true

theorem IsWordText.of_identifier {s : String} {next : List Char} (h : Lexer.IsIdentifier s.toList next) :
    IsWordText s := by
  obtain ⟨c, cs, hspell, hc, hcs⟩ := h.spelling
  refine ⟨by simp [hspell], fun x hx => ?_⟩
  rw [hspell] at hx
  cases List.mem_cons.mp hx with
  | inl hx => rw [hx]; exact isWord_of_isWordStart hc
  | inr hx => exact hcs x hx

namespace QuickFix

theorem plain_of_isWord {c : Char} (h : isWord c = true) :
    isGap c = false ∧ c ≠ '.' ∧ c ≠ '?' ∧ c ≠ ' ' :=
  forall_isWord (P := fun c => isGap c = false ∧ c ≠ '.' ∧ c ≠ '?' ∧ c ≠ ' ') (by decide +kernel) h

theorem suggestionAt?_append {space name : String} (hs : IsWordText space) (hn : IsWordText name)
    (rest : List Char) :
    suggestionAt? (space.toList ++ '.' :: (name.toList ++ '?' :: rest)) = some (space, name) := by
  have hspace : IsRun (fun c => c != '.' && !isGap c) space.toList ('.' :: (name.toList ++ '?' :: rest)) :=
    .of_cons (fun c hc => by
      obtain ⟨hgap, hdot, -⟩ := plain_of_isWord (hs.words c hc)
      simp [hgap, hdot]) (by decide)
  have hname : IsRun (fun c => c != '?' && !isGap c) name.toList ('?' :: rest) :=
    .of_cons (fun c hc => by
      obtain ⟨hgap, -, hmark, -⟩ := plain_of_isWord (hn.words c hc)
      simp [hgap, hmark]) (by decide)
  simp only [suggestionAt?, hspace.takeWhile, List.drop_left, hname.takeWhile]
  simp [hs.ne_nil, hn.ne_nil]

theorem suggestion?_of_not_prefix {c : Char} {cs : List Char} (h : ¬ suggestionLead.toList <+: c :: cs) :
    suggestion? (c :: cs) = suggestion? cs := by
  rw [← List.isPrefixOf_iff_prefix] at h
  rw [suggestion?, if_neg h, Option.none_or]

theorem suggestion?_lead (rest : List Char) {found : String × String} (h : suggestionAt? rest = some found) :
    suggestion? (suggestionLead.toList ++ rest) = some found := by
  have hlead : suggestionLead.toList = 'd' :: "id you mean ".toList := by decide
  have hp : suggestionLead.toList.isPrefixOf ('d' :: ("id you mean ".toList ++ rest)) = true :=
    List.isPrefixOf_iff_prefix.mpr ⟨rest, by rw [hlead]; rfl⟩
  have hdrop : ('d' :: ("id you mean ".toList ++ rest)).drop suggestionLead.length = rest := by rfl
  rw [hlead, List.cons_append, suggestion?, if_pos hp, hdrop, h, Option.some_or]

theorem suggestion?_skip {front : List Char} (h : 'd' ∉ front) (rest : List Char) :
    suggestion? (front ++ rest) = suggestion? rest := by
  induction front with
  | nil => rfl
  | cons c front ih =>
    simp only [List.mem_cons, not_or] at h
    rw [List.cons_append, suggestion?_of_not_prefix, ih h.2]
    intro hp
    exact h.1 (List.cons_prefix_cons.mp hp).1

theorem suggestion?_line {front : List Char} (h : ' ' ∉ front) (rest : List Char) :
    suggestion? (front ++ '\n' :: rest) = suggestion? rest := by
  induction front with
  | nil =>
    have hskip : suggestion? (['\n'] ++ rest) = suggestion? rest := suggestion?_skip (by decide) rest
    exact hskip
  | cons c front ih =>
    have hfront := h
    simp only [List.mem_cons, not_or] at h
    rw [List.cons_append, suggestion?_of_not_prefix, ih h.2]
    rintro ⟨tail, ht⟩
    have hlead : suggestionLead.toList = ['d', 'i', 'd'] ++ ' ' :: "you mean ".toList := by decide
    rw [hlead, ← List.cons_append, List.append_assoc] at ht
    rcases List.append_eq_append_iff.mp ht with ⟨more, hmore, heq⟩ | ⟨more, hmore, heq⟩
    · cases more with
      | nil => simp at heq
      | cons x more =>
        obtain ⟨rfl, -⟩ := List.cons.inj heq
        exact hfront (by rw [hmore]; simp)
    · cases more with
      | nil => simp at heq
      | cons x more =>
        obtain ⟨rfl, -⟩ := List.cons.inj heq
        have hmem : '\n' ∈ ['d', 'i', 'd'] := by rw [hmore]; simp
        exact absurd hmem (by decide)

/-- The suggestion of a finding is read back from its message. -/
theorem suggestion?_message {space name best : String} (hs : IsWordText space) (hn : IsWordText name)
    (hb : IsWordText best) : suggestion? ("unknown function " ++ (space ++ "." ++ name) ++ ("\n" ++
      ("did you mean " ++ space ++ "." ++ best ++ "?"))).toList = some (space, best) := by
  have hspace : ' ' ∉ space.toList ++ '.' :: name.toList := by
    simp only [List.mem_append, List.mem_cons, not_or]
    exact ⟨fun hm => (plain_of_isWord (hs.words _ hm)).2.2.2 rfl, by decide,
      fun hm => (plain_of_isWord (hn.words _ hm)).2.2.2 rfl⟩
  have hmessage : ("unknown function " ++ (space ++ "." ++ name) ++ ("\n" ++
        ("did you mean " ++ space ++ "." ++ best ++ "?"))).toList
      = "unknown function ".toList ++ ((space.toList ++ '.' :: name.toList) ++ '\n' ::
        (suggestionLead.toList ++ (space.toList ++ '.' :: (best.toList ++ '?' :: [])))) := by
    simp [String.toList_append, suggestionLead]
  rw [hmessage, suggestion?_skip (by decide), suggestion?_line hspace,
    suggestion?_lead _ (suggestionAt?_append hs hb [])]

end QuickFix

end HostScript
