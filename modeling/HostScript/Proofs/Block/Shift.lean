import HostScript.Proofs.Block.Locality
import HostScript.Proofs.Token.Shift

/-!
Blocks of a text that moves. A text behind another one in which every block is terminated has the
blocks that it has alone, moved with the text.
-/

set_option autoImplicit false

namespace HostScript

def Include.moved (i : Include) (s : Shift) : Include :=
  { i with
    range := i.range.moved s
    keywordRange := i.keywordRange.moved s
    offset := s.bytes + i.offset }

def Hook.moved (h : Hook) (s : Shift) : Hook := { h with range := h.range.moved s }

def OpenBlock.moved (h : OpenBlock) (s : Shift) : OpenBlock := { h with line := s.lines + h.line }

def Block.moved (b : Block) (s : Shift) : Block :=
  { b with
    start := s.bytes + b.start
    headerEnd := s.bytes + b.headerEnd
    bodyStart := s.bytes + b.bodyStart
    bodyEnd := s.bytes + b.bodyEnd
    stop := s.bytes + b.stop
    range := b.range.moved s
    headerRange := b.headerRange.moved s
    includes := b.includes.map (·.moved s)
    hooks := b.hooks.map (·.moved s) }

theorem Document.Follows.tokens {d e : Document} {s : Shift} (h : d.Follows e s) (start stop : Nat) :
    Lexer.tokens d.text (s.bytes + start : Nat) (s.bytes + stop : Nat)
      = (Lexer.tokens e.text start stop).map (·.moved s.bytes) := by
  obtain ⟨front, hd, _, rfl⟩ := h.text
  rw [hd]
  exact Lexer.tokens_append front e.text start stop

/-- A token that does not begin or end before its text. -/
def Token.Nonneg (t : Token) : Prop := 0 ≤ t.span.start ∧ 0 ≤ t.span.stop

theorem Document.Follows.token_range {d e : Document} {s : Shift} (h : d.Follows e s) {t : Token}
    (ht : t.Nonneg) : d.range (t.moved s.bytes).span.start (t.moved s.bytes).span.stop
      = (e.range t.span.start t.span.stop).moved s := h.range ht.1 ht.2

theorem Document.Follows.token_line {d e : Document} {s : Shift} (h : d.Follows e s) {t : Token}
    (ht : t.Nonneg) : d.lineAt (t.moved s.bytes).span.start = s.lines + e.lineAt t.span.start :=
  h.lineAt ht.1

namespace Block

theorem bodyTokens_nonneg (doc : Document) (bodyStart bodyEnd : Nat) :
    ∀ t ∈ bodyTokens doc bodyStart bodyEnd, t.Nonneg := by
  unfold bodyTokens
  split
  · exact Lexer.tokens_nonneg doc.text bodyStart bodyEnd
  · simp

section

variable {d e : Document} {s : Shift} (h : d.Follows e s)

include h

theorem ofTokens_moved {keyword arg : Token} (hk : keyword.Nonneg) (ha : arg.Nonneg) :
    Include.ofTokens d (keyword.moved s.bytes) (arg.moved s.bytes)
      = (Include.ofTokens e keyword arg).moved s := by
  have htarget : Include.targetOf (arg.moved s.bytes) = Include.targetOf arg := rfl
  simp only [Include.ofTokens, htarget, h.token_range hk, h.token_range ha]
  cases (Include.targetOf arg).isSome <;> rfl

theorem includesOf_moved {tokens : List Token} (ht : ∀ t ∈ tokens, t.Nonneg) :
    includesOf d (tokens.map (·.moved s.bytes)) = (includesOf e tokens).map (·.moved s) := by
  induction tokens with
  | nil => rfl
  | cons token rest ih =>
    have ih := ih fun t h => ht t (List.mem_cons_of_mem _ h)
    have hfind : (rest.map (·.moved s.bytes)).find? (·.kind != .comment)
        = (rest.find? (·.kind != .comment)).map (·.moved s.bytes) := List.find?_map
    rw [List.map_cons, includesOf, includesOf, hfind, ih]
    by_cases hkey : token.kind = .identifier ∧ token.text = utf8 includeKeyword
    · rw [token.moved_kind, token.moved_text, if_pos hkey, if_pos hkey]
      cases hf : rest.find? (·.kind != .comment) with
      | none => rfl
      | some arg =>
        have harg := ht arg (List.mem_cons_of_mem _ (List.mem_of_find?_eq_some hf))
        simp only [Option.map_some, List.map_cons, ofTokens_moved h (ht token List.mem_cons_self) harg]
    · rw [token.moved_kind, token.moved_text, if_neg hkey, if_neg hkey]

theorem ofComment_moved {token : Token} (ht : token.Nonneg) :
    Hook.ofComment d (token.moved s.bytes) = (Hook.ofComment e token).moved s := by
  have hstop (n : Nat) : d.range (s.bytes + token.span.start) (s.bytes + token.span.start + n)
      = (e.range token.span.start (token.span.start + n)).moved s := by
    rw [Int.add_assoc]
    exact h.range ht.1 (Int.add_nonneg ht.1 (Int.natCast_nonneg n))
  simp only [Hook.ofComment, Token.moved, Span.moved, hstop, Hook.moved]

theorem hooksOf_moved {tokens : List Token} (ht : ∀ t ∈ tokens, t.Nonneg) :
    hooksOf d (tokens.map (·.moved s.bytes)) = (hooksOf e tokens).map (·.moved s) := by
  rw [hooksOf, List.filter_map, List.map_map, hooksOf, List.map_map]
  refine List.map_congr_left fun t hm => ?_
  exact ofComment_moved h (ht t (List.mem_filter.mp hm).1)

theorem bodyTokens_moved (bodyStart bodyEnd : Nat) :
    bodyTokens d (s.bytes + bodyStart) (s.bytes + bodyEnd)
      = (bodyTokens e bodyStart bodyEnd).map (·.moved s.bytes) := by
  by_cases hlt : bodyStart < bodyEnd
  · rw [bodyTokens, if_pos (Nat.add_lt_add_left hlt _), bodyTokens, if_pos hlt]
    exact h.tokens bodyStart bodyEnd
  · rw [bodyTokens, if_neg (by omega), bodyTokens, if_neg hlt]
    rfl

theorem bodyStart_moved (n : Nat) :
    (if s.lines + n + 1 < d.lineCount then d.lineStart ((s.lines + n : Nat) + 1) else s.bytes + e.lineEnd n)
      = s.bytes + if n + 1 < e.lineCount then e.lineStart (n + 1) else e.lineEnd n := by
  have hlt : s.lines + n + 1 < d.lineCount ↔ n + 1 < e.lineCount := by rw [h.lineCount]; omega
  by_cases hn : n + 1 < e.lineCount
  · rw [if_pos hn, if_pos (hlt.mpr hn)]
    exact h.lineStart (n + 1)
  · rw [if_neg hn, if_neg (mt hlt.mp hn)]

theorem close_moved (o : OpenBlock) (bodyEnd stop : Nat) (terminated : Bool) :
    close d (o.moved s) (s.bytes + bodyEnd) (s.bytes + stop) terminated
      = (close e o bodyEnd stop terminated).moved s := by
  have hline : (o.moved s).line = s.lines + o.line := rfl
  have hnonneg := bodyTokens_nonneg e
  simp only [close, hline, h.lineStart, h.lineEnd, bodyStart_moved h, h.range_nat, bodyTokens_moved h,
    includesOf_moved h (hnonneg _ _), hooksOf_moved h (hnonneg _ _), h.uri]
  rfl

theorem scanLines_moved (ns : List Nat) (current : Option OpenBlock) (hn : ∀ n ∈ ns, n < e.lineCount) :
    scanLines d (ns.map (s.lines + ·)) (current.map (·.moved s))
      = (scanLines e ns current).map (·.moved s) := by
  induction ns generalizing current with
  | nil =>
    cases current with
    | none => rfl
    | some o =>
      have hclose := close_moved h o e.length e.length false
      rw [← h.length] at hclose
      simp only [scanLines, cut, List.map_nil, Option.map_some, hclose, List.map_cons]
  | cons n ns ih =>
    have ih (o : Option OpenBlock) := ih o fun m hm => hn m (List.mem_cons_of_mem _ hm)
    have hline := congrArg lineRole (h.line (hn n List.mem_cons_self))
    rw [List.map_cons]
    cases hr : lineRole (e.line n) with
    | header kind fields =>
      have hnext : scanLines d (ns.map (s.lines + ·)) (some ⟨s.lines + n, kind, fields⟩)
          = (scanLines e ns (some ⟨n, kind, fields⟩)).map (·.moved s) := ih (some ⟨n, kind, fields⟩)
      cases current with
      | none => simp only [scanLines, hline, hr, Option.map_none, hnext]
      | some o =>
        simp only [scanLines, hline, hr, Option.map_some, hnext, List.map_cons, cut, h.lineStart,
          close_moved h]
    | terminator =>
      have hnext : scanLines d (ns.map (s.lines + ·)) none = (scanLines e ns none).map (·.moved s) := ih none
      cases current with
      | none => simp only [scanLines, hline, hr, Option.map_none, hnext]
      | some o =>
        simp only [scanLines, hline, hr, Option.map_some, hnext, List.map_cons, h.lineStart, h.lineEnd,
          close_moved h]
    | other =>
      cases current with
      | none => simp only [scanLines, hline, hr, ← ih none, Option.map_none]
      | some o => simp only [scanLines, hline, hr, ← ih (some o), Option.map_some]

end

section Front

variable {d e : Document} {rest : Bytes} (hu : d.uri = e.uri) (hd : d.text = e.text ++ rest)

include hu hd

/-- A block that ends within the first text is the same whatever follows the text. -/
theorem close_front {o : OpenBlock} {n : Nat} (ho : o.line < n) (hn : n < e.text.count Bytes.newline) :
    close d o (d.lineStart n) (d.lineEnd n) true = close e o (e.lineStart n) (e.lineEnd n) true := by
  have he : e.text = e.text ++ [] := (List.append_nil _).symm
  have hstart {m : Nat} (hm : m ≤ n) : d.lineStart m = e.lineStart m :=
    Document.lineStart_front hd he (by omega)
  have hend {m : Nat} (hm : m ≤ n) : d.lineEnd m = e.lineEnd m :=
    Document.lineEnd_front hd he (by omega)
  have hshows : d.Shows e 0 0 := ⟨[], rest, hd, Or.inl rfl, rfl, rfl⟩
  have hself : e.Shows e 0 0 := ⟨[], [], he, Or.inl rfl, rfl, rfl⟩
  have hlength : d.lineEnd n ≤ 0 + e.length := by
    rw [hend (Nat.le_refl n), Nat.zero_add]
    exact e.lineEnd_le_length n
  have hsame := (hshows.sameBetween hu hself).mono (Nat.zero_le (d.lineStart o.line)) hlength
  rw [← hstart (Nat.le_refl n), ← hend (Nat.le_refl n)]
  have hbody (doc : Document) (hc : o.line + 1 < doc.lineCount) :
      (close doc o (d.lineStart n) (d.lineEnd n) true).bodyStart = doc.lineStart (o.line + 1 : Nat) := by
    simp only [close, hc, if_true]
    rfl
  have hdc : o.line + 1 < d.lineCount := Document.lt_lineCount_of_front hd (by omega)
  have hec : o.line + 1 < e.lineCount := Document.lt_lineCount_of_front he (by omega)
  refine close_congr hsame (hstart (by omega)) (hend (by omega)) ?_ ?_ (d.lineStart_le_lineEnd n)
  · rw [hbody d hdc, hbody e hec, hstart (by omega)]
  · rw [hbody d hdc]
    exact d.lineStart_mono (by omega)

/-- If all blocks of the first text are terminated, nothing is open behind it. -/
theorem scanLines_front (hends : e.text.EndsLine) (tail : List Nat) (count first : Nat)
    (current : Option OpenBlock) (hc : first + count = e.text.count Bytes.newline)
    (hb : ∀ o, current = some o → o.line < first)
    (ht : ∀ b ∈ scanLines e (List.range' first (count + 1)) current, b.terminated = true) :
    scanLines d (List.range' first count ++ tail) current
      = scanLines e (List.range' first (count + 1)) current ++ scanLines d tail none := by
  induction count generalizing first current with
  | zero =>
    -- The last line of the first text is empty, so a block that is open here would be cut at its end.
    have hempty : e.Follows (.ofText e.uri []) (.past e.text) :=
      ⟨rfl, e.text, (List.append_nil _).symm, hends, rfl⟩
    have hline : e.line first = [] := by
      have h := hempty.line (n := 0) (by rw [Document.lineCount_eq]; exact Nat.succ_pos _)
      rw [show (Shift.past e.text).lines + 0 = first from hc.symm] at h
      exact h
    have hrole : lineRole (e.line first) = .other := by rw [hline]; decide
    have hone : List.range' first (0 + 1) = [first] := rfl
    cases current with
    | none => simp only [hone, scanLines, hrole, List.range'_zero, List.nil_append]
    | some o =>
      rw [hone] at ht
      simp only [scanLines, hrole, List.mem_singleton, forall_eq, cut, close] at ht
      cases ht
  | succ count ih =>
    -- Lines before the last newline of the first text are whole, whatever follows.
    have hlt : first < e.text.count Bytes.newline := by omega
    have hline : lineRole (d.line first) = lineRole (e.line first) :=
      congrArg lineRole (Document.line_front hd (List.append_nil _).symm hlt)
    have hnone : ∀ o, (none : Option OpenBlock) = some o → o.line < first + 1 := by simp
    have ih (current : Option OpenBlock) := ih (first + 1) current (by omega)
    rw [List.range'_succ, List.cons_append]
    rw [List.range'_succ] at ht ⊢
    cases hr : lineRole (e.line first) with
    | header kind fields =>
      rw [hr] at hline
      cases current with
      | none =>
        simp only [scanLines, hline, hr] at ht ⊢
        refine ih (some ⟨first, kind, fields⟩) (fun o ho => ?_) ht
        rw [← Option.some.inj ho]
        exact Nat.lt_succ_self first
      | some o =>
        simp only [scanLines, hr, List.mem_cons, forall_eq_or_imp, cut, close] at ht
        cases ht.1
    | terminator =>
      rw [hr] at hline
      cases current with
      | none =>
        simp only [scanLines, hline, hr] at ht ⊢
        exact ih none hnone ht
      | some o =>
        simp only [scanLines, hline, hr, List.mem_cons, forall_eq_or_imp] at ht ⊢
        rw [close_front hu hd (hb o rfl) hlt, ih none hnone ht.2, List.cons_append]
    | other =>
      rw [hr] at hline
      simp only [scanLines, hline, hr] at ht ⊢
      exact ih current (fun o ho => Nat.lt_succ_of_lt (hb o ho)) ht

end Front

theorem scan_append {uri : String} {front text : Bytes} (hf : front.EndsLine)
    (ht : ∀ b ∈ scan (.ofText uri front), b.terminated = true) :
    scan (.ofText uri (front ++ text))
      = scan (.ofText uri front) ++ (scan (.ofText uri text)).map (·.moved (.past front)) := by
  let d := Document.ofText uri (front ++ text)
  let e := Document.ofText uri front
  let t := Document.ofText uri text
  let behind := (List.range t.lineCount).map ((Shift.past front).lines + ·)
  have hmoved : d.Follows t (.past front) := ⟨rfl, front, rfl, hf, rfl⟩
  have hfront : scan e = scanLines e (List.range' 0 (e.text.count Bytes.newline + 1)) none := by
    rw [scan, List.range_eq_range', e.lineCount_eq]
  have hall : List.range d.lineCount = List.range' 0 (e.text.count Bytes.newline) ++ behind := by
    rw [hmoved.lineCount, List.range_add, List.range_eq_range']
    rfl
  calc scan d
    _ = scanLines d (List.range' 0 (e.text.count Bytes.newline) ++ behind) none := by rw [scan, hall]
    _ = scan e ++ scanLines d behind none := by
      rw [hfront] at ht ⊢
      exact scanLines_front (d := d) (e := e) rfl rfl hf behind _ 0 none (Nat.zero_add _) (by simp) ht
    _ = scan e ++ (scan t).map (·.moved (.past front)) :=
      congrArg (scan e ++ ·) (scanLines_moved hmoved _ none fun n hn => List.mem_range.mp hn)

end Block

end HostScript
