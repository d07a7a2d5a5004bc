import HostScript.Proofs.Check.Strictness
import HostScript.Proofs.Parse.Places
import HostScript.Proofs.Token.Classes
import HostScript.Similar
import Mathlib.Data.List.Count
import Mathlib.Data.List.Perm.Basic

/-!
What becomes of the delimiters of a block. A walk keeps account of them: each one is paired with another
one, reported in one finding, dropped because of a broken literal, or waits for its closing delimiter.
Every token moves delimiters from one part of the account to another, and none is lost or kept twice.
-/

set_option autoImplicit false

namespace HostScript

namespace Parse

def isDelimiter (t : Token) : Bool := t.kind.isOpen || t.kind.isClose

structure Account where
  /-- Opening delimiters, each with its closing one. -/
  pairs : List (Token × Token) := []
  /-- Delimiters, each with the finding about it. -/
  reported : List (Token × Diagnostic) := []
  dropped : List Token := []

/-- The delimiters of an account, each as often as the account speaks of it. -/
def Account.tokens (a : Account) : List Token :=
  a.pairs.map Prod.fst ++ a.pairs.map Prod.snd ++ a.reported.map Prod.fst ++ a.dropped

/-- The finding is about the delimiter: about an opening one from its place on, about a closing one on
the delimiter itself. -/
inductive Reports (doc : Document) (t : Token) (d : Diagnostic) : Prop where
  | unclosed : t.kind.isOpen = true → d.code = unclosedCode → d.range.start = place doc t → Reports doc t d
  | unexpected : t.kind.isClose = true → d.code = unexpectedCode →
      d.range = doc.range t.span.start t.span.stop → Reports doc t d
  | mismatched : t.kind.isClose = true → d.code = mismatchedCode →
      d.range = doc.range t.span.start t.span.stop → Reports doc t d

/-- A string or character literal without its closing quote. -/
structure BrokenLiteral (t : Token) : Prop where
  kind : t.kind = .error
  text : t.text = utf8 Lexer.unterminatedString ∨ t.text = utf8 Lexer.unterminatedChar

/-- A parenthesis or bracket with a broken literal behind it on its line. -/
structure Swallowed (doc : Document) (tokens : List Token) (t : Token) : Prop where
  kind : t.kind = .parenOpen ∨ t.kind = .bracketOpen
  literal : ∃ u ∈ tokens, BrokenLiteral u ∧ t.span.start < u.span.start ∧
    doc.lineAt t.span.start = doc.lineAt u.span.start

/-- What an account says of each delimiter is true of it. -/
structure Account.Holds (doc : Document) (tokens : List Token) (a : Account) : Prop where
  matched : ∀ p ∈ a.pairs, p.1.kind.isOpen = true ∧ p.2.kind = p.1.kind.closer ∧
    p.1.span.start < p.2.span.start
  uncrossed : ∀ p ∈ a.pairs, ∀ q ∈ a.pairs, ¬ (p.1.span.start < q.1.span.start ∧
    q.1.span.start < p.2.span.start ∧ p.2.span.start < q.2.span.start)
  reported : ∀ r ∈ a.reported, Reports doc r.1 r.2
  dropped : ∀ t ∈ a.dropped, Swallowed doc tokens t

/-- The call begins at one of the parentheses, and is closed exactly if that is in a pair, where the
closing one stands. -/
structure TellsClosing (tokens : List Token) (pairs : List (Token × Token)) (c : Call) : Prop where
  opening : ∃ t ∈ tokens, t.kind = .parenOpen ∧ t.span.start = c.openAt
  closing : ∀ stop, c.closeAt = some stop ↔
    ∃ p ∈ pairs, p.1.span.start = c.openAt ∧ p.2.span.start = stop

/-- The account speaks once of every delimiter and once of every finding about delimiters, and tells which
calls are closed. -/
structure Account.Covers (doc : Document) (tokens : List Token) (result : ParseResult) (a : Account) : Prop where
  holds : a.Holds doc tokens
  delimiters : a.tokens.Perm (tokens.filter isDelimiter)
  findings : (a.reported.map Prod.snd).Perm (ofDelimiters result.diagnostics)
  calls : ∀ c ∈ result.calls, TellsClosing tokens a.pairs c

theorem TellsClosing.congr {tokens : List Token} {pairs : List (Token × Token)} {c c' : Call}
    (h : TellsClosing tokens pairs c) (ho : c.openAt = c'.openAt) (hc : c.closeAt = c'.closeAt) :
    TellsClosing tokens pairs c' :=
  ⟨ho ▸ h.opening, ho ▸ hc ▸ h.closing⟩

theorem TellsClosing.more {tokens tokens' : List Token} {pairs : List (Token × Token)} {c : Call}
    (h : TellsClosing tokens pairs c) (hsub : tokens ⊆ tokens') : TellsClosing tokens' pairs c := by
  obtain ⟨t, ht, hk⟩ := h.opening
  exact ⟨⟨t, hsub ht, hk⟩, h.closing⟩

theorem Account.Holds.more {doc : Document} {tokens tokens' : List Token} {a : Account}
    (h : a.Holds doc tokens) (hsub : tokens ⊆ tokens') : a.Holds doc tokens' := by
  refine { h with dropped := fun t ht => ?_ }
  obtain ⟨hkind, u, hu, hbehind⟩ := h.dropped t ht
  exact ⟨hkind, u, hsub hu, hbehind⟩

namespace Walk

def begins (w : Walk) : List Int := w.calls.map (·.openAt)

/-- A delimiter as it waits to be closed. It opens the call that begins there, if there is one. -/
structure Awaits (doc : Document) (begins : List Int) (t : Token) (o : Opener) : Prop where
  isOpen : t.kind.isOpen = true
  kind : o.kind = t.kind
  start : o.start = t.span.start
  line : o.line = doc.lineAt t.span.start
  call : ∀ i, o.call = some i ↔ begins[i]? = some t.span.start

/-- The account of a walk over the tokens of `past`, with the delimiters that wait to be closed, the
innermost first. -/
structure Kept (doc : Document) (past : List Token) (w : Walk) (a : Account) (waiting : List Token) :
    Prop where
  holds : a.Holds doc past
  once : (waiting ++ a.tokens).Perm (past.filter isDelimiter)
  ascending : past.Pairwise fun t u => t.span.start < u.span.start
  stack : List.Forall₂ (Awaits doc w.begins) waiting w.stack
  inward : waiting.Pairwise fun t u => u.span.start < t.span.start
  -- A pair that is closed lies behind or before every delimiter that still waits.
  clear : ∀ p ∈ a.pairs, ∀ t ∈ waiting, ¬ (p.1.span.start < t.span.start ∧ t.span.start < p.2.span.start)
  findings : ofDelimiters w.diagnostics = a.reported.map Prod.snd
  ascends : w.begins.Pairwise (· < ·)
  calls : ∀ c ∈ w.calls, TellsClosing past a.pairs c

theorem newCall?_eq_some {doc : Document} {w : Walk} {t : Token} {c : Call} (h : newCall? doc w t = some c) :
    t.kind = .parenOpen ∧ c.openAt = t.span.start ∧ c.closeAt = none ∧ c.commas = [] ∧ c.args = 0 := by
  unfold newCall? at h
  split at h
  · rename_i hk
    unfold callAt? at h
    split at h
    · split at h
      · obtain rfl := Option.some.inj h
        exact ⟨hk, rfl, rfl, rfl, rfl⟩
      · cases h
    · cases h
  · cases h

theorem newCall?_begins (doc : Document) (w : Walk) (t : Token) :
    ∀ b ∈ (newCall? doc w t).toList.map (·.openAt), b = t.span.start := by
  intro b hb
  obtain ⟨c, hc, rfl⟩ := List.mem_map.mp hb
  exact (newCall?_eq_some (Option.mem_toList.mp hc)).2.1

theorem begins_congr {w w' : Walk} (h : w'.calls = w.calls) : w'.begins = w.begins := by
  rw [begins, h, begins]

theorem Move.begins {doc : Document} {w w' : Walk} {t : Token} (h : Move doc w t w') :
    w'.begins = w.begins ++ (newCall? doc w t).toList.map (·.openAt) :=
  h.map_calls (fun _ _ _ => rfl) fun _ _ => rfl

section Awaits

variable {doc : Document} {begins more : List Int} {t : Token} {o : Opener}

theorem Awaits.append (h : Awaits doc begins t o) (hm : ∀ b ∈ more, b ≠ t.span.start) :
    Awaits doc (begins ++ more) t o := by
  refine ⟨h.isOpen, h.kind, h.start, h.line, fun i => (h.call i).trans ?_⟩
  constructor
  · intro hi
    rwa [List.getElem?_append_left (List.getElem?_eq_some_iff.mp hi).1]
  · intro hi
    by_cases hlt : i < begins.length
    · rwa [List.getElem?_append_left hlt] at hi
    · rw [List.getElem?_append_right (Nat.le_of_not_lt hlt)] at hi
      exact absurd rfl (hm _ (List.mem_of_getElem? hi))

/-- A new opening delimiter waits behind all calls but its own. -/
theorem awaits_opener (doc : Document) (w : Walk) {t : Token} (hk : t.kind.isOpen = true)
    (hlater : ∀ b ∈ w.begins, b < t.span.start) :
    Awaits doc (w.begins ++ (newCall? doc w t).toList.map (·.openAt)) t (opener doc w t) := by
  refine ⟨hk, rfl, rfl, rfl, fun i => ?_⟩
  have hlength : w.begins.length = w.calls.length := List.length_map _
  have hold : w.begins[i]? ≠ some t.span.start := fun hi =>
    Int.lt_irrefl _ (hlater _ (List.mem_of_getElem? hi))
  cases hcall : newCall? doc w t with
  | none => simpa [opener, hcall] using hold
  | some c =>
    have hopen := (newCall?_eq_some hcall).2.1
    simp only [opener, hcall, Option.map_some, Option.some.injEq, Option.toList_some, List.map_cons,
      List.map_nil, hopen]
    rcases Nat.lt_trichotomy i w.begins.length with hlt | heq | hgt
    · rw [List.getElem?_append_left hlt]
      simp only [hold, iff_false]
      omega
    · simp [heq, hlength]
    · rw [List.getElem?_eq_none (by simpa using Nat.succ_le_of_lt hgt)]
      simp only [reduceCtorEq, iff_false]
      omega

/-- The call that an opening delimiter opens is the one that begins there. -/
theorem mem_alter {f : Call → Call} {calls : List Call} (h : Awaits doc (calls.map (·.openAt)) t o) {c : Call}
    (hc : c ∈ o.alter f calls) : ∃ c' ∈ calls, c = if c'.openAt = t.span.start then f c' else c' := by
  obtain ⟨i, hi⟩ := List.mem_iff_getElem?.mp hc
  have hcall (j : Nat) {c' : Call} (hget : calls[j]? = some c') :
      o.call = some j ↔ c'.openAt = t.span.start := by
    rw [h.call, List.getElem?_map, hget, Option.map_some, Option.some.injEq]
  unfold Opener.alter at hi
  split at hi
  · rename_i j hj
    rw [List.getElem?_modify] at hi
    obtain ⟨c', hget, rfl⟩ := Option.map_eq_some_iff.mp hi
    refine ⟨c', List.mem_of_getElem? hget, ?_⟩
    simp only [← hcall i hget, hj, Option.some.injEq]
  · rename_i hnone
    refine ⟨c, List.mem_of_getElem? hi, (if_neg ?_).symm⟩
    rw [← hcall i hi, hnone]
    exact nofun

theorem Awaits.marked (h : Awaits doc begins t o) : Awaits doc begins t { o with content := true } :=
  ⟨h.isOpen, h.kind, h.start, h.line, h.call⟩

theorem forall₂_markContent {w : Walk} {waiting : List Token}
    (h : List.Forall₂ (Awaits doc begins) waiting w.stack) :
    List.Forall₂ (Awaits doc begins) waiting w.markContent.stack := by
  unfold markContent
  split
  · exact h
  · rename_i top rest hs
    rw [hs] at h
    cases h with
    | cons htop hrest => exact .cons htop.marked hrest

theorem forall₂_split {α β : Type} {R : α → β → Prop} {as : List α} {bs bs' : List β}
    (h : List.Forall₂ R as (bs ++ bs')) :
    ∃ front back, as = front ++ back ∧ List.Forall₂ R front bs ∧ List.Forall₂ R back bs' :=
  ⟨_, _, (List.take_append_drop bs.length as).symm, List.forall₂_take_append as bs bs' h,
    List.forall₂_drop_append as bs bs' h⟩

theorem forall₂_imp_mem {α β : Type} {R S : α → β → Prop} {as : List α} {bs : List β}
    (h : List.Forall₂ R as bs) (hi : ∀ a ∈ as, ∀ b, R a b → S a b) : List.Forall₂ S as bs := by
  induction h with
  | nil => exact .nil
  | cons hab _ ih =>
    exact .cons (hi _ List.mem_cons_self _ hab) (ih fun a ha => hi a (List.mem_cons_of_mem _ ha))

theorem exists_of_forall₂ {α β : Type} {R : α → β → Prop} {as : List α} {bs : List β}
    (h : List.Forall₂ R as bs) {a : α} (ha : a ∈ as) : ∃ b ∈ bs, R a b := by
  induction h with
  | nil => cases ha
  | cons hab _ ih =>
    rcases List.mem_cons.mp ha with rfl | ha
    · exact ⟨_, List.mem_cons_self, hab⟩
    · obtain ⟨b, hb, hr⟩ := ih ha
      exact ⟨b, List.mem_cons_of_mem _ hb, hr⟩

theorem forall₂_starts {ts : List Token} {os : List Opener} (h : List.Forall₂ (Awaits doc begins) ts os) :
    os.map (·.start) = ts.map (·.span.start) := by
  induction h with
  | nil => rfl
  | cons ho _ ih => rw [List.map_cons, List.map_cons, ih, ho.start]

theorem forall₂_isOpen {ts : List Token} {os : List Opener} (h : List.Forall₂ (Awaits doc begins) ts os) :
    ∀ t ∈ ts, t.kind.isOpen = true := by
  induction h with
  | nil => simp
  | cons ho _ ih => exact List.forall_mem_cons.mpr ⟨ho.isOpen, ih⟩

end Awaits

def unclosedToken (doc : Document) (stop : Int) (t : Token) : Diagnostic :=
  finding doc t.span.start stop .error unclosedCode (utf8 ("unclosed " ++ quoteKind t.kind))

theorem ofDelimiters_unclosed (doc : Document) (stop : Int) (ts : List Token) :
    ofDelimiters (ts.map (unclosedToken doc stop)) = ts.map (unclosedToken doc stop) := by
  refine List.filter_eq_self.mpr fun d hd => ?_
  obtain ⟨t, -, rfl⟩ := List.mem_map.mp hd
  simp [unclosedToken, finding, delimiterCodes]

theorem map_unclosed {doc : Document} {begins : List Int} {ts : List Token} {os : List Opener}
    (h : List.Forall₂ (Awaits doc begins) ts os) (stop : Int) :
    os.map (unclosed doc stop) = ts.map (unclosedToken doc stop) := by
  induction h with
  | nil => rfl
  | cons ho _ ih =>
    rw [List.map_cons, List.map_cons, ih, unclosed, ho.kind, ho.start]
    rfl

namespace Kept

variable {doc : Document} {past : List Token} {w w' : Walk} {a : Account} {waiting : List Token}

section

variable (h : Kept doc past w a waiting)

include h

theorem mem_past {t : Token} (ht : t ∈ waiting ++ a.tokens) : t ∈ past :=
  List.mem_of_mem_filter (h.once.mem_iff.mp ht)

theorem pair_mem_past {p : Token × Token} (hp : p ∈ a.pairs) : p.1 ∈ past ∧ p.2 ∈ past := by
  refine ⟨h.mem_past ?_, h.mem_past ?_⟩
  · simp [Account.tokens, List.mem_map_of_mem hp]
  · simp [Account.tokens, List.mem_map_of_mem hp]

theorem starts_nodup : ((waiting ++ a.tokens).map (·.span.start)).Nodup := by
  refine (h.once.map _).nodup_iff.mpr (List.pairwise_map.mpr ?_)
  exact (h.ascending.filter _).imp fun hlt => Int.ne_of_lt hlt

theorem waiting_ne {t : Token} (ht : t ∈ waiting) {p : Token × Token} (hp : p ∈ a.pairs) :
    p.1.span.start ≠ t.span.start := by
  have hnodup := h.starts_nodup
  rw [List.map_append, List.nodup_append] at hnodup
  have hmem : p.1 ∈ a.tokens := by simp [Account.tokens, List.mem_map_of_mem hp]
  exact fun heq => hnodup.2.2 _ (List.mem_map_of_mem ht) _ (List.mem_map_of_mem hmem) heq.symm

theorem awaits {o : Opener} (ho : o ∈ w.stack) : ∃ t ∈ waiting, Awaits doc w.begins t o :=
  exists_of_forall₂ h.stack.flip ho

theorem closeAt_eq_none {o : Opener} (ho : o ∈ w.stack) {c : Call} (hc : c ∈ w.calls)
    (hopen : c.openAt = o.start) : c.closeAt = none := by
  obtain ⟨t, ht, hawaits⟩ := h.awaits ho
  refine Option.eq_none_iff_forall_ne_some.mpr fun stop hstop => ?_
  obtain ⟨p, hp, hstart, -⟩ := ((h.calls c hc).closing stop).mp hstop
  exact h.waiting_ne ht hp (hstart.trans (hopen.trans hawaits.start))

end

/-- The account of one more token, if no delimiter is lost or kept twice. -/
theorem once_more (h : Kept doc past w a waiting) {t : Token} {a' : Account} {waiting' : List Token}
    (hcount : ∀ x, (waiting' ++ a'.tokens).count x
      = (waiting ++ a.tokens).count x + ([t].filter isDelimiter).count x) :
    (waiting' ++ a'.tokens).Perm ((past ++ [t]).filter isDelimiter) := by
  refine List.perm_iff_count.mpr fun x => ?_
  rw [hcount, List.perm_iff_count.mp h.once x, List.filter_append, List.count_append]

theorem congr (h : Kept doc past w a waiting)
    (hs : List.Forall₂ (Awaits doc w'.begins) waiting w'.stack)
    (hc : w'.calls.map (fun c => (c.openAt, c.closeAt)) = w.calls.map fun c => (c.openAt, c.closeAt))
    (hd : ofDelimiters w'.diagnostics = a.reported.map Prod.snd) :
    Kept doc past w' a waiting := by
  have hbegins : w'.begins = w.begins := by
    have hfst := congrArg (List.map Prod.fst) hc
    rwa [List.map_map, List.map_map] at hfst
  refine { h with stack := hs, findings := hd, ascends := hbegins ▸ h.ascends, calls := fun c hm => ?_ }
  have hmem : (c.openAt, c.closeAt) ∈ w.calls.map fun c => (c.openAt, c.closeAt) :=
    hc ▸ List.mem_map_of_mem (f := fun c : Call => (c.openAt, c.closeAt)) hm
  obtain ⟨c', hm', heq⟩ := List.mem_map.mp hmem
  obtain ⟨hopen, hclose⟩ := Prod.mk.inj heq
  exact (h.calls c' hm').congr hopen hclose

section Later

variable (h : Kept doc past w a waiting) {t : Token} (ht : ∀ u ∈ past, u.span.start < t.span.start)

include h ht

theorem ascending_later : (past ++ [t]).Pairwise fun t u => t.span.start < u.span.start :=
  List.pairwise_append.mpr ⟨h.ascending, List.pairwise_singleton _ _, fun u hu _ hm => by
    rw [List.mem_singleton.mp hm]
    exact ht u hu⟩

theorem begins_later : ∀ b ∈ w.begins, b < t.span.start := by
  intro b hb
  obtain ⟨c, hc, rfl⟩ := List.mem_map.mp hb
  obtain ⟨u, hu, -, hstart⟩ := (h.calls c hc).opening
  exact hstart ▸ ht u hu

theorem more (hk : isDelimiter t = false) : Kept doc (past ++ [t]) w a waiting :=
  { h with
    holds := h.holds.more (List.subset_append_left _ _)
    once := by simpa [List.filter_append, hk] using h.once
    ascending := h.ascending_later ht
    calls := fun c hc => (h.calls c hc).more (List.subset_append_left _ _) }

theorem opens (hk : t.kind.isOpen = true) (hs : w'.stack = opener doc w t :: w.markContent.stack)
    (hc : w'.calls = w.calls ++ (newCall? doc w t).toList) (hd : w'.diagnostics = w.diagnostics) :
    Kept doc (past ++ [t]) w' a (t :: waiting) := by
  have hlater := h.begins_later ht
  have hbegins : w'.begins = w.begins ++ (newCall? doc w t).toList.map (·.openAt) := by
    rw [begins, hc, List.map_append]
    rfl
  have hnew := newCall?_begins doc w t
  have hpast : past ⊆ past ++ [t] := List.subset_append_left _ _
  have hbefore : ∀ u ∈ waiting, u.span.start < t.span.start := fun u hu =>
    ht u (h.mem_past (List.mem_append_left _ hu))
  refine ⟨h.holds.more hpast, ?_, h.ascending_later ht, ?_, List.pairwise_cons.mpr ⟨hbefore, h.inward⟩,
    fun p hp => List.forall_mem_cons.mpr ⟨fun hin => ?_, h.clear p hp⟩, hd ▸ h.findings, ?_, fun c hm => ?_⟩
  · refine h.once_more fun x => ?_
    simp only [List.filter_cons, isDelimiter, hk, Bool.true_or, if_true, List.filter_nil, List.count_append,
      List.count_cons, List.count_nil]
    omega
  · rw [hs, hbegins]
    refine .cons (awaits_opener doc w hk hlater) (forall₂_imp_mem (forall₂_markContent h.stack)
      fun u hu o ho => ho.append fun b hb => ?_)
    rw [hnew b hb]
    exact (Int.ne_of_lt (hbefore u hu)).symm
  · have hend := ht p.2 (h.pair_mem_past hp).2
    omega
  · rw [hbegins, List.pairwise_append]
    refine ⟨h.ascends, ?_, fun b hb b' hb' => hnew b' hb' ▸ hlater b hb⟩
    cases newCall? doc w t <;> simp
  · rw [hc] at hm
    rcases List.mem_append.mp hm with hm | hm
    · exact (h.calls c hm).more hpast
    · obtain ⟨hparen, hopen, hclose, -⟩ := newCall?_eq_some (Option.mem_toList.mp hm)
      refine ⟨⟨t, by simp, hparen, hopen.symm⟩, fun stop => ?_⟩
      simp only [hclose, reduceCtorEq, false_iff]
      rintro ⟨p, hp, heq, -⟩
      have hearlier := ht p.1 (h.pair_mem_past hp).1
      omega

theorem holds_pair {skipped rest : List Token} {o : Token} (hw : waiting = skipped ++ o :: rest)
    (hopen : ∀ u ∈ waiting, u.kind.isOpen = true) (hfit : t.kind = o.kind.closer) :
    Account.Holds doc (past ++ [t])
      { a with
        pairs := (o, t) :: a.pairs
        reported := a.reported ++ skipped.map fun u => (u, unclosedToken doc t.span.start u) } := by
  have hpast : past ⊆ past ++ [t] := List.subset_append_left _ _
  have hmore := h.holds.more hpast
  have ho : o ∈ waiting := by simp [hw]
  have hlt := ht o (h.mem_past (List.mem_append_left _ ho))
  refine ⟨List.forall_mem_cons.mpr ⟨⟨hopen o ho, hfit, hlt⟩, hmore.matched⟩, ?_, ?_, hmore.dropped⟩
  -- An older pair ends before the new one, and the delimiter that waited does not lie in it.
  · have hend : ∀ p ∈ a.pairs, p.2.span.start < t.span.start := fun p hp => ht p.2 (h.pair_mem_past hp).2
    refine List.forall_mem_cons.mpr ⟨List.forall_mem_cons.mpr ⟨?_, fun q hq => ?_⟩, fun p hp =>
      List.forall_mem_cons.mpr ⟨?_, hmore.uncrossed p hp⟩⟩
    · simp only
      omega
    · have hbefore := hend q hq
      simp only
      omega
    · have hclear := h.clear p hp o ho
      simp only
      omega
  · intro r hr
    rcases List.mem_append.mp hr with hr | hr
    · exact hmore.reported r hr
    · obtain ⟨u, hu, rfl⟩ := List.mem_map.mp hr
      exact .unclosed (hopen u (by simp [hw, hu])) rfl rfl

omit ht in
theorem tells_pair {o : Token} (ho : o ∈ waiting) {c : Call} (hc : c ∈ w.calls) (content : Bool) :
    TellsClosing (past ++ [t]) ((o, t) :: a.pairs)
      (if c.openAt = o.span.start then c.close t.span.start content else c) := by
  have htells := (h.calls c hc).more (List.subset_append_left past [t])
  split
  · rename_i hsame
    refine ⟨htells.opening, fun stop => ?_⟩
    simp only [Call.close, Option.some.injEq, List.mem_cons]
    constructor
    · rintro rfl
      exact ⟨(o, t), .inl rfl, hsame.symm, rfl⟩
    · rintro ⟨p, rfl | hp, hstart, hstop⟩
      · exact hstop
      · exact absurd (hstart.trans hsame) (h.waiting_ne ho hp)
  · rename_i hother
    refine ⟨htells.opening, fun stop => (htells.closing stop).trans ?_⟩
    simp [Ne.symm hother]

/-- A closing delimiter makes a pair with the innermost one that it fits, and those inside are reported. -/
theorem closes {skipped rest : List Opener} {top : Opener} (hk : t.kind.isClose = true)
    (hsplit : w.stack = skipped ++ top :: rest) (hfit : top.kind.closer = t.kind) (hs : w'.stack = rest)
    (hc : w'.calls = top.alter (·.close t.span.start top.content) w.calls)
    (hd : w'.diagnostics = w.diagnostics ++ skipped.map (unclosed doc t.span.start)) :
    ∃ waiting' reported o, Kept doc (past ++ [t]) w'
      { a with pairs := (o, t) :: a.pairs, reported := a.reported ++ reported } waiting' := by
  have hstack := h.stack
  rw [hsplit] at hstack
  obtain ⟨inside, back, rfl, hinside, hback⟩ := forall₂_split hstack
  obtain ⟨o, outside, ho, houtside, rfl⟩ := List.forall₂_cons_right_iff.mp hback
  have hbegins : w'.begins = w.begins := by
    rw [begins, hc]
    exact alter_map top _ fun _ => rfl
  have hinward := (List.pairwise_append.mp h.inward).2.1
  obtain ⟨hbefore, hinward⟩ := List.pairwise_cons.mp hinward
  refine ⟨outside, inside.map fun u => (u, unclosedToken doc t.span.start u), o,
    h.holds_pair ht rfl (forall₂_isOpen h.stack) (by rw [← hfit, ho.kind]), ?_, h.ascending_later ht,
    hs ▸ hbegins ▸ houtside, hinward, ?_, ?_, hbegins ▸ h.ascends, fun c hm => ?_⟩
  · refine h.once_more fun x => ?_
    simp only [Account.tokens, List.filter_cons, isDelimiter, hk, Bool.or_true, if_true, List.filter_nil,
      List.map_cons, List.map_append, List.map_map, Function.comp_def, List.map_id', List.count_append,
      List.count_cons, List.count_nil]
    omega
  · refine List.forall_mem_cons.mpr ⟨fun u hu => ?_, fun p hp u hu => h.clear p hp u (by simp [hu])⟩
    have hlow := hbefore u hu
    simp only
    omega
  · rw [hd, ofDelimiters_append, h.findings, map_unclosed hinside, ofDelimiters_unclosed, List.map_append,
      List.map_map]
    rfl
  · rw [hc] at hm
    obtain ⟨c', hm', rfl⟩ := mem_alter ho hm
    exact h.tells_pair (by simp) hm' top.content

theorem strays {code : String} {message : Bytes} (hk : t.kind.isClose = true)
    (hcode : code = unexpectedCode ∨ code = mismatchedCode) (hs : w'.stack = w.stack)
    (hc : w'.calls = w.calls) (hd : w'.diagnostics
      = w.diagnostics ++ [finding doc t.span.start t.span.stop .error code message]) :
    Kept doc (past ++ [t]) w' { a with
      reported := a.reported ++ [(t, finding doc t.span.start t.span.stop .error code message)] } waiting := by
  have hpast : past ⊆ past ++ [t] := List.subset_append_left _ _
  have hbegins := begins_congr hc
  refine ⟨{ h.holds.more hpast with reported := fun r hr => ?_ }, ?_, h.ascending_later ht,
    hs ▸ hbegins ▸ h.stack, h.inward, h.clear, ?_, hbegins ▸ h.ascends,
    fun c hm => (h.calls c (hc ▸ hm)).more hpast⟩
  · rcases List.mem_append.mp hr with hr | hr
    · exact h.holds.reported r hr
    · rw [List.mem_singleton.mp hr]
      rcases hcode with rfl | rfl
      · exact .unexpected hk rfl rfl
      · exact .mismatched hk rfl rfl
  · refine h.once_more fun x => ?_
    simp only [Account.tokens, List.filter_cons, isDelimiter, hk, Bool.or_true, if_true, List.filter_nil,
      List.map_cons, List.map_append, List.map_nil, List.count_append, List.count_cons, List.count_nil]
    omega
  · have hone : ofDelimiters [finding doc t.span.start t.span.stop .error code message]
        = [finding doc t.span.start t.span.stop .error code message] := by
      rcases hcode with rfl | rfl <;> simp [ofDelimiters, finding, delimiterCodes]
    rw [hd, ofDelimiters_append, h.findings, hone, List.map_append]
    rfl

/-- A broken literal drops the delimiters of its line up to the innermost brace. -/
theorem drops {dropped : List Opener} {message : Bytes} (hk : BrokenLiteral t)
    (hsplit : w.markContent.stack = dropped ++ w'.stack)
    (hline : ∀ o ∈ dropped, o.line = doc.lineAt t.span.start ∧ o.kind ≠ .braceOpen)
    (hc : w'.calls = w.calls) (hd : w'.diagnostics = w.diagnostics
      ++ [finding doc t.span.start t.span.stop .error unterminatedStringCode message]) :
    ∃ waiting' gone, Kept doc (past ++ [t]) w' { a with dropped := a.dropped ++ gone } waiting' := by
  have hword : isDelimiter t = false := by simp [isDelimiter, hk.kind, TokenKind.isOpen, TokenKind.isClose]
  have hpast : past ⊆ past ++ [t] := List.subset_append_left _ _
  have hbegins := begins_congr hc
  have hstack := forall₂_markContent h.stack
  rw [hsplit] at hstack
  obtain ⟨gone, kept, rfl, hgone, hkept⟩ := forall₂_split hstack
  refine ⟨kept, gone, { h.holds.more hpast with dropped := fun u hu => ?_ }, ?_, h.ascending_later ht,
    hbegins ▸ hkept, (List.pairwise_append.mp h.inward).2.1,
    fun p hp u hu => h.clear p hp u (List.mem_append_right _ hu), ?_, hbegins ▸ h.ascends,
    fun c hm => (h.calls c (hc ▸ hm)).more hpast⟩
  · rcases List.mem_append.mp hu with hu | hu
    · exact (h.holds.more hpast).dropped u hu
    · obtain ⟨o, ho, hawaits⟩ := exists_of_forall₂ hgone hu
      obtain ⟨hsame, hbrace⟩ := hline o ho
      have hopen := hawaits.isOpen
      rw [hawaits.kind] at hbrace
      refine ⟨?_, t, by simp, hk, ht u (h.mem_past (by simp [hu])), by rw [← hawaits.line, hsame]⟩
      revert hopen hbrace
      cases u.kind <;> simp [TokenKind.isOpen]
  · refine h.once_more fun x => ?_
    simp only [Account.tokens, List.filter_cons, hword, Bool.false_eq_true, if_false, List.filter_nil,
      List.count_append, List.count_nil]
    omega
  · rw [hd, ofDelimiters_append, h.findings]
    simp [ofDelimiters, finding, delimiterCodes, unterminatedStringCode, unclosedCode, mismatchedCode, unexpectedCode]

theorem stays (hk : isDelimiter t = false) (hs : w'.stack = w.markContent.stack)
    (hc : w'.calls.map (fun c => (c.openAt, c.closeAt)) = w.calls.map fun c => (c.openAt, c.closeAt))
    (hd : ofDelimiters w'.diagnostics = ofDelimiters w.diagnostics) :
    Kept doc (past ++ [t]) w' a waiting := by
  have hbegins : w'.begins = w.begins := by
    have hfst := congrArg (List.map Prod.fst) hc
    rwa [List.map_map, List.map_map] at hfst
  exact (h.more ht hk).congr (hs ▸ hbegins ▸ forall₂_markContent h.stack) hc (hd.trans h.findings)

/-- Any token moves delimiters from one part of the account to another. -/
theorem step (hbroken : t.kind = .error → t.text ≠ utf8 Lexer.unterminatedComment → BrokenLiteral t) :
    ∃ a' waiting', Kept doc (past ++ [t]) (Walk.step doc w t) a' waiting' ∧
      ∃ new, a'.pairs = new ++ a.pairs ∧ ∀ p ∈ new, p.2 = t := by
  cases step_move doc w t with
  | opens hk hs hc hd => exact ⟨a, _, h.opens ht hk hs hc hd, [], rfl, by simp⟩
  | closes hk hsplit hfit hs hc hd =>
    obtain ⟨waiting', reported, o, hkept⟩ := h.closes ht hk hsplit hfit hs hc hd
    exact ⟨_, waiting', hkept, [(o, t)], rfl, by simp⟩
  | stray hk hcode hs hc hd => exact ⟨_, waiting, h.strays ht hk hcode hs hc hd, [], rfl, by simp⟩
  | drops hk htext hsplit hline hc hd =>
    obtain ⟨waiting', gone, hkept⟩ := h.drops ht (hbroken hk htext) hsplit hline hc hd
    exact ⟨_, waiting', hkept, [], rfl, by simp⟩
  | comma hk hs hc hd =>
    refine ⟨a, waiting, h.stays ht (by simp [isDelimiter, hk, TokenKind.isOpen, TokenKind.isClose]) hs ?_
      (congrArg _ hd), [], rfl, by simp⟩
    rw [hc]
    cases w.markContent.stack.head? with
    | none => rfl
    | some o => exact alter_map o _ fun _ => rfl
  | @remarks severity code message ho hk _ hcode hs hc hd =>
    refine ⟨a, waiting, h.stays ht (by simp [isDelimiter, ho, hk]) hs (congrArg _ hc) ?_, [], rfl, by simp⟩
    have hnone : ofDelimiters [finding doc t.span.start t.span.stop severity code message] = [] :=
      ofDelimiters_eq_nil.mpr (by simpa [finding] using hcode)
    rw [hd, ofDelimiters_append, hnone, List.append_nil]
  | passes ho hk _ hs hc hd =>
    exact ⟨a, waiting, h.stays ht (by simp [isDelimiter, ho, hk]) hs (congrArg _ hc) (congrArg _ hd), [], rfl,
      by simp⟩

end Later

theorem finish (h : Kept doc past w a waiting) (stop : Nat) :
    Kept doc past (Walk.finish doc stop w)
      { a with reported := a.reported ++ waiting.map fun t => (t, unclosedToken doc stop t) } [] := by
  have hopen := forall₂_isOpen h.stack
  refine { h with
    holds := { h.holds with reported := fun r hr => ?_ }, once := ?_, stack := .nil, inward := .nil
    clear := by simp, findings := ?_ }
  · rcases List.mem_append.mp hr with hr | hr
    · exact h.holds.reported r hr
    · obtain ⟨t, ht, rfl⟩ := List.mem_map.mp hr
      exact .unclosed (hopen t ht) rfl rfl
  · refine List.Perm.trans (List.perm_iff_count.mpr fun x => ?_) h.once
    simp only [Account.tokens, List.map_append, List.map_map, Function.comp_def, List.map_id',
      List.count_append, List.count_nil]
    omega
  · rw [Walk.finish, report_diagnostics, ofDelimiters_append, h.findings, map_unclosed h.stack,
      ofDelimiters_unclosed, List.map_append, List.map_map]
    rfl

theorem foldl {tokens : List Token} (h : Kept doc past w a waiting)
    (hasc : (past ++ tokens).Pairwise fun t u => t.span.start < u.span.start)
    (hbroken : ∀ t ∈ tokens, t.kind = .error → t.text ≠ utf8 Lexer.unterminatedComment → BrokenLiteral t) :
    ∃ a' waiting', Kept doc (past ++ tokens) (tokens.foldl (Walk.step doc) w) a' waiting' ∧
      ∃ new, a'.pairs = new ++ a.pairs ∧ ∀ p ∈ new, p.2 ∈ tokens := by
  -- Account and waiting delimiters change with the walk, and pairs are only added.
  induction tokens generalizing past w a waiting with
  | nil => exact ⟨a, waiting, by simpa using h, [], rfl, by simp⟩
  | cons t tokens ih =>
    have hlater : ∀ u ∈ past, u.span.start < t.span.start := fun u hu =>
      (List.pairwise_append.mp hasc).2.2 u hu t List.mem_cons_self
    obtain ⟨hhere, hrest⟩ := List.forall_mem_cons.mp hbroken
    obtain ⟨a₁, waiting₁, h₁, new₁, hpairs₁, hnew₁⟩ := h.step hlater hhere
    obtain ⟨a₂, waiting₂, h₂, new₂, hpairs₂, hnew₂⟩ := ih h₁ (by simpa using hasc) hrest
    refine ⟨a₂, waiting₂, by simpa using h₂, new₂ ++ new₁, by simp [hpairs₂, hpairs₁], fun p hp => ?_⟩
    rcases List.mem_append.mp hp with hp | hp
    · exact List.mem_cons_of_mem _ (hnew₂ p hp)
    · exact hnew₁ p hp ▸ List.mem_cons_self

end Kept

theorem kept_empty (doc : Document) : Kept doc [] {} {} [] := by
  refine ⟨⟨?_, ?_, ?_, ?_⟩, ?_, .nil, .nil, .nil, ?_, rfl, .nil, ?_⟩ <;> simp [Account.tokens]

end Walk

theorem isDelimiter_codeTokens (tokens : List Token) :
    (codeTokens tokens).filter isDelimiter = tokens.filter isDelimiter := by
  rw [codeTokens, List.filter_filter]
  refine List.filter_congr fun t _ => ?_
  simp only [isDelimiter]
  cases t.kind <;> rfl

theorem brokenLiteral_of_mem {doc : Document} {block : Block} {t : Token} (ht : t ∈ bodyTokens doc block)
    (hk : t.kind = .error) (htext : t.text ≠ utf8 Lexer.unterminatedComment) : BrokenLiteral t := by
  rcases Lexer.mem_tokensFrom (Scanner.ofSpan_reads doc.text block.bodyStart block.bodyEnd) ht with
    rfl | ⟨_, r, rest, htaken⟩
  · cases hk
  · have hclass := htaken.inClass
    rw [hk] at hclass
    rcases hclass with ⟨hcomment, -⟩ | ⟨hstring, -⟩ | ⟨hchar, -⟩
    · exact absurd hcomment htext
    · exact ⟨hk, .inl hstring⟩
    · exact ⟨hk, .inr hchar⟩

theorem codeTokens_ascending (doc : Document) (block : Block) :
    (codeTokens (bodyTokens doc block)).Pairwise fun t u => t.span.start < u.span.start :=
  bodyWords_ascending.sublist (codeTokens_sublist doc block)

theorem walk_kept (doc : Document) (block : Block) :
    ∃ a, Walk.Kept doc (codeTokens (bodyTokens doc block)) (walk doc block (bodyTokens doc block)) a [] := by
  obtain ⟨a, waiting, h, -⟩ := (Walk.kept_empty doc).foldl (codeTokens_ascending doc block) fun t ht =>
    brokenLiteral_of_mem (List.mem_of_mem_filter ht)
  exact ⟨_, h.finish block.stop⟩

theorem delimiters_places_nodup {doc : Document} {block : Block} (hb : block ∈ Block.scan doc) :
    (((bodyTokens doc block).filter isDelimiter).map (place doc)).Nodup := by
  rw [← isDelimiter_codeTokens]
  exact (places_nodup hb).sublist ((List.filter_sublist.trans (codeTokens_sublist doc block)).map _)

section Run

variable [Similar.Matcher] {ws : Workspace} {source : Supply} {origin : Origin} {block : Block} {strict : Bool}
  {file : HostFile}
  (hf : source block.uri = .ok file)

include hf

theorem exists_run (hi : strict = true → ∃ ix, ReadM.run source ws.index = .ok ix) :
    ∃ result, ReadM.run source (run ws origin block strict) = .ok result := by
  cases strict with
  | false => exact ⟨_, run_local ws hf origin⟩
  | true =>
    obtain ⟨ix, hi⟩ := hi rfl
    exact ⟨_, run_strict hi hf origin⟩

/-- However strictly a block is read, its calls and the findings about its delimiters are those of the walk. -/
theorem run_structure {result : ParseResult} (hr : ReadM.run source (run ws origin block strict) = .ok result) :
    result.calls = (structureOf file.doc block).calls ∧
      (ofDelimiters result.diagnostics).Perm (ofDelimiters (structureOf file.doc block).diagnostics) := by
  cases strict with
  | false =>
    obtain rfl := Except.ok.inj (hr.symm.trans (run_local ws hf origin))
    exact ⟨rfl, ofDocument_ofDelimiters ws file.doc block⟩
  | true =>
    obtain ⟨file', ix, hf', rfl⟩ := exists_of_run_strict hr
    obtain rfl := Except.ok.inj (hf'.symm.trans hf)
    exact ⟨rfl, strictly_ofDelimiters ws ix origin file'.doc block⟩

end Run

/-- Every delimiter of a block is paired, reported once or dropped because of a broken literal, and a call
is closed exactly if its parenthesis is paired. No two delimiters begin at one place, so the place of a
finding tells which one it is about. -/
theorem run_covers [Similar.Matcher] (ws : Workspace) {source : Supply} (origin : Origin) {block : Block}
    (strict : Bool) {file : HostFile} (hf : source block.uri = .ok file) (hb : block ∈ file.blocks) :
    ((strict = true → ∃ ix, ReadM.run source ws.index = .ok ix) →
      ∃ result, ReadM.run source (run ws origin block strict) = .ok result) ∧
    ∀ result, ReadM.run source (run ws origin block strict) = .ok result →
      (((bodyTokens file.doc block).filter isDelimiter).map (place file.doc)).Nodup ∧
        ∃ a : Account, a.Covers file.doc (bodyTokens file.doc block) result := by
  rw [file.blocks_eq] at hb
  refine ⟨exists_run hf, fun result hr => ⟨delimiters_places_nodup hb, ?_⟩⟩
  obtain ⟨hcalls, hfindings⟩ := run_structure hf hr
  obtain ⟨a, h⟩ := walk_kept file.doc block
  have hsub : codeTokens (bodyTokens file.doc block) ⊆ bodyTokens file.doc block :=
    List.filter_sublist.subset
  refine ⟨a, h.holds.more hsub, ?_, ?_, fun c hc => ?_⟩
  · rw [← isDelimiter_codeTokens]
    exact h.once
  · exact (List.Perm.of_eq h.findings.symm).trans hfindings.symm
  · rw [hcalls] at hc
    exact (h.calls c hc).more hsub

/-- A call within brackets whose end is missing, a broken string, a parenthesis that closes nothing, and
brackets within a brace that is not closed. -/
def tornText : Document :=
  .ofText "a" (utf8 "SCRIPT:1,A\nX.A([Y.B(1], 2)\nf(\"x\n)\n\x7b ]\nENDSCRIPT\n")

def tornBlock : Block := .close tornText ⟨0, .script, utf8 "1,A"⟩ 38 47 true

theorem run_covers_torn :
    let source : Supply := fun _ => .ok (.ofDocument tornText)
    tornBlock ∈ (HostFile.ofDocument tornText).blocks ∧
      ((structureOf tornText tornBlock).diagnostics.map (·.code)
        = [unclosedCode, unterminatedStringCode, unexpectedCode, mismatchedCode, unclosedCode]) ∧
      ((structureOf tornText tornBlock).calls.map (·.closeAt) = [some 25, none]) ∧ ∃ result,
        ReadM.run source (run ⟨["a"], none⟩ .workspace tornBlock true) = .ok result ∧
          (((bodyTokens tornText tornBlock).filter isDelimiter).map (place tornText)).Nodup ∧
          ∃ a : Account, a.Covers tornText (bodyTokens tornText tornBlock) result := by
  intro source
  have hscan : Block.scan tornText = [tornBlock] := by decide +kernel
  have hb : tornBlock ∈ (HostFile.ofDocument tornText).blocks := by
    rw [HostFile.blocks_eq]
    exact hscan ▸ List.mem_singleton_self _
  have hf : source tornBlock.uri = .ok (.ofDocument tornText) := rfl
  have hcovers := run_covers ⟨["a"], none⟩ .workspace true hf hb
  obtain ⟨result, hr⟩ := hcovers.1 fun _ => ⟨_, rfl⟩
  exact ⟨hb, by decide +kernel, by decide +kernel, result, hr, hcovers.2 result hr⟩

end Parse

end HostScript
