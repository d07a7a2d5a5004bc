import HostScript.InsertPoint
import HostScript.Proofs.Block.Content

/-!
The order of the blocks of one kind: by number, and insertions with the same number by the name of
their hook. A block that is put behind all those that go before it keeps the others in order.
-/

set_option autoImplicit false

namespace HostScript

theorem Bytes.less_iff {as bs : Bytes} : less as bs = true ↔ as < bs := by
  fun_induction less as bs with
  | case1 as => simp
  | case2 b bs => simp
  | case3 a as b bs ih =>
    simp only [Bool.or_eq_true, Bool.and_eq_true, decide_eq_true_eq, beq_iff_eq, ih,
      List.cons_lt_cons_iff]

namespace InsertPoint

structure Key where
  number : Nat
  name : Bytes
  deriving DecidableEq

namespace Key

def before (a b : Key) : Bool := a.number < b.number || (a.number == b.number && a.name.less b.name)

theorem before_iff {a b : Key} : a.before b = true ↔
    a.number < b.number ∨ a.number = b.number ∧ a.name < b.name := by
  simp [before, Bytes.less_iff]

theorem before_eq_false_iff {a b : Key} : a.before b = false ↔
    b.number < a.number ∨ b.number = a.number ∧ b.name ≤ a.name := by
  rw [← Bool.not_eq_true, before_iff, ← List.not_lt]
  rcases Nat.lt_trichotomy a.number b.number with h | h | h
  · simp [h, Nat.lt_asymm h, Nat.ne_of_gt h]
  · simp [h]
  · simp [h, Nat.lt_asymm h, Nat.ne_of_gt h]

theorem before_asymm {a b : Key} (h : a.before b = true) : b.before a = false := by
  rw [before_iff] at h
  rw [before_eq_false_iff]
  exact h.imp_right fun h => ⟨h.1, List.le_of_lt h.2⟩

theorem before_trans {a b c : Key} (hab : b.before a = false) (hbc : b.before c = true) :
    a.before c = true := by
  rw [before_eq_false_iff] at hab
  rw [before_iff] at hbc ⊢
  rcases hab with hab | ⟨hab, hle⟩
  · left
    omega
  · rcases hbc with hbc | ⟨hbc, hlt⟩
    · left
      omega
    · exact Or.inr ⟨hab.trans hbc, List.lt_of_le_of_lt hle hlt⟩

theorem before_of_ne {a b : Key} (h : b.before a = false) (hn : b ≠ a) : a.before b = true := by
  cases hab : a.before b with
  | true => rfl
  | false =>
    rw [before_eq_false_iff] at h hab
    rcases h with h | ⟨hnumber, hle⟩
    · omega
    · rcases hab with hab | ⟨_, hge⟩
      · omega
      · cases a
        cases b
        simp only at hnumber hle hge
        exact absurd (by rw [hnumber, List.le_antisymm hge hle]) hn

end Key

/-- The key of a header that has the given kind and a number. Only insertions are ordered by name. -/
def keyOf? (kind : BlockKind) (h : Block.Header) : Option Key :=
  if h.kind = kind then h.number.map fun n => ⟨n, if kind = .script then [] else h.name⟩ else none

def keys (kind : BlockKind) (blocks : List Block.Content) : List Key :=
  blocks.filterMap fun c => keyOf? kind c.header

def Ascending (ks : List Key) : Prop := ks.Pairwise fun a b => b.before a = false

def StrictlyAscending (ks : List Key) : Prop := ks.Pairwise fun a b => a.before b = true

section Wanted

variable {number : Nat} {hook : Bytes} {b : Block}

theorem keyOf?_eq_some {kind : BlockKind} {k : Key} : keyOf? kind b.header = some k ↔
    b.kind = kind ∧ b.number = some k.number ∧ k.name = if kind = .script then [] else b.name := by
  by_cases hkind : b.kind = kind
  · simp only [keyOf?, Block.header, hkind, if_true, true_and, Option.map_eq_some_iff]
    constructor
    · rintro ⟨n, hn, rfl⟩
      exact ⟨hn, rfl⟩
    · rintro ⟨hn, hname⟩
      exact ⟨k.number, hn, by rw [← hname]⟩
  · simp [keyOf?, Block.header, hkind]

theorem keyOf?_isSome {kind : BlockKind} :
    (keyOf? kind b.header).isSome = (b.kind == kind && b.number.isSome) := by
  by_cases hkind : b.kind = kind
  · simp [keyOf?, Block.header, hkind]
  · simp [keyOf?, Block.header, hkind]

theorem hook_of_script (h : kindOf hook = .script) : hook = [] := by
  simpa [kindOf] using h

theorem goesBefore_eq {k : Key} (h : keyOf? (kindOf hook) b.header = some k) :
    goesBefore number hook b = k.before ⟨number, hook⟩ := by
  obtain ⟨_, hn, hname⟩ := keyOf?_eq_some.mp h
  have hid : b.id = k.number := by simp [Block.id, hn]
  have hnil (bs : Bytes) : bs.less [] = false := by cases bs <;> rfl
  have heq : ((k.number : Int) == number) = (k.number == number) := by
    rw [Bool.eq_iff_iff, beq_iff_eq, beq_iff_eq, Int.ofNat_inj]
  by_cases hs : kindOf hook = .script
  · simp [goesBefore, Key.before, hid, hook_of_script hs, hnil]
  · simp [goesBefore, Key.before, hid, hname, hs, heq]

theorem isWanted_of_keyOf? (h : keyOf? (kindOf hook) b.header = some ⟨number, hook⟩) :
    isWanted number hook b = true := by
  obtain ⟨hkind, hn, hname⟩ := keyOf?_eq_some.mp h
  have hid : b.id = number := by simp [Block.id, hn]
  by_cases hs : kindOf hook = .script
  · simp [isWanted, hkind, hid, hs]
  · simp only [hs, if_false] at hname
    simp [isWanted, hkind, hid, hname]

end Wanted

theorem StrictlyAscending.ascending {ks : List Key} (h : StrictlyAscending ks) : Ascending ks :=
  h.imp Key.before_asymm

theorem keys_content (d : Document) (kind : BlockKind) (blocks : List Block) :
    keys kind (blocks.map (·.content d)) = blocks.filterMap fun b => keyOf? kind b.header := by
  rw [keys, List.filterMap_map]
  rfl

theorem mem_keys_content {d : Document} {kind : BlockKind} {blocks : List Block} {k : Key} :
    k ∈ keys kind (blocks.map (·.content d)) ↔ ∃ b ∈ blocks, keyOf? kind b.header = some k := by
  rw [keys_content, List.mem_filterMap]

/-- The offset is one at which a block with the key belongs: blocks that begin later do not go before
it, and blocks that begin earlier do not stand behind all that go before it. -/
structure Fits (d : Document) (kind : BlockKind) (key : Key) (offset : Nat) : Prop where
  later : ∀ b ∈ Block.scan d, ∀ k, keyOf? kind b.header = some k → offset ≤ b.start →
    k.before key = false
  earlier : ∀ b ∈ Block.scan d, ∀ k, keyOf? kind b.header = some k → b.start < offset →
    ∃ p ∈ Block.scan d, ∃ q, keyOf? kind p.header = some q ∧ q.before key = true ∧ b.start ≤ p.start

namespace Fits

variable {d : Document} {kind : BlockKind} {key : Key} {offset : Nat}

theorem before_of_earlier (hf : Fits d kind key offset)
    (ha : Ascending (keys kind (Block.contents d))) {b : Block}
    (hb : b ∈ Block.scan d) {k : Key} (hk : keyOf? kind b.header = some k) (hlt : b.start < offset) :
    k.before key = true := by
  obtain ⟨p, hp, q, hq, hbefore, hle⟩ := hf.earlier b hb k hk hlt
  rcases Nat.lt_or_eq_of_le hle with hlt | heq
  · rw [Ascending, Block.contents, keys_content, List.pairwise_filterMap] at ha
    exact Key.before_trans (Block.rel_of_start_lt ha hb hp hlt k hk q hq) hbefore
  · obtain rfl := Block.eq_of_start_eq hb hp heq
    obtain rfl : k = q := Option.some.inj (hk.symm.trans hq)
    exact hbefore

variable {before after : List Block} (hs : Block.scan d = before ++ after)
  (hb : ∀ b ∈ before, b.start < offset) (ha : ∀ b ∈ after, offset ≤ b.start)

include hs hb ha

/-- A relation of keys that holds along the blocks holds with the new key among them, if it holds
between that key and the others. -/
theorem pairwise_insert {R : Key → Key → Prop}
    (hr : (keys kind (Block.contents d)).Pairwise R)
    (hearlier : ∀ b ∈ Block.scan d, ∀ k, keyOf? kind b.header = some k → b.start < offset → R k key)
    (hlater : ∀ b ∈ Block.scan d, ∀ k, keyOf? kind b.header = some k → offset ≤ b.start → R key k) :
    (keys kind (before.map (·.content d)) ++ key :: keys kind (after.map (·.content d))).Pairwise R := by
  have hsplit : keys kind (Block.contents d)
      = keys kind (before.map (·.content d)) ++ keys kind (after.map (·.content d)) := by
    rw [Block.contents, hs, List.map_append, keys, List.filterMap_append]
    rfl
  rw [hsplit, List.pairwise_append] at hr
  rw [List.pairwise_append, List.pairwise_cons]
  refine ⟨hr.1, ⟨fun k hk => ?_, hr.2.1⟩, fun k hk l hl => ?_⟩
  · obtain ⟨b, hm, hk⟩ := mem_keys_content.mp hk
    exact hlater b (hs ▸ List.mem_append_right _ hm) k hk (ha b hm)
  · rcases List.mem_cons.mp hl with rfl | hl
    · obtain ⟨b, hm, hk⟩ := mem_keys_content.mp hk
      exact hearlier b (hs ▸ List.mem_append_left _ hm) k hk (hb b hm)
    · exact hr.2.2 k hk l hl

theorem ascending_insert (hf : Fits d kind key offset)
    (h : Ascending (keys kind (Block.contents d))) :
    Ascending (keys kind (before.map (·.content d)) ++ key :: keys kind (after.map (·.content d))) :=
  pairwise_insert hs hb ha h
    (fun _ hb _ hk hlt => Key.before_asymm (hf.before_of_earlier h hb hk hlt)) hf.later

theorem strictlyAscending_insert (hf : Fits d kind key offset)
    (hn : ∀ b ∈ Block.scan d, keyOf? kind b.header ≠ some key)
    (h : StrictlyAscending (keys kind (Block.contents d))) :
    StrictlyAscending
      (keys kind (before.map (·.content d)) ++ key :: keys kind (after.map (·.content d))) := by
  refine pairwise_insert hs hb ha h (fun _ hb _ hk hlt => hf.before_of_earlier h.ascending hb hk hlt) ?_
  intro b hb k hk hle
  refine Key.before_of_ne (hf.later b hb k hk hle) ?_
  rintro rfl
  exact hn b hb hk

end Fits

end InsertPoint

end HostScript
