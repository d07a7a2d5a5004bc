import HostScript.Catalog.Yaml
import HostScript.Proofs.Check.Codes
import HostScript.Similar

set_option autoImplicit false

namespace HostScript

theorem Precedence.find?_last_iff {α : Type} {p : α → Bool} {xs : List α} {a : α} :
    Precedence.last.find? p xs = some a ↔
      p a = true ∧ ∃ before after, xs = before ++ a :: after ∧ ∀ b ∈ after, p b = false := by
  rw [find?, List.find?_eq_some_iff_append]
  refine and_congr_right fun _ => ⟨?_, ?_⟩
  · rintro ⟨before, after, hs, hn⟩
    have hxs := congrArg List.reverse hs
    rw [List.reverse_reverse, List.reverse_append, List.reverse_cons, List.append_assoc,
      List.singleton_append] at hxs
    exact ⟨after.reverse, before.reverse, hxs, fun b hb => by simpa using hn b (List.mem_reverse.mp hb)⟩
  · rintro ⟨before, after, rfl, hn⟩
    exact ⟨after.reverse, before.reverse, by simp, fun b hb => by simp [hn b (List.mem_reverse.mp hb)]⟩

theorem Precedence.find?_isSome {α : Type} (precedence : Precedence) {p : α → Bool} {xs : List α} :
    (precedence.find? p xs).isSome = true ↔ ∃ a ∈ xs, p a = true := by
  cases precedence <;> simp [find?]

theorem Namespace.function?_isSome {s : Namespace} {precedence : Precedence} {name : String} :
    (s.function? precedence name).isSome = true ↔ ∃ f ∈ s.functions, f.name = name := by
  simp only [function?, Precedence.find?_isSome, beq_iff_eq]

theorem isSome_mapM {α β : Type} {f : α → Option β} {as : List α} :
    (as.mapM f).isSome = true ↔ ∀ a ∈ as, (f a).isSome = true := by
  induction as with
  | nil => simp
  | cons a as ih =>
    rw [List.mapM_cons, List.forall_mem_cons, ← ih]
    cases f a <;> cases as.mapM f <;> simp

namespace Catalog

theorem isSome_filled? {α β : Type} {item? : α → Option β} {items : Option (List (Option α))} :
    (filled? item? items).isSome = true ↔ ∀ item ∈ items.getD [], ∃ a, item = some a ∧ (item? a).isSome = true := by
  cases items with
  | none => simp [filled?]
  | some items =>
    simp only [filled?, Option.isSome_map, isSome_mapM, Option.getD_some]
    refine forall₂_congr fun item _ => ?_
    cases item <;> simp

theorem complaint?_eq_none {items : List (Option ListedNamespace)} :
    complaint? items = none ↔ ∀ item ∈ items, ∃ s, item = some s ∧ s.name ≠ "" := by
  induction items with
  | nil => simp [complaint?]
  | cons item items ih =>
    cases item with
    | none => simp [complaint?]
    | some s => by_cases hn : s.name = "" <;> simp [complaint?, ih, hn]

/-- A text has a catalog exactly if it can be decoded and nothing that it lists is left empty or is a
namespace without a name. -/
theorem parse_isOk_iff [Decoder] {text : Bytes} : (∃ c, parse text = .ok c) ↔
    ∃ listing, Decoder.decode text = .ok listing ∧ ∀ item ∈ listing.getD [], ∃ s, item = some s ∧
      s.name ≠ "" ∧ ∀ f ∈ s.functions.getD [], f.isSome = true := by
  have hfilled (listing : Listing) : (ofListing? listing .last).isSome = true ↔
      ∀ item ∈ listing.getD [], ∃ s, item = some s ∧ ∀ f ∈ s.functions.getD [], f.isSome = true := by
    simp only [ofListing?, ListedNamespace.filled?, Option.isSome_map, isSome_filled?, Option.isSome_some, and_true,
      ← Option.isSome_iff_exists]
  cases hd : Decoder.decode text with
  | error message => simp [parse, hd]
  | ok listing =>
    simp only [Except.ok.injEq, exists_eq_left']
    cases hc : complaint? (listing.getD []) with
    | some e =>
      have hbad : ¬ ∀ item ∈ listing.getD [], ∃ s, item = some s ∧ s.name ≠ "" := by
        simp [← complaint?_eq_none, hc]
      have hfails : ¬ ∃ c, parse text = .ok c := by simp [parse, hd, hc]
      exact iff_of_false hfails fun h => hbad fun item hm => (h item hm).imp fun _ hs => ⟨hs.1, hs.2.1⟩
    | none =>
      have hgives : (∃ c, parse text = .ok c) ↔ (ofListing? listing .last).isSome = true := by
        simp only [parse, hd, hc]
        cases ofListing? listing .last <;> simp
      rw [hgives, hfilled]
      refine forall₂_congr fun item hm => exists_congr fun s => and_congr_right fun hs => ?_
      obtain ⟨_, rfl, hname⟩ := complaint?_eq_none.mp hc item hm
      obtain rfl := Option.some.inj hs
      simp [hname]

theorem ofListing?_precedence {listing : Listing} {precedence : Precedence} {c : Catalog}
    (h : ofListing? listing precedence = some c) : c.precedence = precedence := by
  obtain ⟨listed, -, rfl⟩ := Option.map_eq_some_iff.mp h
  rfl

theorem parse_precedence [Decoder] {text : Bytes} {c : Catalog} (h : parse text = .ok c) :
    c.precedence = .last := by
  unfold parse at h
  split at h
  · cases h
  · rename_i listing _
    split at h
    · cases h
    · cases hc : ofListing? listing .last with
      | none => rw [hc] at h; cases h
      | some found =>
        rw [hc] at h
        obtain rfl := Except.ok.inj h
        exact ofListing?_precedence hc

/-- A namespace entry is the last one of its name. -/
def Counts (c : Catalog) (s : Namespace) : Prop :=
  ∃ before after, c.spaces = before ++ s :: after ∧ ∀ later ∈ after, later.name ≠ s.name

section

variable {c : Catalog}

theorem space?_iff (h : c.precedence = .last) {name : String} {s : Namespace} :
    c.space? name = some s ↔ c.Counts s ∧ s.name = name := by
  rw [space?, h, Precedence.find?_last_iff, beq_iff_eq, and_comm]
  refine and_congr_left ?_
  rintro rfl
  simp only [Counts, beq_eq_false_iff_ne]

theorem function?_iff (h : c.precedence = .last) {space name : String} :
    (c.function? space name).isSome = true ↔
      ∃ s, c.Counts s ∧ s.name = space ∧ ∃ f ∈ s.functions, f.name = name := by
  simp only [function?, Option.isSome_bind, Option.any_eq_true, space?_iff h, Namespace.function?_isSome,
    and_assoc]

theorem counts_of_nodup (h : (c.spaces.map (·.name)).Nodup) {s : Namespace} (hs : s ∈ c.spaces) :
    c.Counts s := by
  obtain ⟨before, after, heq⟩ := List.append_of_mem hs
  refine ⟨before, after, heq, fun later hl he => ?_⟩
  rw [heq, List.map_append, List.nodup_append] at h
  exact (List.nodup_cons.mp h.2.1).1 (List.mem_map.mpr ⟨later, hl, he⟩)

end

end Catalog

theorem Check.unknownFunctionAt_isSome [Similar.Matcher] {ws : Workspace} {c : Catalog}
    (hw : ws.catalog = some c) (hp : c.precedence = .last) (block : Block) (call : Call) :
    (unknownFunctionAt ws block call).isSome = true ↔
      ∃ s, c.Counts s ∧ s.name = call.space.toText ∧ s.closed = true ∧
        ∀ f ∈ s.functions, f.name ≠ call.name.toText := by
  have hspace (s : Namespace) : ws.space? call.space.toText = some s ↔
      c.Counts s ∧ s.name = call.space.toText := by
    rw [Workspace.space?, hw, Option.bind_some, Catalog.space?_iff hp]
  have hlisted (s : Namespace) : (s.function? .last call.name.toText).isNone = true ↔
      ∀ f ∈ s.functions, f.name ≠ call.name.toText := by
    rw [← Option.not_isSome, Bool.not_eq_true', ← Bool.not_eq_true, Namespace.function?_isSome]
    simp only [not_exists, not_and]
  simp only [unknownFunctionAt, Option.bind_eq_bind, Option.isSome_bind, Option.any_eq_true, hspace, hw,
    Option.map_some, Option.getD_some, hp, and_assoc]
  refine exists_congr fun s => and_congr_right fun _ => and_congr_right fun _ => ?_
  rw [← hlisted s, ← Bool.and_eq_true]
  split <;> simp [*]

namespace Catalog

section

variable {c : Catalog}

/-- Of every name that is listed one entry counts, and only one. -/
theorem exists_counts (h : c.precedence = .last) {s : Namespace} (hs : s ∈ c.spaces) :
    ∃ last, c.Counts last ∧ last.name = s.name := by
  have hsome : (c.space? s.name).isSome = true := Precedence.find?_isSome _ |>.mpr ⟨s, hs, by simp⟩
  obtain ⟨last, hl⟩ := Option.isSome_iff_exists.mp hsome
  exact ⟨last, (space?_iff h).mp hl⟩

theorem counts_unique (h : c.precedence = .last) {s t : Namespace} (hs : c.Counts s) (ht : c.Counts t)
    (hn : s.name = t.name) : s = t :=
  Option.some.inj (((space?_iff h).mpr ⟨hs, hn⟩).symm.trans ((space?_iff h).mpr ⟨ht, rfl⟩))

end

/-- In a catalog that was read from a text the last entry of a name decides what is found and what is
reported. What is listed anywhere is found exactly if the last entries list what those before them
do, as they trivially do if no name is repeated. -/
theorem parse_last_decides [Decoder] [Similar.Matcher] {text : Bytes} {c : Catalog} (h : parse text = .ok c) :
    (∀ space name, (c.function? space name).isSome = true ↔
      ∃ s, c.Counts s ∧ s.name = space ∧ ∃ f ∈ s.functions, f.name = name) ∧
    (∀ (ws : Workspace) (doc : Document), ws.catalog = some c → ∀ block ∈ Block.scan doc,
      ∀ call ∈ (Parse.structureOf doc block).calls,
        ((∃ d ∈ (Parse.ofDocument ws doc block).diagnostics,
            d.code = Check.unknownFunction.name ∧ d.range = call.nameRange) ↔
          ∃ s, c.Counts s ∧ s.name = call.space.toText ∧ s.closed = true ∧
            ∀ f ∈ s.functions, f.name ≠ call.name.toText)) ∧
    ((∀ s ∈ c.spaces, ∀ f ∈ s.functions, (c.function? s.name f.name).isSome = true) ↔
      ∀ s ∈ c.spaces, ∀ last, c.Counts last → last.name = s.name →
        ∀ f ∈ s.functions, ∃ g ∈ last.functions, g.name = f.name) ∧
    ((c.spaces.map (·.name)).Nodup →
      ∀ s ∈ c.spaces, ∀ f ∈ s.functions, (c.function? s.name f.name).isSome = true) := by
  have hp := parse_precedence h
  refine ⟨fun space name => function?_iff hp, fun ws doc hw block hb call hc => ?_, ⟨?_, ?_⟩, ?_⟩
  · rw [Parse.reports_unknownFunction_iff ws hb hc, Check.unknownFunctionAt_isSome hw hp]
  · intro hall s hs last hl hn f hf
    obtain ⟨t, ht, hname, hlisted⟩ := (function?_iff hp).mp (hall s hs f hf)
    exact counts_unique hp ht hl (hname.trans hn.symm) ▸ hlisted
  · intro hall s hs f hf
    obtain ⟨last, hl, hn⟩ := exists_counts hp hs
    exact (function?_iff hp).mpr ⟨last, hl, hn, hall s hs last hl hn f hf⟩
  · intro hn s hs f hf
    exact (function?_iff hp).mpr ⟨s, counts_of_nodup hn hs, rfl, f, hf, rfl⟩

def repeatedSpace : Bytes :=
  utf8 ("namespaces:\n- name: X\n  closed: true\n  functions:\n  - name: A\n"
    ++ "- name: X\n  closed: true\n  functions:\n  - name: B\n")

def repeatedCatalog : Catalog where
  listed := some
    [{ name := "X", closed := true, listed := some [{ name := "A" }] },
      { name := "X", closed := true, listed := some [{ name := "B" }] }]
  precedence := .last

def earlierCall : Document := .ofText "a" (utf8 "SCRIPT:1,A\nX.A()\nENDSCRIPT\n")

theorem parse_repeatedSpace : parse repeatedSpace = .ok repeatedCatalog := by
  have hparse : (parse repeatedSpace).toOption = some repeatedCatalog := by decide +kernel
  cases h : parse repeatedSpace with
  | error e => simp [h, Except.toOption] at hparse
  | ok c => simpa [h, Except.toOption] using hparse

theorem earlierCall_call : ∃ block ∈ Block.scan earlierCall,
    ∃ call ∈ (Parse.structureOf earlierCall block).calls,
      call.space.toText = "X" ∧ call.name.toText = "A" := by decide +kernel

def lastEntry : Namespace := { name := "X", closed := true, listed := some [{ name := "B" }] }

theorem lastEntry_counts : repeatedCatalog.Counts lastEntry :=
  ⟨[{ name := "X", closed := true, listed := some [{ name := "A" }] }], [], rfl, by simp⟩

theorem parse_last_decides_repeatedSpace :
    parse repeatedSpace = .ok repeatedCatalog ∧ (repeatedCatalog.function? "X" "A").isSome = false ∧
      (repeatedCatalog.function? "X" "B").isSome = true := by
  obtain ⟨hfound, _⟩ := parse_last_decides parse_repeatedSpace
  refine ⟨parse_repeatedSpace, Bool.eq_false_iff.mpr fun h => ?_,
    (hfound "X" "B").mpr ⟨lastEntry, lastEntry_counts, rfl, { name := "B" }, by decide, rfl⟩⟩
  obtain ⟨s, hs, hn, hlisted⟩ := (hfound "X" "A").mp h
  obtain rfl := counts_unique rfl hs lastEntry_counts hn
  revert hlisted
  decide

/-- A function that an entry lists is not found, and a call of it is reported. -/
theorem repeatedSpace_hides :
    parse repeatedSpace = .ok repeatedCatalog ∧
      (∃ s ∈ repeatedCatalog.spaces, s.name = "X" ∧ ∃ f ∈ s.functions, f.name = "A") ∧
      repeatedCatalog.function? "X" "A" = none ∧
      ∃ block ∈ Block.scan earlierCall, ∃ call ∈ (Parse.structureOf earlierCall block).calls,
        call.space.toText = "X" ∧ call.name.toText = "A" ∧
        ∃ d ∈ (Parse.ofDocument ⟨[], some repeatedCatalog⟩ earlierCall block).diagnostics,
          d.code = Check.unknownFunction.name ∧ d.range = call.nameRange := by
  obtain ⟨block, hb, call, hc, hspace, hname⟩ := earlierCall_call
  refine ⟨parse_repeatedSpace, by decide, by decide, block, hb, call, hc, hspace, hname, ?_⟩
  rw [Parse.reports_unknownFunction_iff _ hb hc, Check.unknownFunctionAt_isSome rfl rfl, hspace, hname]
  exact ⟨lastEntry, lastEntry_counts, rfl, rfl, by decide⟩

end Catalog

end HostScript
