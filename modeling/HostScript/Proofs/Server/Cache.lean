import HostScript.Catalog.Yaml
import HostScript.Proofs.Check.Run
import HostScript.Proofs.Parse.Locality
import HostScript.Proofs.Text.Run
import HostScript.Server.Handle
import HostScript.Similar
import Mathlib.Data.List.Find

/-!
Kept readings do not show. Whatever requests a server has handled, a reading that is kept is the one
that would be made anew under the catalog of the server, and requests are answered as if nothing had
been kept. The bytes of a text may stand for it by their digest, as long as no two of them share one.
-/

set_option autoImplicit false

namespace HostScript

namespace ParseCache

theorem find?_mem {cache : ParseCache} {key : BlockKey} {result : ParseResult}
    (h : cache.find? key = some result) : (key, result) ∈ cache.entries := by
  unfold find? at h
  obtain ⟨entry, hf, rfl⟩ := Option.map_eq_some_iff.mp h
  have hm := List.mem_of_find?_eq_some hf
  have hk : entry.1 = key := by simpa using List.find?_some hf
  rw [← hk]
  exact hm

variable [Similar.Matcher]

/-- Every kept reading is what any block with its key reads as under the catalog. -/
def Sound (catalog : Catalog) (cache : ParseCache) : Prop :=
  ∀ entry ∈ cache.entries, ∀ (ws : Workspace) (doc : Document) (block : Block),
    ws.catalog = some catalog → block ∈ Block.scan doc → BlockKey.ofBlock doc block = entry.1 →
      entry.2 = Parse.ofDocument ws doc block

theorem sound_of_nil {catalog : Catalog} {cache : ParseCache} (h : cache.entries = []) :
    cache.Sound catalog := by
  intro entry hm
  rw [h] at hm
  exact absurd hm List.not_mem_nil

theorem run_parse (ws : Workspace) (doc : Document) (block : Block) (cache : ParseCache) :
    (parse ws doc block).run cache = match cache.find? (BlockKey.ofBlock doc block) with
      | some result => (result, cache)
      | none => (Parse.ofDocument ws doc block,
          cache.insert (BlockKey.ofBlock doc block) (Parse.ofDocument ws doc block)) := by
  have hget (f : ParseCache → StateM ParseCache ParseResult) :
      StateT.run (get >>= f) cache = (f cache).run cache := rfl
  unfold parse
  rw [hget]
  cases cache.find? (BlockKey.ofBlock doc block) <;> rfl

/-- Whatever right readings are kept, a computation gives one result and keeps right readings. -/
def Gives {α : Type} (catalog : Catalog) (x : StateM ParseCache α) (a : α) : Prop :=
  ∀ cache : ParseCache, cache.Sound catalog → (x.run cache).1 = a ∧ (x.run cache).2.Sound catalog

/-- A computation gives the same whatever readings are kept, and keeps right ones only. -/
def Transparent {α : Type} (catalog : Catalog) (x : StateM ParseCache α) : Prop :=
  ∃ a, ∀ cache : ParseCache, cache.Sound catalog →
    (x.run cache).1 = a ∧ (x.run cache).2.Sound catalog

section Parse

variable {catalog : Catalog} {ws : Workspace} {doc : Document} {block : Block}
  (hw : ws.catalog = some catalog) (hb : block ∈ Block.scan doc)

include hw hb

theorem Sound.insert {cache : ParseCache} (hs : cache.Sound catalog) :
    (cache.insert (BlockKey.ofBlock doc block) (Parse.ofDocument ws doc block)).Sound catalog := by
  intro entry hm ws' doc' block' hw' hb' hk
  cases List.mem_cons.mp hm with
  | inl hm =>
    rw [hm] at hk ⊢
    exact Parse.ofDocument_of_key (hw.trans hw'.symm) hb hb' hk.symm
  | inr hm =>
    split at hm
    · exact absurd hm List.not_mem_nil
    · exact hs entry hm ws' doc' block' hw' hb' hk

/-- Reading a block gives what a new reading gives, and what is kept stays right. -/
theorem parse_sound {cache : ParseCache} (hs : cache.Sound catalog) :
    ((parse ws doc block).run cache).1 = Parse.ofDocument ws doc block ∧
      ((parse ws doc block).run cache).2.Sound catalog := by
  rw [run_parse]
  cases hf : cache.find? (BlockKey.ofBlock doc block) with
  | none => exact ⟨rfl, hs.insert hw hb⟩
  | some result => exact ⟨hs _ (find?_mem hf) ws doc block hw hb rfl, hs⟩

theorem parse_transparent : Transparent catalog (parse ws doc block) :=
  ⟨_, fun _ hs => parse_sound hw hb hs⟩

end Parse

namespace Gives

variable {α β : Type} {catalog : Catalog}

theorem pure (a : α) : Gives catalog (Pure.pure a) a := fun _ hs => ⟨rfl, hs⟩

theorem bind {x : StateM ParseCache α} {a : α} {f : α → StateM ParseCache β} {b : β}
    (hx : Gives catalog x a) (hf : Gives catalog (f a) b) : Gives catalog (x >>= f) b := by
  intro cache hs
  obtain ⟨ha, hs⟩ := hx cache hs
  have hr : (x >>= f).run cache = (f (x.run cache).1).run (x.run cache).2 := rfl
  rw [hr, ha]
  exact hf _ hs

theorem mapM {f : α → StateM ParseCache β} {g : α → β} {as : List α}
    (hf : ∀ a ∈ as, Gives catalog (f a) (g a)) : Gives catalog (as.mapM f) (as.map g) := by
  induction as with
  | nil => exact pure []
  | cons a as ih =>
    rw [List.mapM_cons]
    exact (hf a List.mem_cons_self).bind ((ih fun c hc => hf c (List.mem_cons_of_mem _ hc)).bind (pure _))

end Gives

namespace Transparent

variable {α β : Type} {catalog : Catalog}

theorem pure (a : α) : Transparent catalog (Pure.pure a) := ⟨a, Gives.pure a⟩

theorem bind {x : StateM ParseCache α} {f : α → StateM ParseCache β} (hx : Transparent catalog x)
    (hf : ∀ a, Transparent catalog (f a)) : Transparent catalog (x >>= f) := by
  obtain ⟨a, hx⟩ := hx
  obtain ⟨b, hf⟩ := hf a
  exact ⟨b, Gives.bind hx hf⟩

end Transparent

end ParseCache

namespace WholeCheck

open ParseCache (Gives)

variable [Similar.Matcher]

def live (ws : Workspace) (doc : Document) : List Diagnostic :=
  (Block.scan doc).flatMap fun block => (Parse.ofDocument ws doc block).diagnostics

def shown (s : Server) (ws : Workspace) (errors : List Diagnostic) (uri : String) : List Diagnostic :=
  match s.buffers.doc? uri with
  | none => errors.filter (·.uri == uri)
  | some doc => Diagnostic.merge (errors.filter (·.uri == uri)) (live ws doc)

section

variable {s : Server} {ws : Workspace}

theorem liveFindings_gives (hw : ws.catalog = some s.catalog) (doc : Document) :
    Gives s.catalog (Server.liveFindings ws doc) (live ws doc) := by
  have hread : Gives s.catalog ((Block.scan doc).mapM (ParseCache.parse ws doc)) _ :=
    .mapM fun block hb cache hs => ParseCache.parse_sound hw hb hs
  have hlive : live ws doc
      = ((Block.scan doc).map (Parse.ofDocument ws doc)).flatMap (·.diagnostics) := by
    rw [List.flatMap_map, live]
  rw [hlive]
  exact hread.bind (.pure _)

theorem findingsFor_gives (hw : ws.catalog = some s.catalog) (errors : List Diagnostic) (uri : String) :
    Gives s.catalog (findingsFor s ws errors uri) (shown s ws errors uri) := by
  unfold findingsFor shown
  cases s.buffers.doc? uri with
  | none => exact .pure _
  | some doc => exact (liveFindings_gives hw doc).bind (.pure _)

theorem publish_gives (hw : ws.catalog = some s.catalog) (errors : List Diagnostic) (uris : List String) :
    Gives s.catalog (publish s ws errors uris)
      (uris.map fun uri => .publish uri (shown s ws errors uri)) := by
  induction uris with
  | nil => exact .pure _
  | cons uri rest ih => exact (findingsFor_gives hw errors uri).bind (ih.bind (.pure _))

end

end WholeCheck

namespace Server

open ParseCache (Transparent)

variable {s : Server} {ws : Workspace}

theorem blockAt?_mem {place : Place} {doc : Document} {block : Block}
    (h : s.blockAt? place = some (doc, block)) : block ∈ Block.scan doc := by
  simp only [blockAt?, Option.bind_eq_bind, Option.bind_eq_some_iff, Option.pure_def,
    Option.some.injEq, Prod.mk.injEq] at h
  obtain ⟨doc', _, block', hb, rfl, rfl⟩ := h
  obtain ⟨offset, _, hb⟩ := Option.bind_eq_some_iff.mp hb
  exact List.mem_of_find?_eq_some hb

theorem view_eq_ok {d : Disk} {v : View} (h : s.view d = .ok v) :
    ∃ paths, s.hostFiles d = .ok paths ∧
      v = ⟨(Snapshot.ofBuffers s.buffers.documents paths).workspace (some s.catalog),
        Snapshot.source ((Snapshot.ofBuffers s.buffers.documents paths).freeze d.read)⟩ := by
  unfold view at h
  cases hf : s.hostFiles d with
  | error e => rw [hf] at h; cases h
  | ok paths => rw [hf] at h; cases h; exact ⟨paths, rfl, rfl⟩

theorem view_catalog {d : Disk} {v : View} (h : s.view d = .ok v) :
    v.workspace.catalog = some s.catalog := by
  obtain ⟨paths, _, rfl⟩ := view_eq_ok h
  rfl

variable [Similar.Matcher]

theorem signatureHelp?_transparent (place : Place) :
    Transparent s.catalog (s.signatureHelp? place) := by
  unfold signatureHelp?
  split
  · exact .pure _
  · rename_i doc block hb
    exact .bind (ParseCache.parse_transparent rfl (blockAt?_mem hb)) fun _ => .pure _

theorem blockReading_transparent (d : Disk) (place : Place) (strict : Bool) :
    Transparent s.catalog (s.blockReading d place strict) := by
  unfold blockReading
  split
  · exact .pure _
  · rename_i doc block hb
    simp only
    split
    · exact .pure _
    · exact .bind (ParseCache.parse_transparent rfl (blockAt?_mem hb)) fun _ => .pure _

theorem statistics?_transparent (place : Place) :
    Transparent s.catalog (s.statistics? place) := by
  unfold statistics?
  split
  · exact .pure _
  · rename_i doc block hb
    exact .bind (ParseCache.parse_transparent rfl (blockAt?_mem hb)) fun _ => .pure _

theorem wholeCheck_transparent (d : Disk) (uri : String) (after : Option Nat) :
    Transparent s.catalog (WholeCheck.run s d uri after) := by
  unfold WholeCheck.run
  split
  · exact .pure _
  · rename_i v hv
    split
    · exact .pure _
    · simp only
      split
      · exact .pure _
      · exact .bind ⟨_, WholeCheck.publish_gives (view_catalog hv) _ _⟩ fun _ => .pure _

def forget (s : Server) : Server := { s with cache := {} }

/-- All readings a server keeps are right under its catalog. -/
def Sound (s : Server) : Prop := s.cache.Sound s.catalog

theorem withCache_sound {α : Type} {x : StateM ParseCache α} (hs : s.Sound)
    (hx : Transparent s.catalog x) :
    (s.withCache x).1 = (s.forget.withCache x).1 ∧ (s.withCache x).2.Sound := by
  obtain ⟨a, hx⟩ := hx
  have hkept := hx s.cache hs
  have hnew := hx {} (ParseCache.sound_of_nil rfl)
  exact ⟨hkept.1.trans hnew.1.symm, hkept.2⟩

theorem publishLive_sound (hs : s.Sound) (uri : String) :
    (s.publishLive uri).1 = (s.forget.publishLive uri).1 ∧ (s.publishLive uri).2.Sound := by
  have hb : s.forget.buffers = s.buffers := rfl
  unfold publishLive
  rw [hb]
  cases s.buffers.doc? uri with
  | none => exact ⟨rfl, hs⟩
  | some doc =>
    obtain ⟨hr, hs⟩ := withCache_sound hs ⟨_, @WholeCheck.liveFindings_gives _ s s.openWorkspace rfl doc⟩
    exact ⟨congrArg (fun findings => [Notification.publish uri findings]) hr, hs⟩

theorem publish_forget (s : Server) (ws : Workspace) (errors : List Diagnostic)
    (uris : List String) :
    WholeCheck.publish s.forget ws errors uris = WholeCheck.publish s ws errors uris := by
  induction uris with
  | nil => rfl
  | cons uri rest ih => simp only [WholeCheck.publish, ih]; rfl

theorem wholeCheck_forget (s : Server) (d : Disk) (uri : String) (after : Option Nat) :
    WholeCheck.run s.forget d uri after = WholeCheck.run s d uri after := by
  simp only [WholeCheck.run, publish_forget]
  rfl

variable [Catalog.Decoder]

theorem greet_sound (hs : s.Sound) (d : Disk) (root : Option String) :
    (s.greet d root).Sound := by
  unfold greet
  simp only
  split
  · rename_i hf
    obtain ⟨c, hf⟩ := Option.isSome_iff_exists.mp hf
    simpa [Sound, catalog, hf] using hs
  · exact ParseCache.sound_of_nil rfl

/-- A request is answered as if nothing had been kept, and the readings kept after it are right. -/
theorem perform_sound (hs : s.Sound) (d : Disk) (after : Option Nat)
    (request : Request) :
    (s.perform d after request).1 = (s.forget.perform d after request).1 ∧
      (s.perform d after request).2.Sound := by
  cases request with
  | greet root => exact ⟨rfl, greet_sound hs d root⟩
  | opened uri version text =>
    obtain ⟨hr, hs⟩ := publishLive_sound
      (s := { s with buffers := s.buffers.put uri version text }) hs uri
    exact ⟨congrArg (fun ns => ({ notifications := ns } : Reply)) hr, hs⟩
  | changed uri version texts =>
    obtain ⟨hr, hp⟩ := publishLive_sound
      (s := { s with buffers := s.buffers.put uri version (textAfter texts) }) hs uri
    by_cases he : s.publishesEdits = true
    · have hkept : s.perform d after (.changed uri version texts) = announce _ := if_pos he
      have hnew : s.forget.perform d after (.changed uri version texts) = announce _ := if_pos he
      rw [hkept, hnew]
      exact ⟨congrArg (fun ns => ({ notifications := ns } : Reply)) hr, hp⟩
    · have hkept : s.perform d after (.changed uri version texts) = _ := if_neg he
      have hnew : s.forget.perform d after (.changed uri version texts) = _ := if_neg he
      rw [hkept, hnew]
      exact ⟨rfl, hs⟩
  | saved uri =>
    obtain ⟨hr, hs⟩ := publishLive_sound hs uri
    exact ⟨congrArg (fun ns => ({ notifications := ns } : Reply)) hr, hs⟩
  | signatureHelp place =>
    obtain ⟨hr, hs⟩ := withCache_sound hs (signatureHelp?_transparent place)
    exact ⟨congrArg (fun help => Reply.result (Json.option SignatureHelp.toJson help)) hr, hs⟩
  | parseScript place strict =>
    obtain ⟨hr, hs⟩ := withCache_sound hs (blockReading_transparent d place strict)
    exact ⟨congrArg (fun reading => Reply.ofExcept reading (Json.option BlockReading.toJson)) hr, hs⟩
  | checkNow uri =>
    obtain ⟨hr, hs⟩ := withCache_sound hs (wholeCheck_transparent d uri none)
    simp only [perform, wholeCheck_forget]
    exact ⟨congrArg (fun check : WholeCheck =>
      { Reply.ofExcept check.outcome (Json.list Diagnostic.toJson) with
        notifications := check.published }) hr, hs⟩
  | checkLater uri =>
    obtain ⟨hr, hs⟩ := withCache_sound hs (wholeCheck_transparent d uri after)
    simp only [perform, wholeCheck_forget]
    exact ⟨congrArg (fun check : WholeCheck =>
      ({ notifications := check.notifications uri } : Reply)) hr, hs⟩
  | statistics place =>
    obtain ⟨hr, hs⟩ := withCache_sound hs (statistics?_transparent place)
    exact ⟨congrArg (fun stats => Reply.result (Json.option Stats.toJson stats)) hr, hs⟩
  | farewell => exact ⟨rfl, hs⟩
  | exit => exact ⟨rfl, hs⟩
  | setTrace => exact ⟨rfl, hs⟩
  | closed uri => exact ⟨rfl, hs⟩
  | completion place => exact ⟨rfl, hs⟩
  | hover place => exact ⟨rfl, hs⟩
  | definition place => exact ⟨rfl, hs⟩
  | references place withDefinitions => exact ⟨rfl, hs⟩
  | documentSymbols uri => exact ⟨rfl, hs⟩
  | foldingRanges uri => exact ⟨rfl, hs⟩
  | quickFixes uri only findings => exact ⟨rfl, hs⟩
  | workspaceSymbols query => exact ⟨rfl, hs⟩
  | cursorContext place => exact ⟨rfl, hs⟩
  | reachable uri => exact ⟨rfl, hs⟩
  | cancelCheck uri => exact ⟨rfl, hs⟩
  | scriptNumber place => exact ⟨rfl, hs⟩
  | blockStart place => exact ⟨rfl, hs⟩
  | hookStart query => exact ⟨rfl, hs⟩

theorem handle_sound (hs : s.Sound) (d : Disk) (after : Option Nat)
    (method : String) (params : Option Json) :
    (s.handle d after method params).1 = (s.forget.handle d after method params).1 ∧
      (s.handle d after method params).2.Sound := by
  have hready : s.forget.isReady = s.isReady := rfl
  unfold handle
  rw [hready]
  split
  · exact ⟨rfl, hs⟩
  · split
    · exact ⟨rfl, hs⟩
    · exact perform_sound hs d after _

/-- The states of a server that requests lead to, and those in between at which a block has been read
for a request. -/
inductive Reached : Server → Prop where
  | fresh {s : Server} : s.cache.entries = [] → Reached s
  | handled {s : Server} (d : Disk) (after : Option Nat) (method : String) (params : Option Json) :
      Reached s → Reached (s.handle d after method params).2
  | read {s : Server} {ws : Workspace} {doc : Document} {block : Block} : Reached s →
      ws.catalog = some s.catalog → block ∈ Block.scan doc →
      Reached { s with cache := ((ParseCache.parse ws doc block).run s.cache).2 }

theorem Reached.sound (h : s.Reached) : s.Sound := by
  induction h with
  | fresh hn => exact ParseCache.sound_of_nil hn
  | handled d after method params _ ih => exact (handle_sound ih d after method params).2
  | read _ hw hb ih => exact (ParseCache.parse_sound hw hb ih).2

end Server

namespace BlockKey

/-- The bytes whose digest stands for the URI and the text of a key. -/
def hashed (k : BlockKey) : Bytes := utf8 k.uri ++ 0 :: k.text

theorem hashed_inj {a b : BlockKey} (ha : (0 : UInt8) ∉ utf8 a.uri) (hb : (0 : UInt8) ∉ utf8 b.uri) :
    a.hashed = b.hashed ↔ a.uri = b.uri ∧ a.text = b.text := by
  constructor
  · intro h
    obtain ⟨huri, htext⟩ := Bytes.split_at_first ha hb h
    exact ⟨utf8_inj huri, htext⟩
  · rintro ⟨hu, ht⟩
    simp only [hashed, hu, ht]

/-- The digest of a key and the place of its block. -/
def digest (hash : Bytes → UInt64) (k : BlockKey) : UInt64 × Nat × Int := (hash k.hashed, k.start, k.line)

/-- No URI of the keys has a NUL byte, and no two hashed texts of them have the same digest. -/
structure Distinguished (hash : Bytes → UInt64) (keys : List BlockKey) : Prop where
  nulFree : ∀ k ∈ keys, (0 : UInt8) ∉ utf8 k.uri
  injective : ∀ a ∈ keys, ∀ b ∈ keys, hash a.hashed = hash b.hashed → a.hashed = b.hashed

theorem Distinguished.digest_inj {hash : Bytes → UInt64} {keys : List BlockKey}
    (h : Distinguished hash keys) {a b : BlockKey} (ha : a ∈ keys) (hb : b ∈ keys) :
    a.digest hash = b.digest hash ↔ a = b := by
  constructor
  · intro he
    obtain ⟨hh, hp⟩ := Prod.mk.inj he
    obtain ⟨hs, hl⟩ := Prod.mk.inj hp
    obtain ⟨hu, ht⟩ := (hashed_inj (h.nulFree a ha) (h.nulFree b hb)).mp (h.injective a ha b hb hh)
    cases a
    cases b
    simp_all
  · rintro rfl
    rfl

end BlockKey

namespace ParseCache

def findDigest? (hash : Bytes → UInt64) (cache : ParseCache) (key : BlockKey) : Option ParseResult :=
  (cache.entries.find? (·.1.digest hash == key.digest hash)).map (·.2)

/-- The reading of a block, when kept readings are looked up by digests. -/
def parseDigest [Similar.Matcher] (hash : Bytes → UInt64) (ws : Workspace) (doc : Document) (block : Block) :
    StateM ParseCache ParseResult := do
  let key := BlockKey.ofBlock doc block
  match (← get).findDigest? hash key with
  | some result => return result
  | none =>
    let result := Parse.ofDocument ws doc block
    modify (·.insert key result)
    return result

/-- All keys a look-up compares. -/
def keysWith (cache : ParseCache) (key : BlockKey) : List BlockKey := key :: cache.entries.map (·.1)

theorem findDigest?_eq {hash : Bytes → UInt64} {cache : ParseCache} {key : BlockKey}
    (h : BlockKey.Distinguished hash (cache.keysWith key)) :
    cache.findDigest? hash key = cache.find? key := by
  unfold findDigest? find?
  congr 1
  refine List.find?_congr fun entry hm => ?_
  have he : entry.1 ∈ cache.keysWith key :=
    List.mem_cons_of_mem _ (List.mem_map.mpr ⟨entry, hm, rfl⟩)
  rw [Bool.eq_iff_iff, beq_iff_eq, beq_iff_eq]
  exact h.digest_inj he List.mem_cons_self

theorem run_parseDigest [Similar.Matcher] {hash : Bytes → UInt64} {cache : ParseCache} {doc : Document}
    {block : Block} (h : BlockKey.Distinguished hash (cache.keysWith (.ofBlock doc block))) (ws : Workspace) :
    (parseDigest hash ws doc block).run cache = (parse ws doc block).run cache := by
  have hget (f : ParseCache → StateM ParseCache ParseResult) :
      StateT.run (get >>= f) cache = (f cache).run cache := rfl
  rw [run_parse]
  unfold parseDigest
  rw [hget]
  simp only [findDigest?_eq h]
  cases cache.find? (BlockKey.ofBlock doc block) <;> rfl

end ParseCache

namespace Server

/-- Whatever a server has handled, reading a block through the kept readings gives what a reading
without strict checks makes of it anew under the catalog of the server, a look-up by digests finds
the same, and no request is answered otherwise than with nothing kept. -/
theorem Reached.parse_fresh [Similar.Matcher] [Catalog.Decoder] {s : Server} (hs : s.Reached)
    {hash : Bytes → UInt64} {ws : Workspace}
    {doc : Document} {block : Block} {source : Supply} (hw : ws.catalog = some s.catalog)
    (hb : block ∈ Block.scan doc) (hf : source block.uri = .ok (.ofDocument doc))
    (hd : BlockKey.Distinguished hash (s.cache.keysWith (.ofBlock doc block))) (origin : Origin) :
    (ParseCache.parseDigest hash ws doc block).run s.cache
        = (ParseCache.parse ws doc block).run s.cache ∧
      ReadM.run source (Parse.run ws origin block false)
        = .ok ((ParseCache.parseDigest hash ws doc block).run s.cache).1 ∧
      ∀ (d : Disk) (after : Option Nat) (method : String) (params : Option Json),
        (s.handle d after method params).1 = (s.forget.handle d after method params).1 := by
  have hdigest := ParseCache.run_parseDigest hd ws
  refine ⟨hdigest, ?_, fun d after method params => (handle_sound hs.sound d after method params).1⟩
  rw [hdigest, (ParseCache.parse_sound hw hb hs.sound).1]
  exact Parse.run_local ws hf origin

def soleDocument : Document := .ofText "a" (utf8 "SCRIPT:1,A\nENDSCRIPT\n")

def soleBlock : Block := .close soleDocument ⟨0, .script, utf8 "1,A"⟩ 11 20 true

def afterRead : Server :=
  { cache := ((ParseCache.parse ⟨["a"], some .builtIn⟩ soleDocument soleBlock).run {}).2 }

theorem Reached.parse_fresh_again :
    soleBlock ∈ Block.scan soleDocument ∧ afterRead.Reached ∧ afterRead.cache.entries.length = 1 ∧
      ReadM.run (fun _ => .ok (.ofDocument soleDocument))
          (Parse.run ⟨["a"], some .builtIn⟩ .workspace soleBlock false)
        = .ok ((ParseCache.parseDigest (fun bs => bs.foldl (fun n b => 31 * n + b.toUInt64) 7)
            ⟨["a"], some .builtIn⟩ soleDocument soleBlock).run afterRead.cache).1 := by
  have hb : soleBlock ∈ Block.scan soleDocument := by
    have hs : Block.scan soleDocument = [soleBlock] := by decide +kernel
    simp [hs]
  have hfresh : Reached {} := .fresh rfl
  have hr : afterRead.Reached :=
    @Reached.read _ _ {} ⟨["a"], some .builtIn⟩ soleDocument soleBlock hfresh rfl hb
  have hkeys : afterRead.cache.keysWith (.ofBlock soleDocument soleBlock)
      = [.ofBlock soleDocument soleBlock, .ofBlock soleDocument soleBlock] := rfl
  refine ⟨hb, hr, rfl, ?_⟩
  refine (hr.parse_fresh rfl hb rfl ⟨?_, ?_⟩ .workspace).2.1
  · rw [hkeys]
    decide
  · rw [hkeys]
    simp

end Server

end HostScript
