import HostScript.Command
import HostScript.Proofs.Workspace.Requests

/-!
A session over files that may change. Each file is read at most once, and all that is answered is
what a snapshot gives whose files stay as they were when they were read.
-/

set_option autoImplicit false

namespace HostScript

theorem get_bind_apply {τ σ α : Type} (f : τ → StateT τ (StateM σ) α) (kept : τ) (st : σ) :
    (get >>= f) kept st = f kept kept st := rfl

namespace Snapshot

theorem lookup_map_eq_find? {α β : Type} (key : α → String) (value : α → β) (as : List α) (k : String) :
    (as.map fun a => (key a, value a)).lookup k = (as.find? (key · == k)).map value := by
  induction as with
  | nil => rfl
  | cons a as ih =>
    rw [List.map_cons, List.lookup_cons, List.find?_cons, BEq.comm (a := k)]
    cases key a == k with
    | true => rfl
    | false => exact ih

theorem source_freeze (s : Snapshot) (read : String → Except FileError Bytes) (uri : String) :
    source (s.freeze read) uri = match s.buffer? uri, s.path? uri with
      | some doc, _ => .ok (.ofDocument doc)
      | none, some path => answer uri path (read path)
      | none, none => .error (.notFound uri) := by
  have hfiles := lookup_map_eq_find? (·.1) (fun file => answer file.1 file.2 (read file.2)) s.files uri
  rw [source, freeze, List.lookup_append, lookup_map_eq_find?, hfiles, buffer?, path?]
  cases s.buffers.find? (·.uri == uri) with
  | some doc => rfl
  | none =>
    cases hf : s.files.find? (·.1 == uri) with
    | none => rfl
    | some file =>
      have huri : file.1 = uri := by simpa using List.find?_some hf
      subst huri
      rfl

theorem document_apply {σ : Type} (s : Snapshot) (read : String → StateM σ (Except FileError Bytes))
    (uri : String) (loaded : Loaded) (disk : σ) : s.document read uri loaded disk =
      match s.buffer? uri, s.path? uri, loaded.lookup uri with
      | some doc, _, _ => ((.ok (.ofDocument doc), loaded), disk)
      | none, none, _ => ((.error (.notFound uri), loaded), disk)
      | none, some _, some known => ((known, loaded), disk)
      | none, some path, none =>
        let (text, disk) := read path disk
        ((answer uri path text, (uri, answer uri path text) :: loaded), disk) := by
  unfold document
  cases s.buffer? uri with
  | some doc => rfl
  | none =>
    cases s.path? uri with
    | none => rfl
    | some path =>
      dsimp only
      rw [get_bind_apply]
      cases loaded.lookup uri with
      | some known => rfl
      | none => rfl

theorem buffer?_eq_none {buffers : List Document} {paths : List String} {uri : String}
    (h : (ofBuffers buffers paths).buffer? uri = none) : uri ∉ buffers.map (·.uri) := by
  intro hm
  obtain ⟨doc, hd, rfl⟩ := List.mem_map.mp hm
  have hkept : doc.uri ∈ (keepLast Document.uri buffers).map Document.uri := key_mem_keepLast hd
  obtain ⟨last, hl, he⟩ := List.mem_map.mp hkept
  exact absurd he (by simpa using List.find?_eq_none.mp h last hl)

/-- The file that a snapshot has for a URI is one of its paths, and the URI is that of the path. -/
theorem path?_eq_some {buffers : List Document} {paths : List String} {uri path : String}
    (h : (ofBuffers buffers paths).path? uri = some path) : path ∈ paths ∧ uriOfPath path = uri := by
  obtain ⟨file, hf, rfl⟩ := Option.map_eq_some_iff.mp h
  have huri : file.1 = uri := by simpa using List.find?_some hf
  have hm := mem_of_mem_keepLast (List.mem_of_mem_filter (List.mem_of_find?_eq_some hf))
  obtain ⟨path, hp, rfl⟩ := List.mem_map.mp hm
  exact ⟨hp, huri⟩

theorem uri_of_path? (buffers : List Document) (paths : List String) (uri path : String)
    (h : (ofBuffers buffers paths).path? uri = some path) : uriOfPath path = uri := (path?_eq_some h).2

end Snapshot

namespace Session

/-- What was read of files, by path, from the first read on. -/
abbrev ReadLog := List (String × Except FileError Bytes)

def recorded {σ : Type} (read : String → StateM σ (Except FileError Bytes)) (path : String) :
    StateM (ReadLog × σ) (Except FileError Bytes) := fun (log, disk) =>
  let (text, disk) := read path disk
  (text, log ++ [(path, text)], disk)

/-- A disk that stays as it was when it was first read. Files that were not read are given. -/
def firstRead (log : ReadLog) (rest : String → Except FileError Bytes) (path : String) :
    Except FileError Bytes := (log.lookup path).getD (rest path)

theorem firstRead_append (log new : ReadLog) (rest : String → Except FileError Bytes) :
    firstRead (log ++ new) rest = firstRead log (firstRead new rest) := by
  funext path
  rw [firstRead, firstRead, firstRead, List.lookup_append]
  cases log.lookup path <;> rfl

/-- The documents of a snapshot whose files stay as first read. -/
def frozen (s : Snapshot) (log : ReadLog) (rest : String → Except FileError Bytes) : Supply :=
  Snapshot.source (s.freeze (firstRead log rest))

/-- What is computed from documents is settled: files that were not read have no part in it. -/
def Settled {α : Type} (s : Snapshot) (log : ReadLog) (value : Supply → α) (a : α) : Prop :=
  ∀ rest, value (frozen s log rest) = a

theorem Settled.append {α : Type} {s : Snapshot} {log : ReadLog} {value : Supply → α} {a : α}
    (h : Settled s log value a) (new : ReadLog) : Settled s (log ++ new) value a := by
  intro rest
  rw [frozen, firstRead_append]
  exact h (firstRead new rest)

theorem Settled.map {α β : Type} {s : Snapshot} {log : ReadLog} {value : Supply → α} {a : α}
    (h : Settled s log value a) (f : α → β) : Settled s log (fun source => f (value source)) (f a) :=
  fun rest => congrArg f (h rest)

theorem Settled.bind {α β : Type} {s : Snapshot} {log : ReadLog} {value : Supply → α} {a : α}
    {next : α → Supply → β} {b : β} (ha : Settled s log value a) (hb : Settled s log (next a) b) :
    Settled s log (fun source => next (value source) source) b := by
  intro rest
  rw [← hb rest]
  exact congrArg (next · _) (ha rest)

/-- What a session keeps is settled by what it has read, which is one file per URI. -/
structure Sound {σ : Type} (s : Snapshot) (uris : List String)
    (read : String → StateM σ (Except FileError Bytes)) (log : ReadLog) (kept : Session) : Prop where
  answered : ∀ entry ∈ log, ∃ disk, (read entry.1 disk).1 = entry.2
  once : (log.map fun entry => uriOfPath entry.1).Nodup
  files : ∀ entry ∈ log, s.buffer? (uriOfPath entry.1) = none ∧ s.path? (uriOfPath entry.1) = some entry.1
  unread : ∀ uri, kept.loaded.lookup uri = none → uri ∉ log.map fun entry => uriOfPath entry.1
  loaded : ∀ uri file, kept.loaded.lookup uri = some file → Settled s log (· uri) file
  scans : ∀ uri found, kept.scans.lookup uri = some found →
    Settled s log (Reading.answer · (.blocks uri)) (.ok found)
  index : ∀ built, kept.index = some built → Settled s log (Reading.answer · (.index uris)) built

theorem sound_nil {σ : Type} (s : Snapshot) (uris : List String)
    (read : String → StateM σ (Except FileError Bytes)) : Sound s uris read [] {} where
  answered := by simp
  once := List.nodup_nil
  files := by simp
  unread := by simp
  loaded := by simp
  scans := by simp
  index := by simp

variable {σ α β : Type} {s : Snapshot} {uris : List String}
  {read : String → StateM σ (Except FileError Bytes)}

/-- A computation in a session gives what is computed from the documents of a snapshot whose files
stay as first read. -/
def Computes (s : Snapshot) (uris : List String)
    (read : String → StateM σ (Except FileError Bytes)) (x : StateT Session (StateM (ReadLog × σ)) α)
    (value : Supply → α) : Prop :=
  ∀ kept log disk, Sound s uris read log kept → ∃ a kept' new disk',
    x kept (log, disk) = ((a, kept'), log ++ new, disk') ∧ Sound s uris read (log ++ new) kept' ∧
      Settled s (log ++ new) value a

theorem Computes.pure (a : α) :
    Computes s uris read (Pure.pure a : StateT Session (StateM (ReadLog × σ)) α) fun _ => a :=
  fun kept log disk h => ⟨a, kept, [], disk, by rw [List.append_nil]; rfl, by simpa using h,
    fun _ => rfl⟩

theorem bind_apply {x : StateT Session (StateM σ) α} {f : α → StateT Session (StateM σ) β}
    {kept kept' : Session} {st st' : σ} {a : α} (h : x kept st = ((a, kept'), st')) :
    (x >>= f) kept st = f a kept' st' := by
  simp only [Bind.bind, StateT.bind, h]

theorem Computes.bind {x : StateT Session (StateM (ReadLog × σ)) α} {value : Supply → α}
    {f : α → StateT Session (StateM (ReadLog × σ)) β} (hx : Computes s uris read x value)
    (next : α → Supply → β) (hf : ∀ a, Computes s uris read (f a) (next a)) :
    Computes s uris read (x >>= f) fun source => next (value source) source := by
  intro kept log disk h
  obtain ⟨a, kept₁, new₁, disk₁, he₁, h₁, hs₁⟩ := hx kept log disk h
  obtain ⟨b, kept₂, new₂, disk₂, he₂, h₂, hs₂⟩ := hf a kept₁ (log ++ new₁) disk₁ h₁
  refine ⟨b, kept₂, new₁ ++ new₂, disk₂, ?_, ?_, ?_⟩
  · rw [bind_apply he₁, he₂, List.append_assoc]
  · rwa [← List.append_assoc]
  · rw [← List.append_assoc]
    exact (hs₁.append new₂).bind hs₂

theorem Sound.keepRead {log : ReadLog} {kept : Session} {uri path : String}
    (h : Sound s uris read log kept) (hb : s.buffer? uri = none) (hp : s.path? uri = some path)
    (hu : uriOfPath path = uri) (hn : kept.loaded.lookup uri = none)
    {text : Except FileError Bytes} (ht : ∃ disk, (read path disk).1 = text) :
    Sound s uris read (log ++ [(path, text)])
        { kept with loaded := (uri, Snapshot.answer uri path text) :: kept.loaded } ∧
      Settled s (log ++ [(path, text)]) (· uri) (Snapshot.answer uri path text) := by
  have hnew : uri ∉ log.map fun entry => uriOfPath entry.1 := h.unread uri hn
  have hpath : log.lookup path = none := by
    refine List.lookup_eq_none_iff.mpr fun entry hm => ?_
    rw [bne_iff_ne]
    rintro rfl
    exact hnew (List.mem_map.mpr ⟨entry, hm, hu⟩)
  have hsettled : Settled s (log ++ [(path, text)]) (· uri) (Snapshot.answer uri path text) := by
    intro rest
    simp [frozen, Snapshot.source_freeze, hb, hp, firstRead, List.lookup_append, hpath]
  refine ⟨⟨?_, ?_, ?_, ?_, ?_, ?_, ?_⟩, hsettled⟩
  · intro entry hm
    rcases List.mem_append.mp hm with hm | hm
    · exact h.answered entry hm
    · obtain rfl := List.mem_singleton.mp hm
      exact ht
  · rw [List.map_append, List.nodup_append]
    refine ⟨h.once, by simp, fun a ha b hm => ?_⟩
    obtain rfl : b = uri := by simpa [hu] using hm
    rintro rfl
    exact hnew ha
  · intro entry hm
    rcases List.mem_append.mp hm with hm | hm
    · exact h.files entry hm
    · obtain rfl := List.mem_singleton.mp hm
      exact ⟨hu ▸ hb, hu ▸ hp⟩
  · intro other ho
    rw [List.lookup_cons] at ho
    split at ho
    · cases ho
    · rename_i hne
      have hne : other ≠ uri := by simpa using hne
      simpa [hu, hne] using h.unread other ho
  · intro other file ho
    rw [List.lookup_cons] at ho
    split at ho
    · rename_i heq
      obtain rfl := eq_of_beq heq
      obtain rfl := Option.some.inj ho
      exact hsettled
    · exact (h.loaded other file ho).append _
  · exact fun other found ho => (h.scans other found ho).append _
  · exact fun built hbuilt => (h.index built hbuilt).append _

theorem Sound.keepScan {log : ReadLog} {kept : Session} {uri : String} {found : List Block}
    (h : Sound s uris read log kept) (hf : Settled s log (Reading.answer · (.blocks uri)) (.ok found)) :
    Sound s uris read log { kept with scans := (uri, found) :: kept.scans } := by
  refine ⟨h.answered, h.once, h.files, h.unread, h.loaded, fun other blocks ho => ?_, h.index⟩
  rw [List.lookup_cons] at ho
  split at ho
  · rename_i heq
    obtain rfl := eq_of_beq heq
    obtain rfl := Option.some.inj ho
    exact hf
  · exact h.scans other blocks ho

theorem Sound.keepIndex {log : ReadLog} {kept : Session} {built : Except Failure Index}
    (h : Sound s uris read log kept) (hb : Settled s log (Reading.answer · (.index uris)) built) :
    Sound s uris read log { kept with index := some built } :=
  ⟨h.answered, h.once, h.files, h.unread, h.loaded, h.scans, fun _ he => Option.some.inj he ▸ hb⟩

theorem Computes.congr {x : StateT Session (StateM (ReadLog × σ)) α} {value other : Supply → α}
    (h : Computes s uris read x value) (he : ∀ source, value source = other source) :
    Computes s uris read x other := (funext he : value = other) ▸ h

theorem document_apply (uri : String)
    (kept : Session) (st : σ) : document s read uri kept st =
      let ((file, loaded), st) := s.document read uri kept.loaded st
      ((file.map (·.doc), { kept with loaded }), st) := rfl

theorem blocks_apply (uri : String)
    (kept : Session) (st : σ) : blocks s read uri kept st =
      match kept.scans.lookup uri with
      | some known => ((.ok known, kept), st)
      | none =>
        match document s read uri kept st with
        | ((.error failure, kept), st) => ((.error failure, kept), st)
        | ((.ok doc, kept), st) =>
          ((.ok (Block.scan doc), { kept with scans := (uri, Block.scan doc) :: kept.scans }), st) := by
  unfold blocks
  rw [get_bind_apply]
  cases kept.scans.lookup uri with
  | some known => rfl
  | none =>
    cases hd : document s read uri kept st with
    | mk result st =>
      obtain ⟨result, kept⟩ := result
      dsimp only
      rw [bind_apply hd]
      cases result with
      | error failure => rfl
      | ok doc => rfl

theorem indexOf_apply (uris : List String)
    (kept : Session) (st : σ) : indexOf s read uris kept st =
      match kept.index with
      | some known => ((known, kept), st)
      | none =>
        let ((found, kept), st) := gather s read uris kept st
        ((found.map .mk, { kept with index := some (found.map .mk) }), st) := by
  unfold indexOf
  rw [get_bind_apply]
  cases kept.index with
  | some known => rfl
  | none => rfl

section

variable (hs : ∀ uri path, s.path? uri = some path → uriOfPath path = uri)

include hs

theorem document_step (uri : String) {kept : Session} {log : ReadLog} (h : Sound s uris read log kept)
    (disk : σ) : ∃ file loaded new disk',
      s.document (recorded read) uri kept.loaded (log, disk) = ((file, loaded), log ++ new, disk') ∧
      Sound s uris read (log ++ new) { kept with loaded } ∧ Settled s (log ++ new) (· uri) file := by
  have hsource (rest : String → Except FileError Bytes) := s.source_freeze (firstRead log rest) uri
  rw [Snapshot.document_apply]
  split
  · rename_i doc hb
    refine ⟨_, _, [], disk, by rw [List.append_nil], by simpa using h, fun rest => ?_⟩
    simpa [hb, frozen] using hsource rest
  · rename_i hb hp
    refine ⟨_, _, [], disk, by rw [List.append_nil], by simpa using h, fun rest => ?_⟩
    simpa [hb, hp, frozen] using hsource rest
  · rename_i known hb hp hl
    exact ⟨known, _, [], disk, by rw [List.append_nil], by simpa using h,
      by simpa using h.loaded uri known hl⟩
  · rename_i path hb hp hl
    obtain ⟨hk, hset⟩ := h.keepRead hb hp (hs uri path hp) hl ⟨disk, rfl⟩
    exact ⟨_, _, [(path, (read path disk).1)], (read path disk).2, rfl, hk, hset⟩

theorem computes_document (uri : String) : Computes s uris read (document s (recorded read) uri)
    (Reading.answer · (.document uri)) := by
  intro kept log disk h
  obtain ⟨file, loaded, new, disk', he, hk, hset⟩ := document_step hs uri h disk
  exact ⟨file.map HostFile.doc, _, new, disk', by rw [document_apply, he], hk,
    hset.map (Except.map HostFile.doc)⟩

theorem computes_blocks (uri : String) : Computes s uris read (blocks s (recorded read) uri)
    (Reading.answer · (.blocks uri)) := by
  intro kept log disk h
  rw [blocks_apply]
  cases hk : kept.scans.lookup uri with
  | some known =>
    exact ⟨.ok known, kept, [], disk, by rw [List.append_nil], by simpa using h,
      by simpa using h.scans uri known hk⟩
  | none =>
    obtain ⟨doc, kept', new, disk', he, hk', hset⟩ := computes_document hs uri kept log disk h
    rw [he]
    have hblocks : Settled s (log ++ new) (Reading.answer · (.blocks uri)) (doc.map Block.scan) := by
      intro rest
      rw [← hset rest]
      exact Reading.answer_blocks _ uri
    cases doc with
    | error failure => exact ⟨.error failure, kept', new, disk', rfl, hk', hblocks⟩
    | ok doc => exact ⟨.ok (Block.scan doc), _, new, disk', rfl, hk'.keepScan hblocks, hblocks⟩

theorem computes_gather (us : List String) :
    Computes s uris read (gather s (recorded read) us) (Reading.gather · us) := by
  induction us with
  | nil => exact Computes.pure (Except.ok [])
  | cons uri us ih =>
    refine ((computes_blocks hs uri).bind (fun result source =>
      result.bind fun first => (Reading.gather source us).map (first ++ ·)) fun result => ?_).congr
      fun source => ?_
    · cases result with
      | error failure => exact Computes.pure _
      | ok first => exact ih.bind _ fun rest => Computes.pure _
    · rw [Reading.gather, Reading.answer]
      cases source uri with
      | error failure => rfl
      | ok file => rfl

theorem computes_index : Computes s uris read (indexOf s (recorded read) uris)
    (Reading.answer · (.index uris)) := by
  intro kept log disk h
  rw [indexOf_apply]
  cases hk : kept.index with
  | some known =>
    exact ⟨known, kept, [], disk, by rw [List.append_nil], by simpa using h,
      by simpa using h.index known hk⟩
  | none =>
    obtain ⟨found, kept', new, disk', he, hk', hset⟩ := computes_gather hs uris kept log disk h
    rw [he]
    have hindex := hset.map (Except.map Index.mk)
    exact ⟨_, _, new, disk', rfl, hk'.keepIndex hindex, hindex⟩

theorem computes_run {x : Reading α} (hx : x.IndexesOnly uris) :
    Computes s uris read (run s (recorded read) x) x.run := by
  induction x with
  | done a => exact Computes.pure a
  | ask request next ih =>
    have hrequest : Computes s uris read (answer s (recorded read) request) (Reading.answer · request) := by
      cases request with
      | document uri => exact computes_document hs uri
      | blocks uri => exact computes_blocks hs uri
      | index other =>
        obtain rfl := hx.1 other rfl
        exact computes_index hs
    exact hrequest.bind _ fun result => ih result (hx.2 result)

theorem computes_replies [Similar.Matcher] (ws : Workspace) (queries : List Query) :
    Computes s ws.uris read (replies s (recorded read) ws queries) fun source =>
      queries.map fun query => (query.reading ws).run source := by
  induction queries with
  | nil => exact Computes.pure []
  | cons query rest ih =>
    exact (computes_run hs (ws.query_indexesOnly query)).bind _ fun reply =>
      ih.bind _ fun replies => Computes.pure (reply :: replies)

end

/-- A computation, and the same one with the answers of the disk noted. -/
def Records (x : StateT Session (StateM σ) α) (x' : StateT Session (StateM (ReadLog × σ)) α) : Prop :=
  ∀ kept log disk, ∃ log', x' kept (log, disk) = ((x kept disk).1, log', (x kept disk).2)

theorem records_pure (a : α) :
    Records (pure a : StateT Session (StateM σ) α) (pure a) :=
  fun _ log _ => ⟨log, rfl⟩

theorem records_get : Records (get : StateT Session (StateM σ) Session) get :=
  fun _ log _ => ⟨log, rfl⟩

theorem records_modify (f : Session → Session) :
    Records (modify f : StateT Session (StateM σ) Unit) (modify f) := fun _ log _ => ⟨log, rfl⟩

theorem Records.bind {x : StateT Session (StateM σ) α} {x' : StateT Session (StateM (ReadLog × σ)) α}
    {f : α → StateT Session (StateM σ) β} {f' : α → StateT Session (StateM (ReadLog × σ)) β}
    (hx : Records x x') (hf : ∀ a, Records (f a) (f' a)) : Records (x >>= f) (x' >>= f') := by
  intro kept log disk
  obtain ⟨log₁, h₁⟩ := hx kept log disk
  obtain ⟨log₂, h₂⟩ := hf (x kept disk).1.1 (x kept disk).1.2 log₁ (x kept disk).2
  exact ⟨log₂, by rw [bind_apply h₁, h₂]; rfl⟩

section

variable (s) (read : String → StateM σ (Except FileError Bytes))

theorem records_document (uri : String) :
    Records (document s read uri) (document s (recorded read) uri) := by
  intro kept log disk
  rw [document_apply, document_apply, Snapshot.document_apply, Snapshot.document_apply]
  cases s.buffer? uri <;> cases s.path? uri <;> cases kept.loaded.lookup uri <;> exact ⟨_, rfl⟩

theorem records_blocks (uri : String) :
    Records (blocks s read uri) (blocks s (recorded read) uri) := by
  refine records_get.bind fun kept => ?_
  cases kept.scans.lookup uri with
  | some known => exact records_pure _
  | none =>
    refine (records_document s read uri).bind fun result => ?_
    cases result with
    | error failure => exact records_pure _
    | ok doc => exact (records_modify _).bind fun _ => records_pure _

theorem records_gather (uris : List String) :
    Records (gather s read uris) (gather s (recorded read) uris) := by
  induction uris with
  | nil => exact records_pure _
  | cons uri uris ih =>
    refine (records_blocks s read uri).bind fun result => ?_
    cases result with
    | error failure => exact records_pure _
    | ok first => exact ih.bind fun rest => records_pure _

theorem records_index (uris : List String) :
    Records (indexOf s read uris) (indexOf s (recorded read) uris) := by
  refine records_get.bind fun kept => ?_
  cases kept.index with
  | some known => exact records_pure _
  | none =>
    exact (records_gather s read uris).bind fun found => (records_modify _).bind fun _ => records_pure _

theorem records_run (x : Reading α) : Records (run s read x) (run s (recorded read) x) := by
  induction x with
  | done a => exact records_pure a
  | ask request next ih =>
    have hrequest : Records (answer s read request) (answer s (recorded read) request) := by
      cases request with
      | document uri => exact records_document s read uri
      | blocks uri => exact records_blocks s read uri
      | index uris => exact records_index s read uris
    exact hrequest.bind ih

theorem records_replies [Similar.Matcher] (ws : Workspace) (queries : List Query) :
    Records (replies s read ws queries) (replies s (recorded read) ws queries) := by
  induction queries with
  | nil => exact records_pure _
  | cons query rest ih =>
    exact (records_run s read _).bind fun reply => ih.bind fun replies => records_pure _

end

/-- In a new session, what is computed is settled by what is read for it. -/
theorem Computes.start {x : StateT Session (StateM σ) α} {x' : StateT Session (StateM (ReadLog × σ)) α}
    {value : Supply → α} (h : Computes s uris read x' value) (hr : Records x x') (disk : σ) :
    ∃ kept, Sound s uris read (x' {} ([], disk)).2.1 kept ∧
      Settled s (x' {} ([], disk)).2.1 value (x {} disk).1.1 := by
  obtain ⟨a, kept, log, disk', he, hk, hset⟩ := h {} [] disk (sound_nil s uris read)
  obtain ⟨log', he'⟩ := hr {} [] disk
  have ha : (x {} disk).1.1 = a := congrArg (fun result => result.1.1) (he'.symm.trans he)
  rw [he, ha]
  exact ⟨kept, hk, hset⟩

theorem firstRead_eq_of_answered {log : ReadLog} {text : String → Except FileError Bytes}
    (h : ∀ entry ∈ log, text entry.1 = entry.2) : firstRead log text = text := by
  funext path
  rw [firstRead]
  cases hl : log.lookup path with
  | none => rfl
  | some found =>
    obtain ⟨before, after, hs, _⟩ := List.lookup_eq_some_iff.mp hl
    exact (h (path, found) (by simp [hs])).symm

def fixed (text : String → Except FileError Bytes) (path : String) : StateM Unit (Except FileError Bytes) :=
  pure (text path)

/-- On a disk that never changes a session computes what is computed from the frozen snapshot. -/
theorem Computes.start_fixed {text : String → Except FileError Bytes}
    {x : StateT Session (StateM Unit) α} {x' : StateT Session (StateM (ReadLog × Unit)) α}
    {value : Supply → α} (h : Computes s uris (fixed text) x' value) (hr : Records x x') :
    (x {} ()).1.1 = value (Snapshot.source (s.freeze text)) := by
  obtain ⟨kept, hk, hset⟩ := h.start hr ()
  have hlog : firstRead _ text = text :=
    firstRead_eq_of_answered fun entry hm => (hk.answered entry hm).choose_spec
  rw [← hset text, frozen, hlog]

def returned [Similar.Matcher] (s : Snapshot) (catalog : Option Catalog)
    (read : String → StateM σ (Except FileError Bytes)) (disk : σ) (queries : List Query) : List Reply :=
  (replies s read (s.workspace catalog) queries {} disk).1.1

def reads [Similar.Matcher] (s : Snapshot) (catalog : Option Catalog)
    (read : String → StateM σ (Except FileError Bytes)) (disk : σ) (queries : List Query) : ReadLog :=
  (replies s (recorded read) (s.workspace catalog) queries {} ([], disk)).2.1

/-- Whatever the disk answers from call to call, each file is read at most once and no file is read
for a buffer; and calls return, alone or together, what they return of a snapshot whose files
stay as first read and are arbitrary where nothing was read. -/
theorem returned_frozen [Similar.Matcher] (buffers : List Document) (paths : List String)
    (catalog : Option Catalog)
    (read : String → StateM σ (Except FileError Bytes)) (disk : σ) (queries : List Query) :
    let s := Snapshot.ofBuffers buffers paths
    let log := reads s catalog read disk queries
    let replies := returned s catalog read disk queries
    (log.map fun entry => uriOfPath entry.1).Nodup ∧
    (∀ entry ∈ log, entry.1 ∈ paths ∧ uriOfPath entry.1 ∉ buffers.map (·.uri)) ∧
    (∀ (i j : Nat) (uri : String), queries[i]? = some (.document uri) →
      queries[j]? = some (.document uri) → replies[i]? = replies[j]?) ∧
    ∀ rest,
      (replies = queries.map fun query =>
        (query.reading (s.workspace catalog)).run (Snapshot.source (s.freeze (firstRead log rest)))) ∧
      replies = returned s catalog (fixed (firstRead log rest)) () queries := by
  intro s log replies
  have hnamed := Snapshot.uri_of_path? buffers paths
  obtain ⟨kept, hk, hset⟩ := (computes_replies hnamed (s.workspace catalog) queries).start
    (records_replies s read _ queries) disk
  refine ⟨hk.once, fun entry hm => ?_, fun i j uri hi hj => ?_, fun rest => ⟨(hset rest).symm, ?_⟩⟩
  · obtain ⟨hb, hp⟩ := hk.files entry hm
    exact ⟨(Snapshot.path?_eq_some hp).1, Snapshot.buffer?_eq_none hb⟩
  · have hreplies : replies = _ := (hset fun path => .error (.missing "open" path)).symm
    rw [hreplies, List.getElem?_map, List.getElem?_map, hi, hj]
  · exact (hset rest).symm.trans ((computes_replies hnamed (s.workspace catalog) queries).start_fixed
      (records_replies s _ _ queries)).symm

end Session

/-- A command computes in its session what is computed from the frozen documents of the disk. -/
theorem Command.readFrom_eq {α : Type} (d : Disk) (buffers : List Document) (paths : List String)
    {x : ReadM α} (hx : (ExceptT.run x).IndexesOnly (Snapshot.ofBuffers buffers paths).uris) :
    readFrom d (Snapshot.ofBuffers buffers paths) x
      = (ReadM.run (sourceOf d (Snapshot.ofBuffers buffers paths)) x).mapError .documents := by
  have hcomputes : Session.Computes _ _ (Session.fixed d.read) _ _ :=
    Session.computes_run (Snapshot.uri_of_path? buffers paths) hx
  have h := hcomputes.start_fixed (Session.records_run _ _ _)
  exact congrArg (Except.mapError CommandError.documents) h

end HostScript
