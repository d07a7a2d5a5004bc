import HostScript.Catalog.Yaml
import HostScript.Server.Handle
import HostScript.Similar

/-!
What a server has of the documents that are open in an editor. Both follow the same notices. They part
where a change brings no text: the editor goes on showing the text it has, the server has none left.
-/

set_option autoImplicit false

namespace HostScript

/-- What an editor reports of one document. The texts of a change replace the whole text one after
another. -/
inductive Notice where
  | opened (text : Bytes)
  | changed (texts : List Bytes)
  | closed
  deriving DecidableEq

namespace Notice

/-- What an editor shows of a document after one more notice. -/
def shown (text : Option Bytes) : Notice → Option Bytes
  | opened new => some new
  | changed texts => text.map texts.getLastD
  | closed => none

/-- What a server has of a document after a notice. -/
def kept : Notice → Option Bytes
  | opened new => some new
  | changed texts => some (Server.textAfter texts)
  | closed => none

/-- An editor changes and closes open documents only. -/
def Allowed (text : Option Bytes) : Notice → Prop
  | opened _ => True
  | changed _ | closed => text.isSome

def AllAllowed (text : Option Bytes) : List Notice → Prop
  | [] => True
  | notice :: rest => notice.Allowed text ∧ AllAllowed (notice.shown text) rest

theorem kept_eq_shown {text : Option Bytes} {notice : Notice} (ha : notice.Allowed text)
    (hn : notice ≠ .changed []) : notice.kept = notice.shown text := by
  cases notice with
  | opened new => rfl
  | closed => rfl
  | changed texts =>
    obtain ⟨old, rfl⟩ := Option.isSome_iff_exists.mp ha
    cases texts with
    | nil => exact absurd rfl hn
    | cons new later => rfl

theorem allAllowed_append {text : Option Bytes} {front back : List Notice} :
    AllAllowed text (front ++ back) ↔
      AllAllowed text front ∧ AllAllowed (front.foldl shown text) back := by
  induction front generalizing text with
  | nil => simp [AllAllowed]
  | cons notice front ih => simp [AllAllowed, ih, and_assoc]

/-- Only the last notice counts, and only a change without a text is understood in two ways. -/
theorem foldl_kept {notices : List Notice} (ha : AllAllowed none notices) :
    notices.foldl (fun _ notice => notice.kept) none
      = if notices.getLast? = some (.changed []) then some [] else notices.foldl shown none := by
  obtain rfl | ⟨front, notice, rfl⟩ := List.eq_nil_or_concat notices
  · rfl
  · rw [List.concat_eq_append] at ha ⊢
    obtain ⟨-, hlast, -⟩ := allAllowed_append.mp ha
    rw [List.foldl_append, List.foldl_append, List.getLast?_concat]
    by_cases he : notice = .changed []
    · rw [if_pos (congrArg some he), he]
      rfl
    · rw [if_neg fun h => he (Option.some.inj h)]
      exact kept_eq_shown hlast he

end Notice

def Request.notice? (uri : String) : Request → Option Notice
  | opened u _ text => if u = uri then some (.opened text) else none
  | changed u _ texts => if u = uri then some (.changed texts) else none
  | closed u => if u = uri then some .closed else none
  | _ => none

namespace Buffers

variable {uri other : String} {version : Int} {text : Bytes} (bs : Buffers)

theorem doc?_erase : (bs.erase uri).doc? other = if uri = other then none else bs.doc? other := by
  simp only [doc?, get?, erase, List.find?_filter]
  by_cases h : uri = other
  · simp [h]
  · -- a buffer of the other document is not erased, so the two searches look for the same
    rw [if_neg h]
    congr 2
    funext b
    by_cases hb : b.doc.uri = other
    · simp [hb, Ne.symm h]
    · simp [hb]

theorem doc?_put : (bs.put uri version text).doc? other
    = if uri = other then some (.ofText uri text) else bs.doc? other := by
  have hu : (Document.ofText uri text).uri = uri := rfl
  have he : (bs.erase uri).doc? other = if uri = other then none else bs.doc? other := bs.doc?_erase
  simp only [doc?, get?, put, List.find?_cons, hu] at he ⊢
  by_cases h : uri = other
  · simp [h]
  · have hb : (uri == other) = false := beq_false_of_ne h
    simpa [hb, h] using he

end Buffers

namespace Server

def text? (s : Server) (uri : String) : Option Bytes := (s.buffers.doc? uri).map (·.text)

section Step

variable {s t : Server} {u uri : String}

theorem text?_congr (h : s.buffers = t.buffers) (uri : String) : s.text? uri = t.text? uri := by
  rw [text?, text?, h]

theorem text?_put {version : Int} {text : Bytes} (h : s.buffers = t.buffers.put u version text) :
    s.text? uri = if u = uri then some text else t.text? uri := by
  rw [text?, h, Buffers.doc?_put]
  split <;> rfl

theorem text?_erase (h : s.buffers = t.buffers.erase u) :
    s.text? uri = if u = uri then none else t.text? uri := by
  rw [text?, h, Buffers.doc?_erase]
  split <;> rfl

theorem publishLive_buffers [Similar.Matcher] : (s.publishLive u).2.buffers = s.buffers := by
  unfold publishLive
  cases s.buffers.doc? u <;> rfl

theorem greet_buffers [Catalog.Decoder] (d : Disk) (root : Option String) :
    (s.greet d root).buffers = s.buffers := by
  unfold greet
  simp only
  split <;> rfl

theorem changed_buffers [Similar.Matcher] [Catalog.Decoder] (d : Disk) (after : Option Nat) (version : Int)
    (texts : List Bytes) :
    (s.perform d after (.changed u version texts)).2.buffers
      = s.buffers.put u version (textAfter texts) := by
  unfold perform
  simp only
  split
  · exact publishLive_buffers
  · rfl

end Step

/-- What a server has of a document changes with the notices on that document and with nothing else. -/
theorem text?_perform [Similar.Matcher] [Catalog.Decoder] (s : Server) (d : Disk) (after : Option Nat)
    (request : Request) (uri : String) :
    (s.perform d after request).2.text? uri
      = (request.notice? uri).elim (s.text? uri) Notice.kept := by
  cases request with
  | opened u version text =>
    have hb : (s.perform d after (.opened u version text)).2.buffers = s.buffers.put u version text :=
      publishLive_buffers
    rw [text?_put hb, Request.notice?]
    split <;> rfl
  | changed u version texts =>
    rw [text?_put (changed_buffers d after version texts), Request.notice?]
    split <;> rfl
  | closed u =>
    have hb : (s.perform d after (.closed u)).2.buffers = s.buffers.erase u := rfl
    rw [text?_erase hb, Request.notice?]
    split <;> rfl
  | greet root => exact text?_congr (greet_buffers d root) uri
  | saved u => exact text?_congr publishLive_buffers uri
  | farewell => rfl
  | exit => rfl
  | setTrace => rfl
  | signatureHelp place => rfl
  | parseScript place strict => rfl
  | checkNow u => rfl
  | checkLater u => rfl
  | statistics place => rfl
  | completion place => rfl
  | hover place => rfl
  | definition place => rfl
  | references place withDefinitions => rfl
  | documentSymbols u => rfl
  | foldingRanges u => rfl
  | quickFixes u only findings => rfl
  | workspaceSymbols query => rfl
  | cursorContext place => rfl
  | reachable u => rfl
  | cancelCheck u => rfl
  | scriptNumber place => rfl
  | blockStart place => rfl
  | hookStart query => rfl

/-- A request, the files there are when it comes in, and the number of blocks after which the editor
stops a check in the background. -/
structure Arrival where
  request : Request
  disk : Disk
  after : Option Nat

def performAll [Similar.Matcher] [Catalog.Decoder] (s : Server) (arrivals : List Arrival) : Server :=
  arrivals.foldl (fun s a => (s.perform a.disk a.after a.request).2) s

def notices (uri : String) (arrivals : List Arrival) : List Notice :=
  arrivals.filterMap (·.request.notice? uri)

theorem notices_filter (uri : String) (arrivals : List Arrival) :
    notices uri (arrivals.filter fun a => (a.request.notice? uri).isSome) = notices uri arrivals := by
  rw [notices, List.filterMap_filter]
  congr 1
  funext a
  cases a.request.notice? uri <;> rfl

theorem text?_performAll [Similar.Matcher] [Catalog.Decoder] (s : Server) (arrivals : List Arrival)
    (uri : String) :
    (s.performAll arrivals).text? uri
      = (notices uri arrivals).foldl (fun _ notice => notice.kept) (s.text? uri) := by
  induction arrivals generalizing s with
  | nil => rfl
  | cons a rest ih =>
    have hstep := text?_perform s a.disk a.after a.request uri
    have hrun : s.performAll (a :: rest) = (s.perform a.disk a.after a.request).2.performAll rest := rfl
    rw [hrun, ih, hstep, notices, notices, List.filterMap_cons]
    cases a.request.notice? uri <;> rfl

/-- A server has the text the editor shows unless the last notice on the document is a change without
a text. Then it has an empty text, so the two agree only if the editor shows an empty text as well.
What is reported of other documents does not count. -/
theorem text?_performAll_of_allAllowed [Similar.Matcher] [Catalog.Decoder] {s : Server}
    (hs : s.buffers.entries = [])
    {arrivals : List Arrival} {uri : String} (ha : Notice.AllAllowed none (notices uri arrivals)) :
    let text := (s.performAll arrivals).text? uri
    let shown := (notices uri arrivals).foldl Notice.shown none
    let emptied := (notices uri arrivals).getLast? = some (.changed [])
    text = (if emptied then some [] else shown) ∧
      (text = shown ↔ (emptied → shown = some [])) ∧
      text = (s.performAll (arrivals.filter fun a => (a.request.notice? uri).isSome)).text? uri := by
  intro text shown emptied
  have hempty : s.text? uri = none := by simp [text?, Buffers.doc?, Buffers.get?, hs]
  have htext : text = (notices uri arrivals).foldl (fun _ notice => notice.kept) none := by
    rw [← hempty]
    exact text?_performAll s arrivals uri
  have hmain : text = if emptied then some [] else shown := htext.trans (Notice.foldl_kept ha)
  refine ⟨hmain, ?_, ?_⟩
  · rw [hmain]
    by_cases he : emptied
    · rw [if_pos he]
      exact ⟨fun h _ => h.symm, fun h => (h he).symm⟩
    · rw [if_neg he]
      exact ⟨fun _ h => absurd h he, fun _ => rfl⟩
  · rw [htext, text?_performAll, hempty, notices_filter]

/-- Two documents are opened. The first gets a new text, the change of the second brings none. -/
def twoEdits : List Arrival :=
  [.opened "a" 1 (utf8 "SCRIPT:1,A"), .opened "b" 1 (utf8 "SCRIPT:3,A"),
    .changed "a" 2 [[], utf8 "SCRIPT:2,A"], .changed "b" 2 []].map fun request =>
      ⟨request, ⟨"/", .directory []⟩, none⟩

theorem text?_performAll_twoEdits :
    let s : Server := {}
    s.buffers.entries = [] ∧ Notice.AllAllowed none (notices "a" twoEdits) ∧
      (s.performAll twoEdits).text? "a" = some (utf8 "SCRIPT:2,A") := by
  have ha : Notice.AllAllowed none (notices "a" twoEdits) := by
    simp [Notice.AllAllowed, Notice.Allowed, Notice.shown, notices, twoEdits, Request.notice?]
  obtain ⟨ht, -, -⟩ := text?_performAll_of_allAllowed (s := {}) rfl ha
  exact ⟨rfl, ha, ht⟩

/-- The editor still shows the second document as it was opened. -/
theorem text?_ne_shown_of_emptyChange :
    let s : Server := {}
    s.buffers.entries = [] ∧ Notice.AllAllowed none (notices "b" twoEdits) ∧
      (s.performAll twoEdits).text? "b" = some [] ∧
      (notices "b" twoEdits).foldl Notice.shown none = some (utf8 "SCRIPT:3,A") ∧
      (s.performAll twoEdits).text? "b" ≠ (notices "b" twoEdits).foldl Notice.shown none := by
  have ht : (({} : Server).performAll twoEdits).text? "b" = some [] := text?_performAll {} twoEdits "b"
  have hs : (notices "b" twoEdits).foldl Notice.shown none = some (utf8 "SCRIPT:3,A") := rfl
  refine ⟨rfl, ?_, ht, hs, ?_⟩
  · simp [Notice.AllAllowed, Notice.Allowed, Notice.shown, notices, twoEdits, Request.notice?]
  · rw [ht, hs]
    decide

end Server

end HostScript
