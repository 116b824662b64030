import IntelNav.App.Catalog
import IntelNav.Transition.Run

/-! Installs of catalog models (`crates/app/src/download.rs`) on one models directory, by what they
do to its files, with servers and disks that fail and tasks that are killed at any point. -/

set_option autoImplicit false
set_option relaxedAutoImplicit false

namespace IntelNav.App.Downloads

open IntelNav.Disk IntelNav.ModelStore IntelNav.Reading IntelNav.Transition

/-- The errors of `download`, by their contexts. -/
inductive DownloadError
  | mkdir (parent : Location)
  | httpClient
  | get (url : String)
  | returned (url : String) (status : Nat)
  | create (part : Location)
  | networkRead
  | fileWrite
  | rename (part dest : Location)
  deriving DecidableEq

/-- What is reported of an install; the speed of a download is left out. -/
inductive DownloadEvent
  | progress (label : String) (done : Nat) (total : Option Nat)
  | done (label : String) (path : Location)
  | error (label : String) (e : DownloadError)
  deriving DecidableEq

/-- Where an install stands. What was handed to the file and is not on the disk yet is `pending`;
when a write failed the file says so at the next one only. A `draining` install has returned its
error. -/
inductive InstallStage
  | asking (file : Sidecar)
  | creating (file : Sidecar) (body : Bytes) (total : Option Nat)
  | streaming (file : Sidecar) (body : Bytes) (total : Option Nat) (handle pos : Nat)
      (pending : Bytes) (done : Nat)
  | spoiled (file : Sidecar) (body : Bytes) (done : Nat)
  | draining (file : Sidecar) (handle pos : Nat) (pending : Bytes)
  | moving (file : Sidecar) (body : Bytes) (done : Nat)
  | ended

/-- What keeps `download` from getting a body. -/
inductive Refusal
  | mkdir
  | httpClient
  | get
  | status (code : Nat)
  deriving DecidableEq

def Refusal.isFailure : Refusal → Bool
  | .status code => !(200 ≤ code && code ≤ 299)
  | _ => true

/-- What moves an install: its next file operation succeeds or fails, the server refuses or replies
with a body, a piece of the body comes (and progress may be due), the connection is lost or the body
ends; a piece reaches the disk, or only its first bytes do and the write fails; the task is
killed. -/
inductive InstallMove
  | refuse (r : Refusal)
  | reply (file : Sidecar) (body : Bytes) (total : Option Nat)
  | next
  | fail
  | receive (n : Nat) (tick : Bool)
  | lose
  | finish
  | write (n : Nat)
  | spoil (file : Sidecar) (n : Nat)
  | kill
  deriving DecidableEq

def InstallStage.isLive : InstallStage → Bool
  | .draining _ _ _ pending => !pending.isEmpty
  | .ended => false
  | _ => true

structure Install where
  entry : HubEntry
  stage : InstallStage
  events : List DownloadEvent

structure Installs where
  volume : ByteVolume
  installs : List Install

inductive InstallEvent
  | start (entry : HubEntry)
  | act (install : Nat) (move : InstallMove)
  deriving DecidableEq

section Machine

variable (dir : Location)

def Refusal.error (entry : HubEntry) (file : Sidecar) : Refusal → DownloadError
  | .mkdir => .mkdir (destPath dir entry file).dropLast
  | .httpClient => .httpClient
  | .get => .get (url entry file)
  | .status code => .returned (url entry file) code

def installAct (v : ByteVolume) (entry : HubEntry) :
    InstallStage → InstallMove → Option (ByteVolume × InstallStage × List DownloadEvent)
  | .asking file, .refuse r =>
      if r.isFailure then some (v, .ended, [.error (label entry file) (r.error dir entry file)])
      else none
  | .asking file, .reply file' body total =>
      if file' = file then some (v, .creating file body total, []) else none
  | .creating file body total, .next =>
      let (v, handle) := v.create (partPath dir entry file)
      some (v, .streaming file body total handle 0 [] 0, [])
  | .creating file _ _, .fail =>
      some (v, .ended, [.error (label entry file) (.create (partPath dir entry file))])
  | .streaming file body total handle pos [] done, .receive n tick =>
      let chunk := (body.drop done).take n
      if chunk = [] then none
      else
        let done := done + chunk.length
        some (v, .streaming file body total handle pos chunk done,
          if tick then [.progress (label entry file) done total] else [])
  | .streaming file body total handle pos pending done, .write n =>
      let piece := pending.take n
      if piece = [] then none
      else some (v.writeAt handle pos piece,
        .streaming file body total handle (pos + piece.length) (pending.drop n) done, [])
  | .streaming file body _ handle pos pending done, .spoil file' n =>
      if file' = file ∧ n < pending.length then
        some (v.writeAt handle pos (pending.take n), .spoiled file body done, [])
      else none
  | .streaming file _ _ handle pos pending _, .lose =>
      some (v, .draining file handle pos pending, [.error (label entry file) .networkRead])
  | .streaming file body _ _ _ [] done, .finish =>
      if done = body.length then some (v, .moving file body done, []) else none
  | .spoiled file body done, .receive n _ =>
      if (body.drop done).take n = [] then none
      else some (v, .ended, [.error (label entry file) .fileWrite])
  | .spoiled file _ _, .lose => some (v, .ended, [.error (label entry file) .networkRead])
  | .spoiled file body done, .finish =>
      if done = body.length then some (v, .moving file body done, []) else none
  | .draining file handle pos pending, .write n =>
      let piece := pending.take n
      if piece = [] then none
      else some (v.writeAt handle pos piece,
        .draining file handle (pos + piece.length) (pending.drop n), [])
  | .draining file handle pos pending, .spoil file' n =>
      if file' = file ∧ n < pending.length then
        some (v.writeAt handle pos (pending.take n), .ended, [])
      else none
  | .moving file _ done, .next =>
      match v.rename (partPath dir entry file) (destPath dir entry file) with
      | none =>
          some (v, .ended, [.error (label entry file)
            (.rename (partPath dir entry file) (destPath dir entry file))])
      | some v =>
          let tick : DownloadEvent := .progress (label entry file) done (some done)
          match file with
          | .tokenizer => some (v, .asking .weights, [tick])
          | .weights => some (v, .ended, [tick, .done entry.displayName (destPath dir entry file)])
  | .moving file _ _, .fail =>
      some (v, .ended, [.error (label entry file)
        (.rename (partPath dir entry file) (destPath dir entry file))])
  | stage, .kill => if stage.isLive then some (v, .ended, []) else none
  | _, _ => none

def installStep (s : Installs) : InstallEvent → Option Installs
  | .start entry => some { s with installs := s.installs ++ [⟨entry, .asking .tokenizer, []⟩] }
  | .act i move => do
      let r ← s.installs[i]?
      let (v, stage, events) ← installAct dir s.volume r.entry r.stage move
      some ⟨v, s.installs.set i { r with stage, events := r.events ++ events }⟩

end Machine

/-- An install of an entry of the catalog starts when no other one of the same entry is going on. -/
def InstallsApart (s : Installs) : InstallEvent → Prop
  | .start entry => entry ∈ catalog ∧
      ∀ r ∈ s.installs, r.entry = entry → r.stage.isLive = false
  | .act _ _ => True

/-- What a file was made of: a server's reply to the install, cut short only where a write
failed. -/
structure Fetched (events : List InstallEvent) (i : Nat) (file : Sidecar) (bytes body : Bytes) :
    Prop where
  replied : ∃ total, .act i (.reply file body total) ∈ events
  isPrefix : bytes <+: body
  whole : bytes = body ∨ ∃ n, .act i (.spoil file n) ∈ events

section Said

variable (dir : Location) (start : ByteVolume)

/-- The files of a models directory, as the installs since `start` have left them. -/
structure Installed (events : List InstallEvent) (s : Installs) : Prop where
  kept :
    ∀ p, (∀ entry ∈ catalog, ∀ file, p ≠ destPath dir entry file ∧ p ≠ partPath dir entry file) →
    s.volume.content p = start.content p
  shown : ∀ entry ∈ catalog, ∀ file bytes, s.volume.content (destPath dir entry file) = some bytes →
    start.content (destPath dir entry file) = some bytes ∨
      ∃ i r body, s.installs[i]? = some r ∧ r.entry = entry ∧ Fetched events i file bytes body
  paired : ∀ entry ∈ catalog,
    s.volume.content (destPath dir entry .weights) ≠ start.content (destPath dir entry .weights) →
      locateFor s.volume (destPath dir entry .weights) = some (destPath dir entry .tokenizer)
  told : ∀ r ∈ s.installs, ∀ name path, .done name path ∈ r.events →
    path = destPath dir r.entry .weights ∧ (s.volume.content path).isSome ∧
      locateFor s.volume path = some (destPath dir r.entry .tokenizer)

end Said

variable {dir : Location} {start v v' : ByteVolume} {entry d : HubEntry} {file f g : Sidecar}
variable {es es' : List InstallEvent} {i : Nat} {stage stage' : InstallStage} {s t : Installs}

theorem Fetched.mono {bytes body : Bytes} (h : Fetched es i file bytes body) (hes : es ⊆ es') :
    Fetched es' i file bytes body where
  replied := h.replied.imp fun _ hmem => hes hmem
  isPrefix := h.isPrefix
  whole := h.whole.imp_right fun ⟨n, hmem⟩ => ⟨n, hes hmem⟩

section Knows

variable (dir v entry es i)

def Ready (file : Sidecar) : Prop :=
  file = .weights → (v.content (destPath dir entry .tokenizer)).isSome

def Written (file : Sidecar) (body : Bytes) : Prop :=
  ∃ bytes, v.content (partPath dir entry file) = some bytes ∧ Fetched es i file bytes body

/-- What the stage of an install says about its files, as long as no other install touches them. -/
def Knows : InstallStage → Prop
  | .asking file => Ready dir v entry file
  | .creating file body _ => Ready dir v entry file ∧ ∃ total, .act i (.reply file body total) ∈ es
  | .streaming file body _ handle pos pending done =>
      Ready dir v entry file ∧ (∃ total, .act i (.reply file body total) ∈ es) ∧
        v.entries.lookup (partPath dir entry file) = some handle ∧ (v.inode handle).length = pos ∧
        v.inode handle ++ pending = body.take done
  | .spoiled file body _ => Ready dir v entry file ∧ Written dir v entry es i file body
  | .draining file handle _ pending =>
      pending ≠ [] → v.entries.lookup (partPath dir entry file) = some handle
  | .moving file body _ => Ready dir v entry file ∧ Written dir v entry es i file body
  | .ended => True

end Knows

private theorem knows_idle (h : stage.isLive = false) : Knows dir v entry es i stage := by
  cases stage with
  | draining file handle pos pending =>
      intro hpending
      cases pending with
      | nil => exact absurd rfl hpending
      | cons => cases h
  | ended => trivial
  | _ => cases h

theorem Ready.same (h : Ready dir v entry file)
    (hsame : Volume.SameAt v v' (destPath dir entry .tokenizer)) : Ready dir v' entry file := by
  intro hfile
  rw [hsame.content]
  exact h hfile

theorem Knows.same (h : Knows dir v entry es i stage) (hes : es ⊆ es')
    (hdest : Volume.SameAt v v' (destPath dir entry .tokenizer))
    (hpart : ∀ file, Volume.SameAt v v' (partPath dir entry file)) :
    Knows dir v' entry es' i stage := by
  have hwritten : ∀ {file body}, Written dir v entry es i file body →
      Written dir v' entry es' i file body := by
    rintro file body ⟨bytes, hcontent, hfetched⟩
    exact ⟨bytes, (hpart file).content.trans hcontent, hfetched.mono hes⟩
  cases stage with
  | asking file => exact Ready.same h hdest
  | creating file body total =>
      obtain ⟨hready, total, hreplied⟩ := h
      exact ⟨hready.same hdest, total, hes hreplied⟩
  | streaming file body total handle pos pending done =>
      obtain ⟨hready, ⟨total, hreplied⟩, hlookup, hrest⟩ := h
      refine ⟨hready.same hdest, ⟨total, hes hreplied⟩, (hpart file).lookup.trans hlookup, ?_⟩
      rwa [(hpart file).inode handle hlookup]
  | spoiled file body done => exact ⟨h.1.same hdest, hwritten h.2⟩
  | draining file handle pos pending =>
      intro hpending
      exact (hpart file).lookup.trans (h hpending)
  | moving file body done => exact ⟨h.1.same hdest, hwritten h.2⟩
  | ended => trivial

section Effect

variable (dir v entry es i)

inductive InstallEffect : ByteVolume → Prop
  | none : InstallEffect v
  | create (file : Sidecar) : InstallEffect (v.create (partPath dir entry file)).1
  | write (file : Sidecar) {handle : Nat} (pos : Nat) (piece : Bytes)
      (hopen : v.entries.lookup (partPath dir entry file) = some handle) :
      InstallEffect (v.writeAt handle pos piece)
  | rename {file : Sidecar} {v' : ByteVolume} {body : Bytes} (hready : Ready dir v entry file)
      (hwritten : Written dir v entry es i file body)
      (hrename : v.rename (partPath dir entry file) (destPath dir entry file) = some v') :
      InstallEffect v'

end Effect

theorem InstallEffect.same (h : InstallEffect dir v entry es i v') {p : Location}
    (hp : ∀ file, p ≠ destPath dir entry file ∧ p ≠ partPath dir entry file) :
    Volume.SameAt v v' p := by
  cases h with
  | none => exact .refl v p
  | create file => exact Volume.sameAt_create (hp file).2
  | write file pos piece hopen => exact Volume.sameAt_writeAt hopen (hp file).2
  | @rename file _ _ _ _ hrename => exact Volume.sameAt_rename hrename (hp file).2 (hp file).1

theorem InstallEffect.shown (h : InstallEffect dir v entry es i v') (he : entry ∈ catalog)
    (hd : d ∈ catalog) (f : Sidecar) :
    v'.content (destPath dir d f) = v.content (destPath dir d f) ∨
      d = entry ∧ Ready dir v entry f ∧
        ∃ bytes body, v'.content (destPath dir d f) = some bytes ∧ Fetched es i f bytes body := by
  cases h with
  | none => exact .inl rfl
  | create file => exact .inl (Volume.content_create_ne (destPath_ne_partPath hd he))
  | write file pos piece hopen =>
      exact .inl (Volume.sameAt_writeAt hopen (destPath_ne_partPath hd he)).content
  | @rename file _ body hready hwritten hrename =>
      by_cases heq : destPath dir d f = destPath dir entry file
      · obtain ⟨rfl, rfl⟩ := destPath_inj hd he heq
        obtain ⟨bytes, hcontent, hfetched⟩ := hwritten
        refine .inr ⟨rfl, hready, bytes, body, ?_, hfetched⟩
        rw [(Volume.content_rename hrename).1, hcontent]
      · exact .inl (Volume.sameAt_rename hrename (destPath_ne_partPath hd he) heq).content

theorem InstallEffect.isSome (h : InstallEffect dir v entry es i v') (he : entry ∈ catalog)
    (hd : d ∈ catalog) {f : Sidecar} (hsome : (v.content (destPath dir d f)).isSome) :
    (v'.content (destPath dir d f)).isSome := by
  rcases h.shown he hd f with heq | ⟨-, -, bytes, body, hbytes, -⟩
  · rw [heq]
    exact hsome
  · rw [hbytes]
    rfl

def Told (dir : Location) (v : ByteVolume) (entry : HubEntry)
    (events : List DownloadEvent) : Prop :=
  ∀ name path, .done name path ∈ events → path = destPath dir entry .weights ∧
    (v.content (destPath dir entry .weights)).isSome ∧
      (v.content (destPath dir entry .tokenizer)).isSome

private theorem Told.of_quiet {events : List DownloadEvent}
    (h : ∀ name path, .done name path ∉ events) : Told dir v entry events :=
  fun name path hmem => absurd hmem (h name path)

private theorem take_chunk {body piece : Bytes} {done n : Nat} (h : piece = body.take done) :
    piece ++ (body.drop done).take n = body.take (done + ((body.drop done).take n).length) := by
  rw [List.take_add, h]
  congr 1
  exact List.prefix_iff_eq_take.mp (List.take_prefix n _)

theorem moved {st : InstallStage} {events events' : List DownloadEvent}
    (h : some (v, st, events) = some (v', stage', events')) :
    v' = v ∧ stage' = st ∧ events' = events := by
  obtain ⟨hv, hrest⟩ := Prod.mk.inj (Option.some.inj h)
  obtain ⟨hst, hevents⟩ := Prod.mk.inj hrest
  exact ⟨hv.symm, hst.symm, hevents.symm⟩

private theorem written_spoiled {body pending : Bytes} {handle pos done n : Nat}
    (hreplied : ∃ total, .act i (.reply file body total) ∈ es)
    (hspoil : .act i (.spoil file n) ∈ es)
    (hlookup : v.entries.lookup (partPath dir entry file) = some handle)
    (hpos : (v.inode handle).length = pos) (hbody : v.inode handle ++ pending = body.take done) :
    Written dir (v.writeAt handle pos (pending.take n)) entry es i file body := by
  have hinode : (v.writeAt handle pos (pending.take n)).inode handle =
      v.inode handle ++ pending.take n := Volume.inode_writeAt_end hlookup hpos
  refine ⟨v.inode handle ++ pending.take n, ?_, hreplied, ?_, .inr ⟨n, hspoil⟩⟩
  · rw [← hinode]
    exact Volume.content_of_lookup hlookup
  · have hfirst : v.inode handle ++ pending.take n <+: body.take done := by
      rw [← hbody]
      exact (List.prefix_append_right_inj _).mpr (List.take_prefix n pending)
    exact hfirst.trans (List.take_prefix done body)

private theorem Knows.mono (h : Knows dir v entry es i stage) (hes : es ⊆ es') :
    Knows dir v entry es' i stage :=
  h.same hes (.refl v _) fun _ => .refl v _

private theorem Knows.created {body : Bytes} {total : Option Nat} (he : entry ∈ catalog)
    (h : Knows dir v entry es i (.creating file body total)) :
    Knows dir (v.create (partPath dir entry file)).1 entry es i
      (.streaming file body total (v.create (partPath dir entry file)).2 0 [] 0) := by
  obtain ⟨hready, hreplied⟩ := h
  have hsame : Volume.SameAt v (v.create (partPath dir entry file)).1
      (destPath dir entry .tokenizer) := Volume.sameAt_create (destPath_ne_partPath he he)
  have hempty := Volume.inode_create v (partPath dir entry file)
  refine ⟨hready.same hsame, hreplied, Volume.lookup_create v _, congrArg List.length hempty, ?_⟩
  exact congrArg (· ++ []) hempty

section Streaming

variable {body pending : Bytes} {total : Option Nat} {handle pos done n : Nat}

private theorem Knows.received
    (h : Knows dir v entry es i (.streaming file body total handle pos [] done)) :
    Knows dir v entry es i (.streaming file body total handle pos ((body.drop done).take n)
      (done + ((body.drop done).take n).length)) := by
  obtain ⟨hready, hreplied, hlookup, hpos, hbody⟩ := h
  rw [List.append_nil] at hbody
  exact ⟨hready, hreplied, hlookup, hpos, take_chunk hbody⟩

private theorem Knows.wrote (he : entry ∈ catalog)
    (h : Knows dir v entry es i (.streaming file body total handle pos pending done)) :
    Knows dir (v.writeAt handle pos (pending.take n)) entry es i
      (.streaming file body total handle (pos + (pending.take n).length)
        (pending.drop n) done) := by
  obtain ⟨hready, hreplied, hlookup, hpos, hbody⟩ := h
  have hsame : Volume.SameAt v (v.writeAt handle pos (pending.take n))
      (destPath dir entry .tokenizer) :=
    Volume.sameAt_writeAt hlookup (destPath_ne_partPath he he)
  have hinode : (v.writeAt handle pos (pending.take n)).inode handle =
      v.inode handle ++ pending.take n := Volume.inode_writeAt_end hlookup hpos
  refine ⟨hready.same hsame, hreplied, hlookup, ?_, ?_⟩
  · rw [hinode, List.length_append, hpos]
  · rw [hinode, List.append_assoc, List.take_append_drop, hbody]

private theorem Knows.wasSpoiled (he : entry ∈ catalog)
    (h : Knows dir v entry es i (.streaming file body total handle pos pending done))
    (hspoil : .act i (.spoil file n) ∈ es) :
    Knows dir (v.writeAt handle pos (pending.take n)) entry es i (.spoiled file body done) := by
  obtain ⟨hready, hreplied, hlookup, hpos, hbody⟩ := h
  have hsame : Volume.SameAt v (v.writeAt handle pos (pending.take n))
      (destPath dir entry .tokenizer) :=
    Volume.sameAt_writeAt hlookup (destPath_ne_partPath he he)
  exact ⟨hready.same hsame, written_spoiled hreplied hspoil hlookup hpos hbody⟩

private theorem Knows.finished
    (h : Knows dir v entry es i (.streaming file body total handle pos [] done))
    (hend : done = body.length) : Knows dir v entry es i (.moving file body done) := by
  obtain ⟨hready, hreplied, hlookup, -, hbody⟩ := h
  refine ⟨hready, body, ?_, hreplied, List.prefix_rfl, .inl rfl⟩
  rw [List.append_nil, hend, List.take_length] at hbody
  rw [Volume.content_of_lookup hlookup, hbody]

end Streaming

/-- Once the weights have their name, both files are there. -/
private theorem Knows.renamed {body : Bytes} {done : Nat} (he : entry ∈ catalog)
    (h : Knows dir v entry es i (.moving file body done))
    (hrename : v.rename (partPath dir entry file) (destPath dir entry file) = some v') :
    InstallEffect dir v entry es i v' ∧ (v'.content (destPath dir entry file)).isSome ∧
      (file = .weights → (v'.content (destPath dir entry .tokenizer)).isSome) := by
  obtain ⟨hready, bytes, hcontent, hfetched⟩ := h
  have heffect : InstallEffect dir v entry es i v' :=
    .rename hready ⟨bytes, hcontent, hfetched⟩ hrename
  refine ⟨heffect, ?_, fun hfile => heffect.isSome he he (hready hfile)⟩
  rw [(Volume.content_rename hrename).1, hcontent]
  rfl

/-- A move has one of these effects, its install knows of its files what its new stage says, and it
says that it is done when both are there. -/
private theorem installAct_effect {move : InstallMove} {events : List DownloadEvent}
    (he : entry ∈ catalog) (hknows : Knows dir v entry es i stage)
    (h : installAct dir v entry stage move = some (v', stage', events)) :
    InstallEffect dir v entry (es ++ [.act i move]) i v' ∧
      Knows dir v' entry (es ++ [.act i move]) i stage' ∧ Told dir v' entry events := by
  have hnow : InstallEvent.act i move ∈ es ++ [InstallEvent.act i move] :=
    List.mem_append_right _ (List.mem_singleton_self _)
  have hquiet : ∀ {w : ByteVolume}, Told dir w entry [] :=
    .of_quiet fun _ _ => List.not_mem_nil
  have hsays : ∀ {w : ByteVolume} {x : DownloadEvent}, (∀ name path, .done name path ≠ x) →
      Told dir w entry [x] :=
    fun hx => .of_quiet fun name path hmem => hx name path (List.mem_singleton.mp hmem)
  replace hknows := hknows.mono (List.subset_append_left es [.act i move])
  unfold installAct at h
  split at h
  · split_ifs at h
    obtain ⟨rfl, rfl, rfl⟩ := moved h
    exact ⟨.none, trivial, hsays nofun⟩
  · rename_i file file' body total
    split_ifs at h with hfile
    obtain ⟨rfl, rfl, rfl⟩ := moved h
    subst hfile
    exact ⟨.none, ⟨hknows, total, hnow⟩, hquiet⟩
  · obtain ⟨rfl, rfl, rfl⟩ := moved h
    exact ⟨.create _, hknows.created he, hquiet⟩
  · obtain ⟨rfl, rfl, rfl⟩ := moved h
    exact ⟨.none, trivial, hsays nofun⟩
  · rename_i file body total handle pos done n tick
    obtain ⟨-, h⟩ := Option.ite_none_left_eq_some.mp h
    obtain ⟨rfl, rfl, rfl⟩ := moved h
    refine ⟨.none, hknows.received, ?_⟩
    cases tick
    · exact hquiet
    · exact hsays nofun
  · obtain ⟨-, h⟩ := Option.ite_none_left_eq_some.mp h
    obtain ⟨rfl, rfl, rfl⟩ := moved h
    exact ⟨.write _ _ _ hknows.2.2.1, hknows.wrote he, hquiet⟩
  · split_ifs at h with hfails
    obtain ⟨rfl, -⟩ := hfails
    obtain ⟨rfl, rfl, rfl⟩ := moved h
    exact ⟨.write _ _ _ hknows.2.2.1, hknows.wasSpoiled he hnow, hquiet⟩
  · obtain ⟨rfl, rfl, rfl⟩ := moved h
    exact ⟨.none, fun _ => hknows.2.2.1, hsays nofun⟩
  · split_ifs at h with hend
    obtain ⟨rfl, rfl, rfl⟩ := moved h
    exact ⟨.none, hknows.finished hend, hquiet⟩
  · split_ifs at h
    obtain ⟨rfl, rfl, rfl⟩ := moved h
    exact ⟨.none, trivial, hsays nofun⟩
  · obtain ⟨rfl, rfl, rfl⟩ := moved h
    exact ⟨.none, trivial, hsays nofun⟩
  · split_ifs at h
    obtain ⟨rfl, rfl, rfl⟩ := moved h
    exact ⟨.none, hknows, hquiet⟩
  · rename_i file handle pos pending n
    obtain ⟨hpiece, h⟩ := Option.ite_none_left_eq_some.mp h
    obtain ⟨rfl, rfl, rfl⟩ := moved h
    have hlookup := hknows fun hnil => hpiece (by rw [hnil, List.take_nil])
    exact ⟨.write file pos _ hlookup, fun _ => hlookup, hquiet⟩
  · rename_i file handle pos pending file' n
    split_ifs at h with hfails
    obtain ⟨rfl, hlt⟩ := hfails
    obtain ⟨rfl, rfl, rfl⟩ := moved h
    have hlookup := hknows (List.ne_nil_of_length_pos (Nat.zero_lt_of_lt hlt))
    exact ⟨.write _ pos _ hlookup, trivial, hquiet⟩
  · rename_i file body done
    split at h
    · obtain ⟨rfl, rfl, rfl⟩ := moved h
      exact ⟨.none, trivial, hsays nofun⟩
    · rename_i v₁ hrename
      obtain ⟨heffect, hshown, hpaired⟩ := hknows.renamed he hrename
      cases file with
      | tokenizer =>
          obtain ⟨rfl, rfl, rfl⟩ := moved h
          exact ⟨heffect, fun _ => hshown, hsays nofun⟩
      | weights =>
          obtain ⟨rfl, rfl, rfl⟩ := moved h
          refine ⟨heffect, trivial, fun name path hmem => ?_⟩
          rcases List.mem_cons.mp hmem with htick | hdone
          · cases htick
          · obtain ⟨-, rfl⟩ := DownloadEvent.done.inj (List.mem_singleton.mp hdone)
            exact ⟨rfl, hshown, hpaired rfl⟩
  · obtain ⟨rfl, rfl, rfl⟩ := moved h
    exact ⟨.none, trivial, hsays nofun⟩
  · split_ifs at h
    obtain ⟨rfl, rfl, rfl⟩ := moved h
    exact ⟨.none, trivial, hquiet⟩
  · cases h

private theorem installAct_live {move : InstallMove} {events : List DownloadEvent}
    (h : installAct dir v entry stage move = some (v', stage', events)) : stage.isLive = true := by
  cases stage with
  | draining file handle pos pending =>
      cases pending with
      | nil =>
          cases move with
          | write n => simp [installAct] at h
          | spoil file n => simp [installAct] at h
          | kill => simp [installAct, InstallStage.isLive] at h
          | _ => cases h
      | cons => rfl
  | ended => cases move <;> cases h
  | _ => rfl

section Invariant

variable (dir start es)

/-- No two live installs are of one entry, and each knows of its files what its stage says. -/
structure InstallSound (s : Installs) : Prop where
  listed : ∀ r ∈ s.installs, r.entry ∈ catalog
  apart : ∀ (i j : Nat) (r other : Install), s.installs[i]? = some r → s.installs[j]? = some other →
    r.stage.isLive = true → other.stage.isLive = true → other.entry = r.entry → j = i
  knows : ∀ i r, s.installs[i]? = some r → Knows dir s.volume r.entry es i r.stage
  told : ∀ r ∈ s.installs, Told dir s.volume r.entry r.events
  kept :
    ∀ p, (∀ entry ∈ catalog, ∀ file, p ≠ destPath dir entry file ∧ p ≠ partPath dir entry file) →
    s.volume.content p = start.content p
  shown : ∀ entry ∈ catalog, ∀ file bytes, s.volume.content (destPath dir entry file) = some bytes →
    start.content (destPath dir entry file) = some bytes ∨
      ∃ i r body, s.installs[i]? = some r ∧ r.entry = entry ∧ Fetched es i file bytes body
  paired : ∀ entry ∈ catalog,
    s.volume.content (destPath dir entry .weights) ≠ start.content (destPath dir entry .weights) →
      (s.volume.content (destPath dir entry .tokenizer)).isSome

end Invariant

theorem InstallSound.installed (h : InstallSound dir start es s) : Installed dir start es s where
  kept := h.kept
  shown := h.shown
  paired entry he hnew := locateFor_own he (h.paired entry he hnew)
  told r hr name path hdone := by
    obtain ⟨rfl, hweights, htokenizer⟩ := h.told r hr name path hdone
    exact ⟨rfl, hweights, locateFor_own (h.listed r hr) htokenizer⟩

theorem InstallSound.init (dir : Location) (start : ByteVolume) :
    InstallSound dir start [] ⟨start, []⟩ where
  listed r hr := absurd hr List.not_mem_nil
  apart i j r other hi := by cases hi
  knows i r hi := by cases hi
  told r hr := absurd hr List.not_mem_nil
  kept p _ := rfl
  shown entry _ file bytes hbytes := .inl hbytes
  paired entry _ hnew := absurd rfl hnew

theorem InstallSound.begin (h : InstallSound dir start es s) {e : InstallEvent}
    (hentry : entry ∈ catalog)
    (hfree : ∀ r ∈ s.installs, r.entry = entry → r.stage.isLive = false) :
    InstallSound dir start (es ++ [e])
      { s with installs := s.installs ++ [⟨entry, .asking .tokenizer, []⟩] } := by
  have hes : es ⊆ es ++ [e] := List.subset_append_left _ _
  constructor
  · intro r hr
    rcases List.mem_append.mp hr with hold | hnew
    · exact h.listed r hold
    · rw [List.mem_singleton.mp hnew]
      exact hentry
  · intro j k r other hj hk hlive hlive' heq
    rcases get_snoc hj with hold | ⟨rfl, rfl⟩
    · rcases get_snoc hk with hold' | ⟨rfl, rfl⟩
      · exact h.apart j k r other hold hold' hlive hlive' heq
      · rw [hfree r (List.mem_of_getElem? hold) heq.symm] at hlive
        cases hlive
    · rcases get_snoc hk with hold' | ⟨rfl, rfl⟩
      · rw [hfree other (List.mem_of_getElem? hold') heq] at hlive'
        cases hlive'
      · rfl
  · intro j r hj
    rcases get_snoc hj with hold | ⟨rfl, rfl⟩
    · exact (h.knows j r hold).same hes (.refl _ _) fun _ => .refl _ _
    · intro hweights
      cases hweights
  · intro r hr
    rcases List.mem_append.mp hr with hold | hnew
    · exact h.told r hold
    · rw [List.mem_singleton.mp hnew]
      exact .of_quiet fun _ _ => List.not_mem_nil
  · exact h.kept
  · intro d hd file bytes hbytes
    refine (h.shown d hd file bytes hbytes).imp_right ?_
    rintro ⟨j, r, body, hj, rfl, hfetched⟩
    refine ⟨j, r, body, ?_, rfl, hfetched.mono hes⟩
    rw [List.getElem?_append_left (List.getElem?_eq_some_iff.mp hj).1, hj]
  · exact h.paired

theorem InstallEffect.knows (h : InstallEffect dir v entry es' i v') (he : entry ∈ catalog)
    (hd : d ∈ catalog) (hes : es ⊆ es') {j : Nat} (hidle : d = entry → stage.isLive = false)
    (hknows : Knows dir v d es j stage) : Knows dir v' d es' j stage := by
  by_cases heq : d = entry
  · exact knows_idle (hidle heq)
  · have hdest : ∀ f, Volume.SameAt v v' (destPath dir d f) := fun f =>
      h.same fun g => ⟨fun hp => heq (destPath_inj hd he hp).1, destPath_ne_partPath hd he⟩
    have hpart : ∀ f, Volume.SameAt v v' (partPath dir d f) := fun f =>
      h.same fun g => ⟨(destPath_ne_partPath he hd).symm, fun hp => heq (partPath_inj hd he hp).1⟩
    exact hknows.same hes (hdest .tokenizer) hpart

section Acting

variable {e : InstallEvent} {r : Install} {events : List DownloadEvent}

private theorem was_replaced (hr : s.installs[i]? = some r) (hlive : r.stage.isLive = true)
    {j : Nat} {x : Install}
    (hj : (s.installs.set i { r with stage, events := r.events ++ events })[j]? = some x) :
    ∃ old, s.installs[j]? = some old ∧ old.entry = x.entry ∧
      (x.stage.isLive = true → old.stage.isLive = true) := by
  rcases get_replaced hj with ⟨rfl, rfl⟩ | ⟨-, hold⟩
  · exact ⟨r, hr, rfl, fun _ => hlive⟩
  · exact ⟨x, hold, rfl, id⟩

private theorem entry_replaced (hr : s.installs[i]? = some r) {j : Nat} {x : Install}
    (hj : s.installs[j]? = some x) :
    ∃ x', (s.installs.set i { r with stage, events := r.events ++ events })[j]? = some x' ∧
      x'.entry = x.entry := by
  by_cases hij : i = j
  · subst hij
    obtain rfl := Option.some.inj (hr.symm.trans hj)
    exact ⟨_, List.getElem?_set_self (List.getElem?_eq_some_iff.mp hr).1, rfl⟩
  · exact ⟨x, by rw [List.getElem?_set_ne hij, hj], rfl⟩

private theorem InstallSound.told_stays (h : InstallSound dir start es s)
    (hentry : r.entry ∈ catalog)
    (heffect : InstallEffect dir s.volume r.entry (es ++ [e]) i v) {x : Install}
    (hx : x ∈ s.installs) : Told dir v x.entry x.events := by
  intro name path hdone
  obtain ⟨rfl, hweights, htokenizer⟩ := h.told x hx name path hdone
  have hcat := h.listed x hx
  exact ⟨rfl, heffect.isSome hentry hcat hweights, heffect.isSome hentry hcat htokenizer⟩

private theorem InstallSound.shown_act (h : InstallSound dir start es s)
    (hr : s.installs[i]? = some r) (hentry : r.entry ∈ catalog)
    (heffect : InstallEffect dir s.volume r.entry (es ++ [e]) i v) (hd : d ∈ catalog)
    {file : Sidecar} {bytes : Bytes} (hbytes : v.content (destPath dir d file) = some bytes) :
    start.content (destPath dir d file) = some bytes ∨ ∃ j x body,
      (s.installs.set i { r with stage, events := r.events ++ events })[j]? = some x ∧
      x.entry = d ∧ Fetched (es ++ [e]) j file bytes body := by
  rcases heffect.shown hentry hd file with heq | ⟨rfl, -, bytes', body, hnew, hfetched⟩
  · rw [heq] at hbytes
    refine (h.shown d hd file bytes hbytes).imp_right ?_
    rintro ⟨j, x, body, hj, rfl, hfetched⟩
    obtain ⟨x', hx', hsame⟩ := entry_replaced hr hj
    exact ⟨j, x', body, hx', hsame, hfetched.mono (List.subset_append_left _ _)⟩
  · obtain rfl := Option.some.inj (hnew.symm.trans hbytes)
    obtain ⟨x', hx', hsame⟩ := entry_replaced hr hr
    exact .inr ⟨i, x', body, hx', hsame, hfetched⟩

theorem InstallSound.act (h : InstallSound dir start es s) (hr : s.installs[i]? = some r)
    (hlive : r.stage.isLive = true) (heffect : InstallEffect dir s.volume r.entry (es ++ [e]) i v)
    (hknows : Knows dir v r.entry (es ++ [e]) i stage) (htold : Told dir v r.entry events) :
    InstallSound dir start (es ++ [e])
      ⟨v, s.installs.set i { r with stage, events := r.events ++ events }⟩ := by
  have hentry : r.entry ∈ catalog := h.listed r (List.mem_of_getElem? hr)
  refine ⟨?_, ?_, ?_, ?_, fun p hp => ?_, fun d hd file bytes => h.shown_act hr hentry heffect hd,
    fun d hd hnew => ?_⟩
  · intro x hx
    obtain ⟨j, hj⟩ := List.getElem?_of_mem hx
    obtain ⟨old, hold, heq, -⟩ := was_replaced hr hlive hj
    rw [← heq]
    exact h.listed old (List.mem_of_getElem? hold)
  · intro j k x other hj hk hlive₁ hlive₂ heq
    obtain ⟨old, hold, hsame, hwas⟩ := was_replaced hr hlive hj
    obtain ⟨old', hold', hsame', hwas'⟩ := was_replaced hr hlive hk
    rw [← hsame, ← hsame'] at heq
    exact h.apart j k old old' hold hold' (hwas hlive₁) (hwas' hlive₂) heq
  · intro j x hj
    rcases get_replaced hj with ⟨rfl, rfl⟩ | ⟨hne, hold⟩
    · exact hknows
    · apply heffect.knows hentry (h.listed x (List.mem_of_getElem? hold))
        (List.subset_append_left _ _) ?_ (h.knows j x hold)
      intro heq
      by_contra hother
      exact hne (h.apart i j r x hr hold hlive (Bool.eq_true_of_not_eq_false hother) heq)
  · intro x hx
    rcases List.mem_or_eq_of_mem_set hx with hold | rfl
    · exact h.told_stays hentry heffect hold
    · intro name path hdone
      rcases List.mem_append.mp hdone with hbefore | hnow
      · exact h.told_stays hentry heffect (List.mem_of_getElem? hr) name path hbefore
      · exact htold name path hnow
  · rw [(heffect.same fun file => hp r.entry hentry file).content]
    exact h.kept p hp
  · rcases heffect.shown hentry hd .weights with heq | ⟨rfl, hready, -⟩
    · rw [heq] at hnew
      exact heffect.isSome hentry hd (h.paired d hd hnew)
    · exact heffect.isSome hentry hd (hready rfl)

end Acting

theorem InstallSound.step (h : InstallSound dir start es s) {e : InstallEvent}
    (hapart : InstallsApart s e) (hstep : installStep dir s e = some t) :
    InstallSound dir start (es ++ [e]) t := by
  cases e with
  | start entry =>
      obtain rfl := Option.some.inj hstep
      exact h.begin hapart.1 hapart.2
  | act i move =>
      obtain ⟨r, hr, hstep⟩ := Option.bind_eq_some_iff.mp hstep
      obtain ⟨⟨v, stage, events⟩, hact, hstep⟩ := Option.bind_eq_some_iff.mp hstep
      obtain rfl := Option.some.inj hstep
      have hentry := h.listed r (List.mem_of_getElem? hr)
      obtain ⟨heffect, hknows, htold⟩ := installAct_effect hentry (h.knows i r hr) hact
      exact h.act hr (installAct_live hact) heffect hknows htold

theorem installed_of_run (hrun : Run (installStep dir) InstallsApart ⟨start, []⟩ es s) :
    Installed dir start es s := by
  have hsound : InstallSound dir start es s := by
    induction hrun with
    | nil => exact .init dir start
    | snoc _ hok hs ih => exact ih.step hok hs
  exact hsound.installed

/-- In whatever state a models directory is found, whatever fails and whenever an install is
killed: a file of a model that may be shown was there before or is the whole body of a reply to an
install of that model, cut short only where a write failed, and a model that was installed gets its
own tokenizer. -/
theorem downloads_installed (dir : Location) (start : ByteVolume) (events : List InstallEvent)
    (t : Installs) (hrun : Run (installStep dir) InstallsApart ⟨start, []⟩ events t) :
    Installed dir start events t :=
  installed_of_run hrun

/-- The first install is killed; in the second one the last write of the tokenizer fails. -/
def spoiledInstall : List InstallEvent :=
  [.start smallest, .act 0 (.reply .tokenizer [7, 8] none), .act 0 .next,
    .act 0 (.receive 1 true), .act 0 .kill, .start smallest,
    .act 1 (.reply .tokenizer [7, 8] (some 2)), .act 1 .next, .act 1 (.receive 2 true),
    .act 1 (.spoil .tokenizer 1), .act 1 .finish, .act 1 .next, .act 1 (.reply .weights [9] none),
    .act 1 .next, .act 1 (.receive 5 false), .act 1 (.write 1), .act 1 .finish, .act 1 .next]

def installsApart (s : Installs) : InstallEvent → Bool
  | .start entry => decide (entry ∈ catalog) &&
      s.installs.all fun r => decide (r.entry ≠ entry) || !r.stage.isLive
  | .act _ _ => true

private theorem installsApart_sound (s : Installs) (e : InstallEvent)
    (h : installsApart s e = true) :
    InstallsApart s e := by
  cases e with
  | start entry =>
      obtain ⟨hlisted, hall⟩ := (Bool.and_eq_true _ _).mp h
      refine ⟨of_decide_eq_true hlisted, fun r hr heq => ?_⟩
      simpa [heq] using List.all_eq_true.mp hall r hr
  | act i move => trivial

theorem spoiledInstall_runs :
    ∃ t, Run (installStep ["models"]) InstallsApart ⟨Volume.empty, []⟩ spoiledInstall t ∧
      t.volume.content (destPath ["models"] smallest .tokenizer) = some [7] ∧
      t.volume.content (destPath ["models"] smallest .weights) = some [9] := by
  have hexec : (execChecked (installStep ["models"]) installsApart ⟨Volume.empty, []⟩
      spoiledInstall).map (fun t => (t.volume.content (destPath ["models"] smallest .tokenizer),
        t.volume.content (destPath ["models"] smallest .weights))) = some (some [7], some [9]) := by
    decide +kernel
  obtain ⟨t, hrun, hcontent⟩ := Option.map_eq_some_iff.mp hexec
  obtain ⟨htokenizer, hweights⟩ := Prod.mk.inj hcontent
  exact ⟨t, Run.of_execChecked hrun installsApart_sound, htokenizer, hweights⟩

/-- The install says that it is done, and half of its tokenizer is there. -/
theorem downloads_installed_spoiled :
    ∃ t, Run (installStep ["models"]) InstallsApart ⟨Volume.empty, []⟩ spoiledInstall t ∧
      t.volume.content (destPath ["models"] smallest .tokenizer) = some [7] ∧
      Installed ["models"] Volume.empty spoiledInstall t := by
  obtain ⟨t, hsteps, hcontent, -⟩ := spoiledInstall_runs
  exact ⟨t, hsteps, hcontent, downloads_installed ["models"] Volume.empty spoiledInstall t hsteps⟩

end IntelNav.App.Downloads
