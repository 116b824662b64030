import IntelNav.Disk.Volume
import IntelNav.ModelStore.ChunkOutput
import IntelNav.ModelStore.HttpSpec
import IntelNav.Transition.Run

/-! Runs of `fetch_one` on one chunks directory, by their operations on the files, in any order and
with any replies. -/

set_option autoImplicit false
set_option relaxedAutoImplicit false

namespace IntelNav.ModelStore

open IntelNav.Disk IntelNav.Transition

/-- Where a run of `fetch_one` stands. A run that is `draining` has returned an error while pieces
of its file were still on their way to the disk. -/
inductive FetchStage
  | checking
  | opening
  | reading (handle : Nat) (cached : Bytes)
  | corrupt
  | measuring
  | discarding
  | requesting (resumeFrom : Nat)
  | creating (resumeFrom : Nat)
  | reopening (resumeFrom : Nat)
  | hashing (resumeFrom handle : Nat) (hashed : Bytes)
  | seeking (resumeFrom handle : Nat) (hashed : Bytes)
  | streaming (handle pos : Nat) (hashed : Bytes) (total : Nat) (pending : Bytes)
  | draining (handle pos : Nat) (pending : Bytes)
  | dropping
  | moving
  | returned (r : FetchOne)
  | stopped

/-- What moves a run: its next file operation succeeds or fails, a piece of a file is read or
written, the server replies, sends a piece of the body or ends it. A run that stops fails or is
killed. -/
inductive FetchMove
  | next
  | fail
  | read (n : Nat)
  | write (n : Nat)
  | reply (partialContent : Bool)
  | receive (bytes : Bytes)
  | finish
  | stop
  deriving DecidableEq

def FetchStage.isLive : FetchStage → Bool
  | .returned _ | .stopped => false
  | _ => true

structure FetchRun where
  chunk : Chunk
  resume : Bool
  stage : FetchStage

structure FetchRuns where
  volume : ByteVolume
  runs : List FetchRun

inductive FetchEvent
  | start (chunk : Chunk) (resume : Bool)
  | act (run : Nat) (move : FetchMove)
  deriving DecidableEq

section Machine

variable (hash : Hashing) (chunksDir : Location)

def finalPath (c : Chunk) : Location := join chunksDir (c.cid ++ ".bin")

def tmpPath (c : Chunk) : Location := join chunksDir (c.cid ++ ".bin.tmp")

/-- One move of a run of `fetch_one`. -/
def fetchAct (v : ByteVolume) (c : Chunk) (resume : Bool) :
    FetchStage → FetchMove → Option (ByteVolume × FetchStage)
  | .checking, .next =>
      some (v, if (v.content (finalPath chunksDir c)).isSome then .opening else .measuring)
  | .checking, .fail => some (v, .measuring)
  | .opening, .next =>
      match v.entries.lookup (finalPath chunksDir c) with
      | some handle => some (v, .reading handle [])
      | none => some (v, .stopped)
  | .reading handle cached, .read n =>
      if n = 0 then none
      else
        let piece := ((v.inode handle).drop cached.length).take n
        if piece ≠ [] then some (v, .reading handle (cached ++ piece))
        else if cached.length = c.size ∧ hash.cidStringFor cached = c.cid then
          some (v, .returned ⟨c.size, true⟩)
        else some (v, .corrupt)
  | .corrupt, .next => some (v.remove (finalPath chunksDir c), .measuring)
  | .corrupt, .fail => some (v, .measuring)
  | .measuring, .next =>
      match if resume then v.content (tmpPath chunksDir c) else none with
      | some existing =>
          some (v, if existing.length < c.size then .requesting existing.length else .discarding)
      | none => some (v, .requesting 0)
  | .measuring, .fail => some (v, .requesting 0)
  | .discarding, .next => some (v.remove (tmpPath chunksDir c), .requesting 0)
  | .discarding, .fail => some (v, .requesting 0)
  | .requesting resumeFrom, .reply partialContent =>
      some (v, if partialContent ∧ 0 < resumeFrom then .reopening resumeFrom
        else .creating resumeFrom)
  | .creating resumeFrom, .next =>
      let (v, handle) := v.create (tmpPath chunksDir c)
      some (v, .streaming handle 0 [] resumeFrom [])
  | .reopening resumeFrom, .next =>
      match v.entries.lookup (tmpPath chunksDir c) with
      | some handle => some (v, .hashing resumeFrom handle [])
      | none => some (v, .stopped)
  | .hashing resumeFrom handle hashed, .read n =>
      if n = 0 then none
      else
        let piece := ((v.inode handle).drop hashed.length).take n
        let hashed := hashed ++ piece
        some (v, if piece = [] ∨ resumeFrom ≤ hashed.length then .seeking resumeFrom handle hashed
          else .hashing resumeFrom handle hashed)
  | .seeking resumeFrom handle hashed, .next =>
      some (v, .streaming handle (v.inode handle).length hashed resumeFrom [])
  | .streaming handle pos hashed total pending, .receive bytes =>
      some (v, .streaming handle pos (hashed ++ bytes) (total + bytes.length) (pending ++ bytes))
  | .streaming handle pos hashed total pending, .write n =>
      let piece := pending.take n
      if piece = [] then none
      else some (v.writeAt handle pos piece,
        .streaming handle (pos + piece.length) hashed total (pending.drop n))
  | .streaming _ _ hashed total [], .finish =>
      some (v, if total ≠ c.size ∨ hash.cidStringFor hashed ≠ c.cid then .dropping else .moving)
  | .streaming handle pos _ _ pending, .stop => some (v, .draining handle pos pending)
  | .draining handle pos pending, .write n =>
      let piece := pending.take n
      if piece = [] then none
      else some (v.writeAt handle pos piece, .draining handle (pos + piece.length) (pending.drop n))
  | .dropping, .next => some (v.remove (tmpPath chunksDir c), .stopped)
  | .moving, .next =>
      match v.rename (tmpPath chunksDir c) (finalPath chunksDir c) with
      | some v => some (v, .returned ⟨c.size, false⟩)
      | none => some (v, .stopped)
  | stage, .stop => if stage.isLive then some (v, .stopped) else none
  | _, _ => none

def fetchStep (s : FetchRuns) : FetchEvent → Option FetchRuns
  | .start c resume => some { s with runs := s.runs ++ [⟨c, resume, .checking⟩] }
  | .act i move => do
      let run ← s.runs[i]?
      let (v, stage) ← fetchAct hash chunksDir s.volume run.chunk run.resume run.stage move
      some ⟨v, s.runs.set i { run with stage }⟩

def Cached (v : ByteVolume) (c : Chunk) : Prop :=
  ∃ bytes, v.content (finalPath chunksDir c) = some bytes ∧ bytes.length = c.size ∧
    hash.cidStringFor bytes = c.cid

/-- Whatever a run has returned `Ok` for is in its file. -/
def CacheIntact (s : FetchRuns) : Prop :=
  ∀ run ∈ s.runs, ∀ r, run.stage = .returned r → Cached hash chunksDir s.volume run.chunk

/-- The body that a run has received is as long as it counts, unless its size or its hash is wrong
anyhow. -/
def CountsBody (run : FetchRun) : Prop :=
  ∀ handle pos hashed total pending, run.stage = .streaming handle pos hashed total pending →
    total = run.chunk.size → hash.cidStringFor hashed = run.chunk.cid → hashed.length = total

/-- A fetch starts for a plain CID that no live fetch has and for which no other size was fetched,
and no body comes to its end that completes the size without the part it should have resumed. -/
def FetchesApart (s : FetchRuns) : FetchEvent → Prop
  | .start c _ => '/' ∉ c.cid.toList ∧ ∀ run ∈ s.runs, run.chunk.cid = c.cid →
      run.stage.isLive = false ∧ run.chunk.size = c.size
  | .act i .finish => ∀ run, s.runs[i]? = some run → CountsBody hash run
  | .act _ _ => True

end Machine

variable {hash : Hashing} {chunksDir : Location}

section Knows

variable (hash chunksDir)

/-- What the stage of a run says about its two files, as long as no other run touches them. -/
def Knows (v : ByteVolume) (c : Chunk) : FetchStage → Prop
  | .reading handle cached => v.entries.lookup (finalPath chunksDir c) = some handle ∧
      cached <+: v.inode handle
  | .corrupt => ¬ Cached hash chunksDir v c
  | .requesting resumeFrom => 0 < resumeFrom →
      ∃ bytes, v.content (tmpPath chunksDir c) = some bytes ∧ bytes.length = resumeFrom
  | .reopening resumeFrom => 0 < resumeFrom ∧
      ∃ bytes, v.content (tmpPath chunksDir c) = some bytes ∧ bytes.length = resumeFrom
  | .hashing resumeFrom handle hashed =>
      v.entries.lookup (tmpPath chunksDir c) = some handle ∧ hashed <+: v.inode handle ∧
        hashed.length < resumeFrom ∧ (v.inode handle).length = resumeFrom
  | .seeking _ handle hashed =>
      v.entries.lookup (tmpPath chunksDir c) = some handle ∧ v.inode handle = hashed
  | .streaming handle pos hashed _ pending =>
      v.entries.lookup (tmpPath chunksDir c) = some handle ∧ (v.inode handle).length = pos ∧
        v.inode handle ++ pending = hashed
  | .draining handle _ _ => v.entries.lookup (tmpPath chunksDir c) = some handle
  | .moving => ∃ bytes, v.content (tmpPath chunksDir c) = some bytes ∧ bytes.length = c.size ∧
      hash.cidStringFor bytes = c.cid
  | .returned _ => Cached hash chunksDir v c
  | _ => True

end Knows

variable {v v' : ByteVolume} {c d : Chunk}

theorem Cached.same (h : Cached hash chunksDir v c)
    (hsame : Volume.SameAt v v' (finalPath chunksDir c)) : Cached hash chunksDir v' c := by
  obtain ⟨bytes, hcontent, hgood⟩ := h
  exact ⟨bytes, hsame.content.trans hcontent, hgood⟩

private theorem cached_congr (hcid : c.cid = d.cid) (hsize : c.size = d.size) :
    Cached hash chunksDir v c ↔ Cached hash chunksDir v d := by
  unfold Cached finalPath
  rw [hcid, hsize]

theorem Knows.same {stage : FetchStage} (h : Knows hash chunksDir v c stage)
    (hfinal : Volume.SameAt v v' (finalPath chunksDir c))
    (htmp : Volume.SameAt v v' (tmpPath chunksDir c)) : Knows hash chunksDir v' c stage := by
  cases stage with
  | reading handle cached =>
      obtain ⟨hlookup, hcached⟩ := h
      exact ⟨hfinal.lookup.trans hlookup, by rwa [hfinal.inode handle hlookup]⟩
  | corrupt =>
      rintro ⟨bytes, hcontent, hgood⟩
      exact h ⟨bytes, hfinal.content.symm.trans hcontent, hgood⟩
  | requesting resumeFrom =>
      intro hpos
      rw [htmp.content]
      exact h hpos
  | reopening resumeFrom =>
      refine ⟨h.1, ?_⟩
      rw [htmp.content]
      exact h.2
  | hashing resumeFrom handle hashed =>
      obtain ⟨hlookup, hrest⟩ := h
      refine ⟨htmp.lookup.trans hlookup, ?_⟩
      rwa [htmp.inode handle hlookup]
  | seeking resumeFrom handle hashed =>
      obtain ⟨hlookup, hrest⟩ := h
      refine ⟨htmp.lookup.trans hlookup, ?_⟩
      rwa [htmp.inode handle hlookup]
  | streaming handle pos hashed total pending =>
      obtain ⟨hlookup, hrest⟩ := h
      refine ⟨htmp.lookup.trans hlookup, ?_⟩
      rwa [htmp.inode handle hlookup]
  | draining handle pos pending => exact htmp.lookup.trans h
  | moving =>
      obtain ⟨bytes, hcontent, hgood⟩ := h
      exact ⟨bytes, htmp.content.trans hcontent, hgood⟩
  | returned r => exact Cached.same h hfinal
  | checking | opening | measuring | discarding | creating | dropping | stopped => trivial

section Effect

variable (hash chunksDir)

inductive FetchEffect (v : ByteVolume) (c : Chunk) : ByteVolume → Prop
  | none : FetchEffect v c v
  | removeFinal (hbad : ¬ Cached hash chunksDir v c) :
      FetchEffect v c (v.remove (finalPath chunksDir c))
  | removeTmp : FetchEffect v c (v.remove (tmpPath chunksDir c))
  | create : FetchEffect v c (v.create (tmpPath chunksDir c)).1
  | write {handle : Nat} (pos : Nat) (piece : Bytes)
      (hopen : v.entries.lookup (tmpPath chunksDir c) = some handle) :
      FetchEffect v c (v.writeAt handle pos piece)
  | rename {v' : ByteVolume} {bytes : Bytes}
      (hrename : v.rename (tmpPath chunksDir c) (finalPath chunksDir c) = some v')
      (hcontent : v.content (tmpPath chunksDir c) = some bytes) (hsize : bytes.length = c.size)
      (hcid : hash.cidStringFor bytes = c.cid) : FetchEffect v c v'

end Effect

theorem FetchEffect.same (h : FetchEffect hash chunksDir v c v') {p : Location}
    (hfinal : p ≠ finalPath chunksDir c) (htmp : p ≠ tmpPath chunksDir c) :
    Volume.SameAt v v' p := by
  cases h with
  | none => exact .refl v p
  | removeFinal => exact Volume.sameAt_remove hfinal
  | removeTmp => exact Volume.sameAt_remove htmp
  | create => exact Volume.sameAt_create htmp
  | write pos piece hopen => exact Volume.sameAt_writeAt hopen htmp
  | rename hrename => exact Volume.sameAt_rename hrename htmp hfinal

private theorem finalPath_ne_tmpPath (chunksDir : Location) (c d : Chunk) :
    finalPath chunksDir c ≠ tmpPath chunksDir d := by
  unfold finalPath tmpPath
  rw [join_extend _ c.cid (by decide) (by decide), join_extend _ d.cid (by decide) (by decide)]
  intro heq
  obtain ⟨-, hlast⟩ := List.append_inj' heq rfl
  have hend := congrArg (fun s => s.toList.getLast?) (List.singleton_inj.mp hlast)
  simp [String.toList_append] at hend

theorem FetchEffect.cached (h : FetchEffect hash chunksDir v c v')
    (hc : Cached hash chunksDir v c) : Cached hash chunksDir v' c := by
  have hne := finalPath_ne_tmpPath chunksDir c c
  cases h with
  | none => exact hc
  | removeFinal hbad => exact absurd hc hbad
  | removeTmp => exact hc.same (Volume.sameAt_remove hne)
  | create => exact hc.same (Volume.sameAt_create hne)
  | write pos piece hopen => exact hc.same (Volume.sameAt_writeAt hopen hne)
  | rename hrename hcontent hsize hcid =>
      exact ⟨_, (Volume.content_rename hrename).1.trans hcontent, hsize, hcid⟩

private theorem read_prefix {file before : Bytes} (h : before <+: file) (n : Nat) :
    before ++ (file.drop before.length).take n <+: file := by
  obtain ⟨rest, rfl⟩ := h
  rw [List.drop_left]
  exact (List.prefix_append_right_inj before).mpr (List.take_prefix n rest)

private theorem read_end {file before : Bytes} {n : Nat} (h : before <+: file) (hn : n ≠ 0)
    (hpiece : (file.drop before.length).take n = []) : before = file := by
  obtain ⟨rest, rfl⟩ := h
  rw [List.drop_left] at hpiece
  rcases List.take_eq_nil_iff.mp hpiece with hzero | hnil
  · exact absurd hzero hn
  · rw [hnil, List.append_nil]

private theorem effect_of_eq {r : ByteVolume × FetchStage} {stage' : FetchStage}
    (h : some r = some (v', stage')) (heffect : FetchEffect hash chunksDir v c r.1)
    (hknows : Knows hash chunksDir r.1 c r.2) :
    FetchEffect hash chunksDir v c v' ∧ Knows hash chunksDir v' c stage' := by
  obtain rfl := Option.some.inj h
  exact ⟨heffect, hknows⟩

private theorem reading_effect {resume : Bool} {stage' : FetchStage} {handle n : Nat}
    {cached : Bytes} (hknows : Knows hash chunksDir v c (.reading handle cached))
    (h : fetchAct hash chunksDir v c resume (.reading handle cached) (.read n) =
      some (v', stage')) :
    FetchEffect hash chunksDir v c v' ∧ Knows hash chunksDir v' c stage' := by
  obtain ⟨hlookup, hcached⟩ := hknows
  rw [fetchAct, Option.ite_none_left_eq_some] at h
  obtain ⟨hn, h⟩ := h
  dsimp only at h
  by_cases hpiece : ((v.inode handle).drop cached.length).take n = []
  · have hwhole := read_end hcached hn hpiece
    have hcontent : v.content (finalPath chunksDir c) = some cached := by
      rw [Volume.content_of_lookup hlookup, hwhole]
    rw [if_neg (not_not.mpr hpiece)] at h
    split_ifs at h with hgood
    · exact effect_of_eq h .none ⟨cached, hcontent, hgood⟩
    · apply effect_of_eq h .none
      rintro ⟨bytes, hbytes, hsize, hcid⟩
      obtain rfl := Option.some.inj (hcontent.symm.trans hbytes)
      exact hgood ⟨hsize, hcid⟩
  · rw [if_pos hpiece] at h
    exact effect_of_eq h .none ⟨hlookup, read_prefix hcached n⟩

private theorem measuring_effect {resume : Bool} {stage' : FetchStage}
    (h : fetchAct hash chunksDir v c resume .measuring .next = some (v', stage')) :
    FetchEffect hash chunksDir v c v' ∧ Knows hash chunksDir v' c stage' := by
  rw [fetchAct] at h
  split at h
  · rename_i existing hexisting
    have hcontent : v.content (tmpPath chunksDir c) = some existing := by
      split_ifs at hexisting
      exact hexisting
    apply effect_of_eq h .none
    dsimp only
    split_ifs
    · intro _
      exact ⟨existing, hcontent, rfl⟩
    · trivial
  · apply effect_of_eq h .none
    intro hpos
    exact absurd hpos (Nat.lt_irrefl 0)

private theorem reopening_effect {resume : Bool} {stage' : FetchStage} {resumeFrom : Nat}
    (hknows : Knows hash chunksDir v c (.reopening resumeFrom))
    (h : fetchAct hash chunksDir v c resume (.reopening resumeFrom) .next = some (v', stage')) :
    FetchEffect hash chunksDir v c v' ∧ Knows hash chunksDir v' c stage' := by
  obtain ⟨hpos, bytes, hcontent, hlength⟩ := hknows
  rw [fetchAct] at h
  split at h
  · rename_i handle hlookup
    rw [Volume.content_of_lookup hlookup] at hcontent
    apply effect_of_eq h .none
    refine ⟨hlookup, List.nil_prefix, hpos, ?_⟩
    rw [Option.some.inj hcontent, hlength]
  · exact effect_of_eq h .none trivial

private theorem hashing_effect {resume : Bool} {stage' : FetchStage} {resumeFrom handle n : Nat}
    {hashed : Bytes} (hknows : Knows hash chunksDir v c (.hashing resumeFrom handle hashed))
    (h : fetchAct hash chunksDir v c resume (.hashing resumeFrom handle hashed) (.read n) =
      some (v', stage')) :
    FetchEffect hash chunksDir v c v' ∧ Knows hash chunksDir v' c stage' := by
  obtain ⟨hlookup, hhashed, hshort, hlength⟩ := hknows
  rw [fetchAct, Option.ite_none_left_eq_some] at h
  obtain ⟨hn, h⟩ := h
  apply effect_of_eq h .none
  have hread := read_prefix hhashed n
  have hmore : ((v.inode handle).drop hashed.length).take n ≠ [] := by
    intro hpiece
    rw [read_end hhashed hn hpiece] at hshort
    omega
  simp only [hmore, false_or]
  split_ifs with hdone
  · refine ⟨hlookup, (hread.eq_of_length_le ?_).symm⟩
    omega
  · refine ⟨hlookup, hread, ?_, hlength⟩
    omega

private theorem written_effect {resume : Bool} {stage' : FetchStage} {handle pos total n : Nat}
    {hashed pending : Bytes}
    (hknows : Knows hash chunksDir v c (.streaming handle pos hashed total pending))
    (h :
      fetchAct hash chunksDir v c resume (.streaming handle pos hashed total pending) (.write n) =
      some (v', stage')) :
    FetchEffect hash chunksDir v c v' ∧ Knows hash chunksDir v' c stage' := by
  obtain ⟨hlookup, hpos, hhashed⟩ := hknows
  rw [fetchAct] at h
  obtain ⟨-, h⟩ := Option.ite_none_left_eq_some.mp h
  have hwritten : (v.writeAt handle pos (pending.take n)).inode handle =
      v.inode handle ++ pending.take n := Volume.inode_writeAt_end hlookup hpos
  apply effect_of_eq h (.write pos _ hlookup)
  refine ⟨hlookup, ?_, ?_⟩
  · rw [hwritten, List.length_append, hpos]
  · rw [hwritten, List.append_assoc, List.take_append_drop, hhashed]

private theorem finished_effect {resume : Bool} {stage' : FetchStage} {handle pos total : Nat}
    {hashed : Bytes} (hknows : Knows hash chunksDir v c (.streaming handle pos hashed total []))
    (hcounts : CountsBody hash ⟨c, resume, .streaming handle pos hashed total []⟩)
    (h : fetchAct hash chunksDir v c resume (.streaming handle pos hashed total []) .finish =
      some (v', stage')) :
    FetchEffect hash chunksDir v c v' ∧ Knows hash chunksDir v' c stage' := by
  obtain ⟨hlookup, hpos, hhashed⟩ := hknows
  rw [List.append_nil] at hhashed
  rw [fetchAct] at h
  apply effect_of_eq h .none
  dsimp only
  split_ifs with hbad
  · trivial
  · obtain ⟨hsize, hcid⟩ := not_or.mp hbad
    have hlength := hcounts _ _ _ _ _ rfl (not_not.mp hsize) (not_not.mp hcid)
    refine ⟨hashed, ?_, hlength.trans (not_not.mp hsize), not_not.mp hcid⟩
    rw [Volume.content_of_lookup hlookup, hhashed]

private theorem moving_effect {resume : Bool} {stage' : FetchStage}
    (hknows : Knows hash chunksDir v c .moving)
    (h : fetchAct hash chunksDir v c resume .moving .next = some (v', stage')) :
    FetchEffect hash chunksDir v c v' ∧ Knows hash chunksDir v' c stage' := by
  obtain ⟨bytes, hcontent, hsize, hcid⟩ := hknows
  rw [fetchAct] at h
  split at h
  · rename_i v₁ hrename
    apply effect_of_eq h (.rename hrename hcontent hsize hcid)
    exact ⟨bytes, (Volume.content_rename hrename).1.trans hcontent, hsize, hcid⟩
  · exact effect_of_eq h .none trivial

/-- A move has one of these effects, and its run knows of its files what its new stage says. -/
private theorem fetchAct_effect {resume : Bool} {stage stage' : FetchStage} {move : FetchMove}
    (hknows : Knows hash chunksDir v c stage)
    (hcounts : move = .finish → CountsBody hash ⟨c, resume, stage⟩)
    (h : fetchAct hash chunksDir v c resume stage move = some (v', stage')) :
    FetchEffect hash chunksDir v c v' ∧ Knows hash chunksDir v' c stage' := by
  have hfresh (w : ByteVolume) : Knows hash chunksDir w c (.requesting 0) := by
    intro hpos
    exact absurd hpos (Nat.lt_irrefl 0)
  have hmoved := h
  unfold fetchAct at h
  split at h
  · apply effect_of_eq h .none
    dsimp only
    split_ifs
    · trivial
    · trivial
  · exact effect_of_eq h .none trivial
  · split at h
    · rename_i handle hlookup
      exact effect_of_eq h .none ⟨hlookup, List.nil_prefix⟩
    · exact effect_of_eq h .none trivial
  · exact reading_effect hknows hmoved
  · exact effect_of_eq h (.removeFinal hknows) trivial
  · exact effect_of_eq h .none trivial
  · exact measuring_effect hmoved
  · exact effect_of_eq h .none (hfresh v)
  · exact effect_of_eq h .removeTmp (hfresh _)
  · exact effect_of_eq h .none (hfresh v)
  · apply effect_of_eq h .none
    dsimp only
    split_ifs with hresumed
    · exact ⟨hresumed.2, hknows hresumed.2⟩
    · trivial
  · have hempty := Volume.inode_create v (tmpPath chunksDir c)
    apply effect_of_eq h .create
    exact ⟨Volume.lookup_create v _, congrArg List.length hempty, congrArg (· ++ []) hempty⟩
  · exact reopening_effect hknows hmoved
  · exact hashing_effect hknows hmoved
  · obtain ⟨hlookup, hhashed⟩ := hknows
    apply effect_of_eq h .none
    refine ⟨hlookup, rfl, ?_⟩
    rw [hhashed, List.append_nil]
  · obtain ⟨hlookup, hpos, hhashed⟩ := hknows
    apply effect_of_eq h .none
    refine ⟨hlookup, hpos, ?_⟩
    rw [← hhashed, List.append_assoc]
  · exact written_effect hknows hmoved
  · exact finished_effect hknows (hcounts rfl) hmoved
  · exact effect_of_eq h .none hknows.1
  · obtain ⟨-, h⟩ := Option.ite_none_left_eq_some.mp h
    exact effect_of_eq h (.write _ _ hknows) hknows
  · exact effect_of_eq h .removeTmp trivial
  · exact moving_effect hknows hmoved
  · split_ifs at h
    exact effect_of_eq h .none trivial
  · cases h

private theorem fetchAct_live {resume : Bool} {stage stage' : FetchStage} {move : FetchMove}
    (h : fetchAct hash chunksDir v c resume stage move = some (v', stage')) :
    stage.isLive = true := by
  cases stage with
  | returned r => cases move <;> cases h
  | stopped => cases move <;> cases h
  | _ => rfl

private theorem finalPath_ne (hc : '/' ∉ c.cid.toList) (hd : '/' ∉ d.cid.toList)
    (h : d.cid ≠ c.cid) :
    finalPath chunksDir d ≠ finalPath chunksDir c := by
  unfold finalPath
  rw [join_bin hc, join_bin hd]
  intro heq
  exact h ((String.append_left_inj _).mp (List.singleton_inj.mp (List.append_cancel_left heq)))

private theorem tmpPath_ne (hc : '/' ∉ c.cid.toList) (hd : '/' ∉ d.cid.toList) (h : d.cid ≠ c.cid) :
    tmpPath chunksDir d ≠ tmpPath chunksDir c := by
  unfold tmpPath
  rw [join_tmp hc, join_tmp hd]
  intro heq
  exact h ((String.append_left_inj _).mp (List.singleton_inj.mp (List.append_cancel_left heq)))

/-- Another run knows of its files what it knew: they are not touched, or it is done and its chunk
stays in its file. -/
theorem FetchEffect.knows (h : FetchEffect hash chunksDir v c v')
    (hc : '/' ∉ c.cid.toList) (hd : '/' ∉ d.cid.toList) {stage : FetchStage}
    (hapart : d.cid = c.cid → stage.isLive = false ∧ d.size = c.size)
    (hknows : Knows hash chunksDir v d stage) : Knows hash chunksDir v' d stage := by
  by_cases hcid : d.cid = c.cid
  · obtain ⟨hlive, hsize⟩ := hapart hcid
    cases stage with
    | returned r =>
        have hcached : Cached hash chunksDir v c := (cached_congr hcid hsize).mp hknows
        exact (cached_congr hcid hsize).mpr (h.cached hcached)
    | stopped => trivial
    | _ => cases hlive
  · refine hknows.same (h.same (finalPath_ne hc hd hcid) (finalPath_ne_tmpPath chunksDir d c))
      (h.same ?_ (tmpPath_ne hc hd hcid))
    exact (finalPath_ne_tmpPath chunksDir c d).symm

section Invariant

variable (hash chunksDir)

/-- No two live runs fetch one chunk, and each run knows of its files what its stage says. -/
structure FetchSound (s : FetchRuns) : Prop where
  plain : ∀ run ∈ s.runs, '/' ∉ run.chunk.cid.toList
  sizes : ∀ run ∈ s.runs, ∀ other ∈ s.runs, other.chunk.cid = run.chunk.cid →
    other.chunk.size = run.chunk.size
  apart : ∀ (i j : Nat) (run other : FetchRun), s.runs[i]? = some run → s.runs[j]? = some other →
    run.stage.isLive = true → other.stage.isLive = true → other.chunk.cid = run.chunk.cid → j = i
  knows : ∀ run ∈ s.runs, Knows hash chunksDir s.volume run.chunk run.stage

end Invariant

variable {s t : FetchRuns}

theorem FetchSound.intact (h : FetchSound hash chunksDir s) : CacheIntact hash chunksDir s := by
  intro run hrun r hstage
  have hknows := h.knows run hrun
  rw [hstage] at hknows
  exact hknows

theorem FetchSound.start (h : FetchSound hash chunksDir s) (c : Chunk) (resume : Bool)
    (hplain : '/' ∉ c.cid.toList) (hfree : ∀ run ∈ s.runs, run.chunk.cid = c.cid →
      run.stage.isLive = false ∧ run.chunk.size = c.size) :
    FetchSound hash chunksDir { s with runs := s.runs ++ [⟨c, resume, .checking⟩] } where
  plain run hrun := by
    rcases List.mem_append.mp hrun with hold | hnew
    · exact h.plain run hold
    · rw [List.mem_singleton.mp hnew]
      exact hplain
  sizes run hrun other hother hcid := by
    rcases List.mem_append.mp hrun with hold | hnew
    · rcases List.mem_append.mp hother with hold' | hnew'
      · exact h.sizes run hold other hold' hcid
      · rw [List.mem_singleton.mp hnew'] at hcid ⊢
        exact (hfree run hold hcid.symm).2.symm
    · rw [List.mem_singleton.mp hnew] at hcid ⊢
      rcases List.mem_append.mp hother with hold' | hnew'
      · exact (hfree other hold' hcid).2
      · rw [List.mem_singleton.mp hnew']
  apart i j run other hi hj hlive hlive' hcid := by
    have hcases : ∀ (k : Nat) (r : FetchRun), (s.runs ++ [⟨c, resume, .checking⟩])[k]? = some r →
        s.runs[k]? = some r ∨ k = s.runs.length ∧ r = ⟨c, resume, .checking⟩ := by
      intro k r hk
      rcases Nat.lt_or_ge k s.runs.length with hlt | hge
      · rw [List.getElem?_append_left hlt] at hk
        exact .inl hk
      · rw [List.getElem?_append_right hge] at hk
        obtain ⟨hzero, heq⟩ := List.getElem?_eq_some_iff.mp hk
        rw [List.length_singleton] at hzero
        refine .inr ⟨by omega, ?_⟩
        rw [← heq, List.getElem_singleton]
    rcases hcases i run hi with hold | ⟨rfl, rfl⟩
    · rcases hcases j other hj with hold' | ⟨rfl, rfl⟩
      · exact h.apart i j run other hold hold' hlive hlive' hcid
      · have hdone := (hfree run (List.mem_of_getElem? hold) hcid.symm).1
        rw [hlive] at hdone
        cases hdone
    · rcases hcases j other hj with hold' | ⟨rfl, rfl⟩
      · have hdone := (hfree other (List.mem_of_getElem? hold') hcid).1
        rw [hlive'] at hdone
        cases hdone
      · rfl
  knows run hrun := by
    rcases List.mem_append.mp hrun with hold | hnew
    · exact h.knows run hold
    · rw [List.mem_singleton.mp hnew]
      trivial

theorem get_set {runs : List FetchRun} {i j : Nat} {x r : FetchRun}
    (h : (runs.set i x)[j]? = some r) : j = i ∧ r = x ∨ j ≠ i ∧ runs[j]? = some r := by
  by_cases hij : j = i
  · subst hij
    left
    obtain ⟨hlt, heq⟩ := List.getElem?_eq_some_iff.mp h
    exact ⟨rfl, by rw [← heq, List.getElem_set_self]⟩
  · right
    rw [List.getElem?_set_ne (Ne.symm hij)] at h
    exact ⟨hij, h⟩

theorem FetchSound.act (h : FetchSound hash chunksDir s) {i : Nat} {run : FetchRun}
    (hrun : s.runs[i]? = some run) {stage : FetchStage} (hlive : run.stage.isLive = true)
    (heffect : FetchEffect hash chunksDir s.volume run.chunk v)
    (hknows : Knows hash chunksDir v run.chunk stage) :
    FetchSound hash chunksDir ⟨v, s.runs.set i { run with stage }⟩ := by
  have hmem : ∀ r ∈ s.runs.set i { run with stage }, ∃ old ∈ s.runs, old.chunk = r.chunk := by
    intro r hr
    rcases List.mem_or_eq_of_mem_set hr with hold | rfl
    · exact ⟨r, hold, rfl⟩
    · exact ⟨run, List.mem_of_getElem? hrun, rfl⟩
  have hget : ∀ (j : Nat) (r : FetchRun), (s.runs.set i { run with stage })[j]? = some r →
      ∃ old, s.runs[j]? = some old ∧ old.chunk = r.chunk ∧
        (r.stage.isLive = true → old.stage.isLive = true) := by
    intro j r hr
    rcases get_set hr with ⟨rfl, rfl⟩ | ⟨-, hold⟩
    · exact ⟨run, hrun, rfl, fun _ => hlive⟩
    · exact ⟨r, hold, rfl, id⟩
  constructor
  · intro r hr
    obtain ⟨old, hold, heq⟩ := hmem r hr
    exact heq ▸ h.plain old hold
  · intro r hr other hother hcid
    obtain ⟨old, hold, heq⟩ := hmem r hr
    obtain ⟨old', hold', heq'⟩ := hmem other hother
    rw [← heq, ← heq'] at hcid ⊢
    exact h.sizes old hold old' hold' hcid
  · intro j k r other hj hk hlive₁ hlive₂ hcid
    obtain ⟨old, hold, heq, hback⟩ := hget j r hj
    obtain ⟨old', hold', heq', hback'⟩ := hget k other hk
    rw [← heq, ← heq'] at hcid
    exact h.apart j k old old' hold hold' (hback hlive₁) (hback' hlive₂) hcid
  · intro r hr
    obtain ⟨j, hj⟩ := List.getElem?_of_mem hr
    rcases get_set hj with ⟨-, rfl⟩ | ⟨hne, hold⟩
    · exact hknows
    · have hmem' := List.mem_of_getElem? hold
      have hrun' := List.mem_of_getElem? hrun
      refine heffect.knows (h.plain run hrun') (h.plain r hmem') (fun hcid => ⟨?_, ?_⟩)
        (h.knows r hmem')
      · by_contra hother
        exact hne (h.apart i j run r hrun hold hlive (Bool.eq_true_of_not_eq_false hother) hcid)
      · exact h.sizes run hrun' r hmem' hcid

theorem FetchSound.step (h : FetchSound hash chunksDir s) {e : FetchEvent}
    (hapart : FetchesApart hash s e) (hstep : fetchStep hash chunksDir s e = some t) :
    FetchSound hash chunksDir t := by
  cases e with
  | start c resume =>
      obtain rfl := Option.some.inj hstep
      exact h.start c resume hapart.1 hapart.2
  | act i move =>
      obtain ⟨run, hrun, hstep⟩ := Option.bind_eq_some_iff.mp hstep
      obtain ⟨⟨v, stage⟩, hact, hstep⟩ := Option.bind_eq_some_iff.mp hstep
      obtain rfl := Option.some.inj hstep
      have hcounts : move = .finish → CountsBody hash run := by
        rintro rfl
        exact hapart run hrun
      obtain ⟨heffect, hknows⟩ :=
        fetchAct_effect (h.knows run (List.mem_of_getElem? hrun)) hcounts hact
      exact h.act hrun (fetchAct_live hact) heffect hknows

/-- In whatever state a cache directory is found, a chunk that a fetch has returned `Ok` for is in
its file ever after, as long as fetches are apart. -/
theorem cache_intact (hash : Hashing) (chunksDir : Location) (start : ByteVolume)
    (events : List FetchEvent) (t : FetchRuns)
    (hrun : Run (fetchStep hash chunksDir) (FetchesApart hash) ⟨start, []⟩ events t) :
    CacheIntact hash chunksDir t := by
  have hstart : FetchSound hash chunksDir ⟨start, []⟩ := ⟨nofun, nofun, nofun, nofun⟩
  have hsound := hrun.invariant hstart fun x e y hx hok hstep => hx.step hok hstep
  exact hsound.intact

def oneByte : Chunk := ⟨spelledHash.cidStringFor [7], 1⟩

/-- The second fetch opens the temporary file anew when the first one has checked what it wrote. -/
def twoFetches : List FetchEvent :=
  [.start oneByte true, .act 0 .next, .act 0 .next, .act 0 (.reply false),
    .start oneByte true, .act 1 .next, .act 1 .next, .act 1 (.reply false),
    .act 0 .next, .act 0 (.receive [7]), .act 0 (.write 1), .act 0 .finish, .act 1 .next,
    .act 0 .next]

def FetchStage.isReturned : FetchStage → Bool
  | .returned _ => true
  | _ => false

/-- The first fetch has returned `Ok`, and the file of its chunk is empty. -/
theorem fetched_chunk_empty :
    ∃ t, Run (fetchStep spelledHash ["chunks"]) (fun _ _ => True) ⟨Volume.empty, []⟩ twoFetches t ∧
      ¬ CacheIntact spelledHash ["chunks"] t := by
  have hexec : (exec (fetchStep spelledHash ["chunks"]) ⟨Volume.empty, []⟩ twoFetches).map
      (fun t => (t.volume.content (finalPath ["chunks"] oneByte),
        t.runs.map fun run => (run.chunk, run.stage.isReturned))) =
      some (some [], [(oneByte, true), (oneByte, false)]) := by
    decide +kernel
  obtain ⟨t, hrun, hlast⟩ := Option.map_eq_some_iff.mp hexec
  obtain ⟨hcontent, hruns⟩ := Prod.mk.inj hlast
  refine ⟨t, Run.of_exec _ hrun fun _ _ _ => trivial, fun hintact => ?_⟩
  obtain ⟨run, rest, hsplit, hfirst, -⟩ := List.map_eq_cons_iff.mp hruns
  obtain ⟨hchunk, hreturned⟩ := Prod.mk.inj hfirst
  have hmem : run ∈ t.runs := hsplit ▸ List.mem_cons_self
  cases hstage : run.stage with
  | returned r =>
      obtain ⟨bytes, hbytes, hsize, -⟩ := hintact run hmem r hstage
      rw [hchunk, hcontent] at hbytes
      obtain rfl := Option.some.inj hbytes
      rw [hchunk] at hsize
      cases hsize
  | _ =>
      rw [hstage] at hreturned
      cases hreturned

/-- One fetch is killed, the next one resumes it and one more finds the chunk. -/
def resumedFetch : List FetchEvent :=
  let two : Chunk := ⟨spelledHash.cidStringFor [7, 8], 2⟩
  [.start two true, .act 0 .next, .act 0 .next, .act 0 (.reply false), .act 0 .next,
    .act 0 (.receive [7]), .act 0 (.write 1), .act 0 .stop, .act 0 .stop,
    .start two true, .act 1 .next, .act 1 .next, .act 1 (.reply true), .act 1 .next,
    .act 1 (.read 5), .act 1 .next, .act 1 (.receive [8]), .act 1 (.write 1), .act 1 .finish,
    .act 1 .next, .start two true, .act 2 .next, .act 2 .next, .act 2 (.read 2), .act 2 (.read 1)]

def countsBody (hash : Hashing) (run : FetchRun) : Bool :=
  match run.stage with
  | .streaming _ _ hashed total _ =>
      total ≠ run.chunk.size || hash.cidStringFor hashed ≠ run.chunk.cid || hashed.length = total
  | _ => true

def fetchesApart (hash : Hashing) (s : FetchRuns) : FetchEvent → Bool
  | .start c _ => '/' ∉ c.cid.toList && s.runs.all fun run =>
      run.chunk.cid ≠ c.cid || !run.stage.isLive && run.chunk.size = c.size
  | .act i .finish => (s.runs[i]?).all (countsBody hash)
  | .act _ _ => true

private theorem fetchesApart_sound (hash : Hashing) (s : FetchRuns) (e : FetchEvent)
    (h : fetchesApart hash s e = true) : FetchesApart hash s e := by
  cases e with
  | start c resume =>
      obtain ⟨hplain, hall⟩ := (Bool.and_eq_true _ _).mp h
      refine ⟨of_decide_eq_true hplain, fun run hrun hcid => ?_⟩
      have hfree := List.all_eq_true.mp hall run hrun
      simpa [hcid] using hfree
  | act i move =>
      cases move with
      | finish =>
          intro run hrun handle pos hashed total pending hstage hsize hcid
          have hcounts : (s.runs[i]?).all (countsBody hash) = true := h
          rw [hrun, Option.all_some, countsBody, hstage] at hcounts
          simpa [hsize, hcid] using hcounts
      | _ => trivial

theorem cache_intact_resumed :
    ∃ t, Run (fetchStep spelledHash ["chunks"]) (FetchesApart spelledHash) ⟨Volume.empty, []⟩
        resumedFetch t ∧
      (∀ run ∈ t.runs.drop 1, run.stage.isReturned = true) ∧
        CacheIntact spelledHash ["chunks"] t := by
  have hexec : (execChecked (fetchStep spelledHash ["chunks"]) (fetchesApart spelledHash)
      ⟨Volume.empty, []⟩ resumedFetch).map
      (fun t => (t.runs.drop 1).all fun run => run.stage.isReturned) = some true := by
    decide +kernel
  obtain ⟨t, hrun, hall⟩ := Option.map_eq_some_iff.mp hexec
  have hsteps := Run.of_execChecked hrun (fetchesApart_sound spelledHash)
  exact ⟨t, hsteps, List.all_eq_true.mp hall,
    cache_intact spelledHash ["chunks"] Volume.empty resumedFetch t hsteps⟩

end IntelNav.ModelStore
