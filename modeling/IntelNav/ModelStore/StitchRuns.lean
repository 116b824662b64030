import IntelNav.Disk.Volume
import IntelNav.ModelStore.Selection
import IntelNav.Transition.Run

/-! Runs of the stitcher for one output, by their operations on the files, in any order. -/

set_option autoImplicit false
set_option relaxedAutoImplicit false

namespace IntelNav.ModelStore

open IntelNav.Disk IntelNav.Reading IntelNav.Transition

inductive StitchStage
  | entered
  | called
  | opening (a : Assembly)
  | writing (a : Assembly) (handle pos : Nat)
  | measuring (a : Assembly)
  | returned (outcome : StitchOutcome)
  | reused
  | stopped

/-- The operations of a run. One that stops fails or is killed, and leaves the files as they are. -/
inductive StitchOp
  | look
  | assemble
  | create
  | write (n : Nat)
  | rename
  | measure
  | stop
  deriving DecidableEq

inductive StitchEvent
  | enter
  | act (run : Nat) (op : StitchOp)
  deriving DecidableEq

structure StitchRuns where
  volume : ByteVolume
  runs : List StitchStage

def StitchStage.isWriting : StitchStage → Bool
  | .writing .. => true
  | _ => false

private theorem isWriting_writing (a : Assembly) (handle pos : Nat) :
    (StitchStage.writing a handle pos).isWriting = true := rfl

def StitchStage.isLive : StitchStage → Bool
  | .returned _ | .reused | .stopped => false
  | _ => true

def Assembly.image (ar : Arith) (a : Assembly) : Bytes :=
  (writeTensors ar a.alignment a.dataOffset a.header a.tensors).1

def Assembly.finishes (ar : Arith) (a : Assembly) : Bool :=
  (writeTensors ar a.alignment a.dataOffset a.header a.tensors).2.isOk

section Machine

variable (ar : Arith) (hash : Hashing) (manifest : Manifest) (cacheDir : Location)
  (range : StitchRange) (outPath : Location)

/-- One operation of a run. The chunks are read at once, since no run writes them; the output is
written in pieces of any length, each where the handle stands. -/
def stitchAct (v : ByteVolume) : StitchStage → StitchOp → Option (ByteVolume × StitchStage)
  | .entered, .look => some (v, if (v.content outPath).isSome then .reused else .called)
  | .called, .assemble =>
      match assemble ar hash v.files manifest cacheDir range with
      | .ok a => some (v, .opening a)
      | .error _ => some (v, .stopped)
  | .opening a, .create =>
      let (v, handle) := v.create (withExtension outPath "gguf.tmp")
      some (v, .writing a handle 0)
  | .writing a handle pos, .write n =>
      let piece := ((a.image ar).drop pos).take n
      if piece = [] then none
      else some (v.writeAt handle pos piece, .writing a handle (pos + piece.length))
  | .writing a _ pos, .rename =>
      if pos = (a.image ar).length ∧ a.finishes ar then
        match v.rename (withExtension outPath "gguf.tmp") outPath with
        | some v => some (v, .measuring a)
        | none => some (v, .stopped)
      else none
  | .measuring a, .measure =>
      match v.content outPath with
      | some bytes => some (v, .returned ⟨outPath, bytes.length, a.tensors.length, a.nKv⟩)
      | none => some (v, .stopped)
  | stage, .stop => if stage.isLive then some (v, .stopped) else none
  | _, _ => none

def stitchStep (s : StitchRuns) : StitchEvent → Option StitchRuns
  | .enter => some { s with runs := s.runs ++ [.entered] }
  | .act i op => do
      let stage ← s.runs[i]?
      let (v, stage) ← stitchAct ar hash manifest cacheDir range outPath s.volume stage op
      some ⟨v, s.runs.set i stage⟩

/-- No run creates the temporary file while another one is between its `create` and its `rename`. -/
def CreatesAlone (s : StitchRuns) (e : StitchEvent) : Prop :=
  ∀ i, e = .act i .create → ∀ stage ∈ s.runs, stage.isWriting = false

def Undisturbed (files : Files) (bytes : Bytes) : Prop :=
  ∃ outcome files', stitchSubset ar hash manifest cacheDir range outPath files =
    (.ok outcome, files') ∧ files'.lookup outPath = some bytes

def VisibleComplete (files : Files) (v : ByteVolume) : Prop :=
  ∀ bytes, v.content outPath = some bytes →
    Undisturbed ar hash manifest cacheDir range outPath files bytes

end Machine

def NotChunkNamed (p : Location) : Prop :=
  ∃ dir name, p = dir ++ [name] ∧ ¬ ".bin".toList <:+ name.toList

variable {ar : Arith} {hash : Hashing} {manifest : Manifest} {cacheDir : Location}
  {range : StitchRange} {outPath : Location}

private theorem withExtension_name (dir : Location) (name ext : String) :
    ∃ stem : String, withExtension (dir ++ [name]) ext = dir ++ [stem ++ "." ++ ext] ∧
      (stem = name ∨ ∃ old : String, '.' ∉ old.toList ∧ name = stem ++ "." ++ old) := by
  have hwith : withExtension (dir ++ [name]) ext =
      dir ++
        [String.ofList (if (name.toList.reverse.dropWhile (· ≠ '.')).drop 1 = [] then name.toList
        else ((name.toList.reverse.dropWhile (· ≠ '.')).drop 1).reverse) ++ "." ++ ext] := by
    rw [withExtension, List.getLast?_concat]
    dsimp only
    rw [List.dropLast_concat]
  by_cases hstem : (name.toList.reverse.dropWhile (· ≠ '.')).drop 1 = []
  · rw [if_pos hstem, String.ofList_toList] at hwith
    exact ⟨name, hwith, .inl rfl⟩
  · rw [if_neg hstem] at hwith
    refine ⟨_, hwith, .inr ?_⟩
    have hdot : '.' ∈ name.toList.reverse := by
      by_contra hnone
      apply hstem
      have hdrop : (name.toList.reverse ++ []).dropWhile (· ≠ '.') = [] :=
        List.dropWhile_append_of_pos fun c hc => decide_eq_true fun hc' => hnone (hc' ▸ hc)
      rw [List.append_nil] at hdrop
      rw [hdrop]
      rfl
    obtain ⟨old, before, hsplit, hold⟩ := List.eq_append_cons_of_mem hdot
    have hdrop : (old ++ '.' :: before).dropWhile (· ≠ '.') = '.' :: before :=
      List.dropWhile_append_of_pos fun c hc => decide_eq_true fun hc' => hold (hc' ▸ hc)
    refine ⟨String.ofList old.reverse, by simpa using hold, String.toList_inj.mp ?_⟩
    rw [hsplit, hdrop, ← List.reverse_reverse name.toList, hsplit]
    simp

private theorem NotChunkNamed.ne_tmp (h : NotChunkNamed outPath) :
    withExtension outPath "gguf.tmp" ≠ outPath := by
  obtain ⟨dir, name, rfl, -⟩ := h
  obtain ⟨stem, hwith, hstem⟩ := withExtension_name dir name "gguf.tmp"
  rw [hwith]
  intro heq
  have hname := List.singleton_inj.mp (List.append_cancel_left heq)
  rcases hstem with rfl | ⟨old, hold, rfl⟩
  · have hlen := congrArg String.length hname
    rw [String.length_append, String.length_append] at hlen
    have hpos : 0 < ".".length := by decide
    omega
  · have hlist := congrArg String.toList hname
    simp only [String.toList_append] at hlist
    have hext := List.append_cancel_left hlist
    apply hold
    rw [← hext]
    decide

private theorem NotChunkNamed.ne_chunk (h : NotChunkNamed outPath) (folder : Location)
    (cid : String) :
    join folder (cid ++ ".bin") ≠ outPath ∧
      join folder (cid ++ ".bin") ≠ withExtension outPath "gguf.tmp" := by
  obtain ⟨dir, name, rfl, hname⟩ := h
  obtain ⟨stem, hwith, -⟩ := withExtension_name dir name "gguf.tmp"
  rw [join_extend folder cid (by decide) (by decide)]
  constructor
  · intro heq
    obtain ⟨-, hlast⟩ := List.append_inj' heq (by simp)
    apply hname
    rw [← List.singleton_inj.mp hlast, String.toList_append]
    exact List.suffix_append _ _
  · rw [hwith]
    intro heq
    obtain ⟨-, hlast⟩ := List.append_inj' heq (by simp)
    have hend := congrArg (fun s => s.toList.getLast?) (List.singleton_inj.mp hlast)
    simp [String.toList_append] at hend

private theorem bundleOpens_resolved {files : Files} {bundles : List BundleEntry} {p : Location}
    (h : p ∈ bundleOpens files cacheDir range bundles) :
    ∃ cid, p = chunksDirResolve files cacheDir cid := by
  induction bundles with
  | nil => cases h
  | cons b bundles ih =>
      rw [bundleOpens] at h
      dsimp only at h
      split at h
      · cases h
      · exact ih h
      · split at h
        · exact ⟨b.cid, List.mem_singleton.mp h⟩
        · split_ifs at h
          · exact ⟨b.cid, List.mem_singleton.mp h⟩
          · rcases List.mem_cons.mp h with hp | hp
            · exact ⟨b.cid, hp⟩
            · exact ih hp

private theorem stitchOpens_resolved {files : Files} {p : Location}
    (h : p ∈ stitchOpens ar hash files manifest cacheDir range) :
    ∃ cid, p = chunksDirResolve files cacheDir cid := by
  unfold stitchOpens at h
  split at h
  · cases h
  · rcases List.mem_cons.mp h with hp | hp
    · exact ⟨_, hp⟩
    · split at hp
      · cases hp
      · split_ifs at hp
        · exact bundleOpens_resolved hp
        · cases hp

private theorem assemble_others (h : NotChunkNamed outPath) {files files' : Files}
    (hothers : ∀ p, p ≠ outPath → p ≠ withExtension outPath "gguf.tmp" →
      files'.lookup p = files.lookup p) :
    assemble ar hash files' manifest cacheDir range =
      assemble ar hash files manifest cacheDir range := by
  have hsame : ∀ folder cid, files'.lookup (join folder (cid ++ ".bin")) =
      files.lookup (join folder (cid ++ ".bin")) := by
    intro folder cid
    obtain ⟨hout, htmp⟩ := h.ne_chunk folder cid
    exact hothers _ hout htmp
  apply assemble_congr
  · intro cid
    rw [chunksDirResolve, hsame, chunksDirResolve]
  · intro p hp
    obtain ⟨cid, rfl⟩ := stitchOpens_resolved hp
    rcases chunksDirResolve_cases files cacheDir cid with hplace | hplace
    · rw [hplace, hsame]
    · rw [hplace, hsame]

private theorem undisturbed_image {files : Files} {a : Assembly}
    (hassemble : assemble ar hash files manifest cacheDir range = .ok a)
    (hfinishes : a.finishes ar = true) :
    Undisturbed ar hash manifest cacheDir range outPath files (a.image ar) := by
  have hwrite : writeTensors ar a.alignment a.dataOffset a.header a.tensors =
      (a.image ar, .ok ()) := by
    unfold Assembly.finishes at hfinishes
    unfold Assembly.image
    cases hrun : writeTensors ar a.alignment a.dataOffset a.header a.tensors with
    | mk out written =>
        rw [hrun] at hfinishes
        cases written with
        | error e => cases hfinishes
        | ok u => rfl
  have hrun : stitchSubset ar hash manifest cacheDir range outPath files =
      (.ok ⟨outPath, (a.image ar).length, a.tensors.length, a.nKv⟩,
        renameFile (files.insert (withExtension outPath "gguf.tmp") (a.image ar))
          (withExtension outPath "gguf.tmp") outPath) := by
    unfold stitchSubset
    rw [hassemble]
    dsimp only
    rw [hwrite]
  exact ⟨_, _, hrun, (lookup_renameFile files _ outPath (a.image ar)).1⟩

section Effect

variable (ar hash manifest cacheDir range outPath)

/-- The operations by their effect on the volume: most have none, a file is only created for an
assembly, written where its handle stands and moved when it is whole. -/
inductive StitchEffect (v : ByteVolume) :
    StitchStage → StitchOp → ByteVolume → StitchStage → Prop
  | none {stage stage' : StitchStage} {op : StitchOp} (hwriting : stage'.isWriting = false)
      (hopening : ∀ a, stage' = .opening a →
        assemble ar hash v.files manifest cacheDir range = .ok a) :
      StitchEffect v stage op v stage'
  | create (a : Assembly) :
      StitchEffect v (.opening a) .create (v.create (withExtension outPath "gguf.tmp")).1
        (.writing a (v.create (withExtension outPath "gguf.tmp")).2 0)
  | write (a : Assembly) (handle pos n : Nat) :
      StitchEffect v (.writing a handle pos) (.write n)
        (v.writeAt handle pos (((a.image ar).drop pos).take n))
        (.writing a handle (pos + (((a.image ar).drop pos).take n).length))
  | rename {a : Assembly} {handle : Nat} {v' : ByteVolume} (hfinishes : a.finishes ar = true)
      (hrename : v.rename (withExtension outPath "gguf.tmp") outPath = some v') :
      StitchEffect v (.writing a handle (a.image ar).length) .rename v' (.measuring a)

end Effect

private theorem stitchAct_effect {v v' : ByteVolume} {stage stage' : StitchStage} {op : StitchOp}
    (h : stitchAct ar hash manifest cacheDir range outPath v stage op = some (v', stage')) :
    StitchEffect ar hash manifest cacheDir range outPath v stage op v' stage' := by
  unfold stitchAct at h
  split at h
  · obtain ⟨rfl, rfl⟩ := Prod.mk.inj (Option.some.inj h)
    split_ifs <;> exact .none rfl nofun
  · split at h
    · rename_i a hassemble
      obtain ⟨rfl, rfl⟩ := Prod.mk.inj (Option.some.inj h)
      refine .none rfl fun b hb => ?_
      rw [hassemble, StitchStage.opening.inj hb]
    · obtain ⟨rfl, rfl⟩ := Prod.mk.inj (Option.some.inj h)
      exact .none rfl nofun
  · obtain ⟨rfl, rfl⟩ := Prod.mk.inj (Option.some.inj h)
    exact .create _
  · dsimp only at h
    split_ifs at h
    obtain ⟨rfl, rfl⟩ := Prod.mk.inj (Option.some.inj h)
    exact .write _ _ _ _
  · split_ifs at h with hwhole
    obtain ⟨rfl, hfinishes⟩ := hwhole
    split at h
    · rename_i hrename
      obtain ⟨rfl, rfl⟩ := Prod.mk.inj (Option.some.inj h)
      exact .rename hfinishes hrename
    · obtain ⟨rfl, rfl⟩ := Prod.mk.inj (Option.some.inj h)
      exact .none rfl nofun
  · split at h
    · obtain ⟨rfl, rfl⟩ := Prod.mk.inj (Option.some.inj h)
      exact .none rfl nofun
    · obtain ⟨rfl, rfl⟩ := Prod.mk.inj (Option.some.inj h)
      exact .none rfl nofun
  · split_ifs at h
    obtain ⟨rfl, rfl⟩ := Prod.mk.inj (Option.some.inj h)
    exact .none rfl nofun
  · cases h

section Invariant

variable (ar hash manifest cacheDir range outPath)

/-- The output is whole or not there, and a run that writes is the only one and has written the
temporary file up to where its handle stands. -/
structure StitchSound (start : ByteVolume) (s : StitchRuns) : Prop where
  others : ∀ p, p ≠ outPath → p ≠ withExtension outPath "gguf.tmp" →
    s.volume.content p = start.content p
  visible : VisibleComplete ar hash manifest cacheDir range outPath start.files s.volume
  opened : ∀ a, .opening a ∈ s.runs → assemble ar hash start.files manifest cacheDir range = .ok a
  written : ∀ a handle pos, .writing a handle pos ∈ s.runs →
    assemble ar hash start.files manifest cacheDir range = .ok a ∧
      s.volume.entries.lookup (withExtension outPath "gguf.tmp") = some handle ∧
      s.volume.inode handle = (a.image ar).take pos ∧ pos ≤ (a.image ar).length
  alone : s.runs.countP StitchStage.isWriting ≤ 1

end Invariant

variable {start : ByteVolume} {s : StitchRuns}

theorem StitchSound.assembles (hname : NotChunkNamed outPath)
    (h : StitchSound ar hash manifest cacheDir range outPath start s) :
    assemble ar hash s.volume.files manifest cacheDir range =
      assemble ar hash start.files manifest cacheDir range := by
  apply assemble_others hname
  intro p hout htmp
  rw [Volume.lookup_files, Volume.lookup_files]
  exact h.others p hout htmp

private theorem countP_set_stage {runs : List StitchStage} {i : Nat} {x : StitchStage}
    (h : runs[i]? = some x) (stage : StitchStage) :
    (runs.set i stage).countP StitchStage.isWriting + (if x.isWriting then 1 else 0) =
      runs.countP StitchStage.isWriting + (if stage.isWriting then 1 else 0) := by
  obtain ⟨hi, hx⟩ := List.getElem?_eq_some_iff.mp h
  have hpos : x.isWriting = true → 0 < runs.countP StitchStage.isWriting := fun hw =>
    List.countP_pos_iff.mpr ⟨x, List.mem_of_getElem? h, hw⟩
  rw [List.countP_set hi, hx]
  split_ifs with hx' hs hs
  · have := hpos hx'
    omega
  · have := hpos hx'
    omega
  · omega
  · omega

private theorem writer_unique {runs : List StitchStage} (h : runs.countP StitchStage.isWriting ≤ 1)
    {x y : StitchStage} (hx : x ∈ runs) (hy : y ∈ runs) (hwx : x.isWriting = true)
    (hwy : y.isWriting = true) : x = y := by
  rw [List.countP_eq_length_filter] at h
  have hx' := List.mem_filter.mpr ⟨hx, hwx⟩
  have hy' := List.mem_filter.mpr ⟨hy, hwy⟩
  cases hwriters : runs.filter StitchStage.isWriting with
  | nil =>
      rw [hwriters] at hx'
      cases hx'
  | cons z rest =>
      rw [hwriters, List.length_cons] at h
      obtain rfl : rest = [] := List.eq_nil_of_length_eq_zero (by omega)
      rw [hwriters] at hx' hy'
      rw [List.mem_singleton.mp hx', List.mem_singleton.mp hy']

theorem StitchSound.keep (hname : NotChunkNamed outPath)
    (h : StitchSound ar hash manifest cacheDir range outPath start s) {i : Nat}
    {old stage : StitchStage} (hold : s.runs[i]? = some old) (hwriting : stage.isWriting = false)
    (hopening : ∀ a, stage = .opening a →
      assemble ar hash s.volume.files manifest cacheDir range = .ok a) :
    StitchSound ar hash manifest cacheDir range outPath start
      ⟨s.volume, s.runs.set i stage⟩ where
  others := h.others
  visible := h.visible
  opened a ha := by
    rcases List.mem_or_eq_of_mem_set ha with hmem | heq
    · exact h.opened a hmem
    · rw [← h.assembles hname]
      exact hopening a heq.symm
  written a handle pos ha := by
    rcases List.mem_or_eq_of_mem_set ha with hmem | heq
    · exact h.written a handle pos hmem
    · rw [← heq] at hwriting
      cases hwriting
  alone := by
    have hcount := countP_set_stage hold stage
    have halone := h.alone
    rw [hwriting, if_neg Bool.false_ne_true] at hcount
    show (s.runs.set i stage).countP _ ≤ 1
    omega

theorem StitchSound.create (hname : NotChunkNamed outPath)
    (h : StitchSound ar hash manifest cacheDir range outPath start s)
    (hnone : ∀ stage ∈ s.runs, stage.isWriting = false) {i : Nat} {a : Assembly}
    (hold : s.runs[i]? = some (.opening a)) :
    StitchSound ar hash manifest cacheDir range outPath start
      ⟨(s.volume.create (withExtension outPath "gguf.tmp")).1, s.runs.set i
        (.writing a (s.volume.create (withExtension outPath "gguf.tmp")).2 0)⟩ where
  others p hout htmp := by
    rw [Volume.content_create_ne htmp]
    exact h.others p hout htmp
  visible bytes hbytes := by
    rw [Volume.content_create_ne hname.ne_tmp.symm] at hbytes
    exact h.visible bytes hbytes
  opened b hb := by
    rcases List.mem_or_eq_of_mem_set hb with hmem | heq
    · exact h.opened b hmem
    · cases heq
  written b handle pos hb := by
    rcases List.mem_or_eq_of_mem_set hb with hmem | heq
    · have hfalse := hnone _ hmem
      cases hfalse
    · obtain ⟨rfl, rfl, rfl⟩ := StitchStage.writing.inj heq
      refine ⟨h.opened b (List.mem_of_getElem? hold), Volume.lookup_create _ _, ?_, Nat.zero_le _⟩
      rw [Volume.inode_create, List.take_zero]
  alone := by
    have hcount := countP_set_stage hold
      (.writing a (s.volume.create (withExtension outPath "gguf.tmp")).2 0)
    have hzero : s.runs.countP StitchStage.isWriting = 0 :=
      List.countP_eq_zero.mpr fun x hx => by simp [hnone x hx]
    have hbefore : (StitchStage.opening a).isWriting = false := rfl
    rw [hzero, hbefore, if_neg Bool.false_ne_true, if_pos (isWriting_writing _ _ _)] at hcount
    show (s.runs.set i _).countP _ ≤ 1
    omega

theorem StitchSound.write (hname : NotChunkNamed outPath)
    (h : StitchSound ar hash manifest cacheDir range outPath start s) {i : Nat} {a : Assembly}
    {handle pos : Nat} (hold : s.runs[i]? = some (.writing a handle pos)) (n : Nat) :
    StitchSound ar hash manifest cacheDir range outPath start
      ⟨s.volume.writeAt handle pos (((a.image ar).drop pos).take n),
        s.runs.set i (.writing a handle (pos + (((a.image ar).drop pos).take n).length))⟩ := by
  obtain ⟨hassemble, hlookup, hinode, hpos⟩ := h.written a handle pos (List.mem_of_getElem? hold)
  set piece := ((a.image ar).drop pos).take n with hpiece
  have hother : ∀ p, p ≠ withExtension outPath "gguf.tmp" →
      s.volume.entries.lookup p ≠ some handle := by
    intro p hp hh
    exact hp (s.volume.oneName _ _ _ hh hlookup)
  have hlength : (s.volume.inode handle).length = pos := by
    rw [hinode, List.length_take]
    omega
  have hfits : pos + piece.length ≤ (a.image ar).length := by
    rw [hpiece, List.length_take, List.length_drop]
    omega
  have hgrown : (s.volume.writeAt handle pos piece).inode handle =
      (a.image ar).take (pos + piece.length) := by
    have hpart : piece = ((a.image ar).drop pos).take piece.length :=
      List.prefix_iff_eq_take.mp (List.take_prefix _ _)
    rw [Volume.inode_writeAt_end hlookup hlength, hinode, List.take_add, ← hpart]
  have halone : (s.runs.set i (.writing a handle (pos + piece.length))).countP
      StitchStage.isWriting ≤ 1 := by
    have hcount := countP_set_stage hold (.writing a handle (pos + piece.length))
    have hone := h.alone
    rw [if_pos (isWriting_writing _ _ _), if_pos (isWriting_writing _ _ _)] at hcount
    omega
  have hi : i < s.runs.length := (List.getElem?_eq_some_iff.mp hold).1
  refine ⟨?_, ?_, ?_, ?_, halone⟩
  · intro p hout htmp
    rw [Volume.content_writeAt_ne (hother p htmp)]
    exact h.others p hout htmp
  · intro bytes hbytes
    rw [Volume.content_writeAt_ne (hother _ hname.ne_tmp.symm)] at hbytes
    exact h.visible bytes hbytes
  · intro b hb
    rcases List.mem_or_eq_of_mem_set hb with hmem | heq
    · exact h.opened b hmem
    · cases heq
  · intro b handle' pos' hb
    have heq := writer_unique halone hb (List.mem_set hi _) rfl rfl
    obtain ⟨rfl, rfl, rfl⟩ := StitchStage.writing.inj heq
    exact ⟨hassemble, hlookup, hgrown, hfits⟩

theorem StitchSound.rename
    (h : StitchSound ar hash manifest cacheDir range outPath start s) {i : Nat} {a : Assembly}
    {handle : Nat} (hold : s.runs[i]? = some (.writing a handle (a.image ar).length))
    (hfinishes : a.finishes ar = true) {v : ByteVolume}
    (hrename : s.volume.rename (withExtension outPath "gguf.tmp") outPath = some v) :
    StitchSound ar hash manifest cacheDir range outPath start
      ⟨v, s.runs.set i (.measuring a)⟩ := by
  obtain ⟨hassemble, hlookup, hinode, -⟩ := h.written a handle _ (List.mem_of_getElem? hold)
  rw [List.take_length] at hinode
  obtain ⟨hmoved, -, hothers⟩ := Volume.content_rename hrename
  have hzero : (s.runs.set i (.measuring a)).countP StitchStage.isWriting = 0 := by
    have hcount := countP_set_stage hold (.measuring a)
    have hone := h.alone
    have hafter : (StitchStage.measuring a).isWriting = false := rfl
    rw [if_pos (isWriting_writing _ _ _), hafter, if_neg Bool.false_ne_true] at hcount
    omega
  refine ⟨?_, ?_, ?_, ?_, ?_⟩
  · intro p hout htmp
    exact (hothers p htmp hout).trans (h.others p hout htmp)
  · intro bytes hbytes
    rw [hmoved, Volume.content_of_lookup hlookup, hinode] at hbytes
    obtain rfl := Option.some.inj hbytes
    exact undisturbed_image hassemble hfinishes
  · intro b hb
    rcases List.mem_or_eq_of_mem_set hb with hmem | heq
    · exact h.opened b hmem
    · cases heq
  · intro b handle' pos hb
    exact absurd rfl (List.countP_eq_zero.mp hzero _ hb)
  · rw [hzero]
    exact Nat.zero_le 1

theorem StitchSound.step (hname : NotChunkNamed outPath)
    (h : StitchSound ar hash manifest cacheDir range outPath start s) {e : StitchEvent}
    (halone : CreatesAlone s e) {t : StitchRuns}
    (hstep : stitchStep ar hash manifest cacheDir range outPath s e = some t) :
    StitchSound ar hash manifest cacheDir range outPath start t := by
  cases e with
  | enter =>
      obtain rfl := Option.some.inj hstep
      refine ⟨h.others, h.visible, ?_, ?_, ?_⟩
      · intro a ha
        rcases List.mem_append.mp ha with hmem | hnew
        · exact h.opened a hmem
        · cases List.mem_singleton.mp hnew
      · intro a handle pos ha
        rcases List.mem_append.mp ha with hmem | hnew
        · exact h.written a handle pos hmem
        · cases List.mem_singleton.mp hnew
      · show (s.runs ++ [StitchStage.entered]).countP _ ≤ 1
        rw [List.countP_append]
        exact h.alone
  | act i op =>
      obtain ⟨old, hold, hstep⟩ := Option.bind_eq_some_iff.mp hstep
      obtain ⟨⟨v, stage⟩, hact, hstep⟩ := Option.bind_eq_some_iff.mp hstep
      obtain rfl := Option.some.inj hstep
      cases stitchAct_effect hact with
      | none hwriting hopening => exact h.keep hname hold hwriting hopening
      | create a => exact h.create hname (halone i rfl) hold
      | write a handle pos n => exact h.write hname hold n
      | rename hfinishes hrename => exact h.rename hold hfinishes hrename

/-- As long as no run creates the temporary file while another one is at work on it, what can be
seen of the output is what one undisturbed run makes. -/
theorem visible_stitch_complete (ar : Arith) (hash : Hashing) (manifest : Manifest)
    (cacheDir : Location) (range : StitchRange) (outPath : Location)
    (hname : NotChunkNamed outPath) (start : ByteVolume)
    (hcold : VisibleComplete ar hash manifest cacheDir range outPath start.files start)
    (events : List StitchEvent) (t : StitchRuns)
    (hrun : Run (stitchStep ar hash manifest cacheDir range outPath) CreatesAlone ⟨start, []⟩
      events t) :
    VisibleComplete ar hash manifest cacheDir range outPath start.files t.volume := by
  have hstart : StitchSound ar hash manifest cacheDir range outPath start ⟨start, []⟩ :=
    ⟨fun _ _ _ => rfl, hcold, nofun, nofun, Nat.zero_le 1⟩
  have hsound := hrun.invariant hstart fun x e y hx hok hstep => hx.step hname hok hstep
  exact hsound.visible

def bareHeader : Bytes :=
  ggufMagic ++ leBytes 4 3 ++ leBytes 8 0 ++ leBytes 8 0 ++ List.replicate 8 0

def bareManifest : Manifest where
  format := "intelnav-model"
  version := manifestVersion
  name := none
  architecture := some "a"
  nLayers := 1
  gguf := { ggufVersion := 3, alignment := 32, tensorDataOffset := 32, nKv := 0, nTensors := 0 }
  headerChunk := ⟨spelledHash.cidStringFor bareHeader, 32⟩
  bundles := [⟨"blk.0", some (0, 1), spelledHash.cidStringFor [7], 1,
    [⟨"blk.0.w", [1], "I8", 24, 0, spelledHash.cidStringFor [7], 1, 0⟩]⟩]

def bareVolume : ByteVolume :=
  (Volume.empty.put (["slices", "chunks", spelledHash.cidStringFor bareHeader ++ ".bin"])
    bareHeader).put ["slices", "chunks", spelledHash.cidStringFor [7] ++ ".bin"] [7]

def bareOut : Location := ["slices", "stitched-0-1.gguf"]

def bareRange : StitchRange := ⟨0, 1, false, false⟩

private theorem bareOut_named : NotChunkNamed bareOut :=
    ⟨["slices"], "stitched-0-1.gguf", rfl, by decide⟩

/-- The second run creates the temporary file anew when the first one has written it. -/
def overlapping : List StitchEvent :=
  [.enter, .enter, .act 0 .look, .act 0 .assemble, .act 0 .create, .act 0 (.write 160),
    .act 1 .look, .act 1 .assemble, .act 1 .create, .act 0 .rename]

private theorem bare_undisturbed {bytes : Bytes}
    (h : Undisturbed release spelledHash bareManifest ["slices"] bareRange bareOut
      bareVolume.files bytes) : bytes.length = 160 := by
  obtain ⟨outcome, files', hrun, hlookup⟩ := h
  have hlength : ((stitchSubset release spelledHash bareManifest ["slices"] bareRange bareOut
      bareVolume.files).2.lookup bareOut).map List.length = some 160 := by decide +kernel
  rw [hrun, hlookup, Option.map_some] at hlength
  exact Option.some.inj hlength

/-- An empty file is there under the name of the output. -/
theorem partial_stitch_visible :
    ∃ t, Run (stitchStep release spelledHash bareManifest ["slices"] bareRange bareOut)
        (fun _ _ => True) ⟨bareVolume, []⟩ overlapping t ∧
      t.volume.content bareOut = some [] ∧
      ¬ VisibleComplete release spelledHash bareManifest ["slices"] bareRange bareOut
        bareVolume.files t.volume := by
  have hexec : (exec (stitchStep release spelledHash bareManifest ["slices"] bareRange bareOut)
      ⟨bareVolume, []⟩ overlapping).map (fun t => t.volume.content bareOut) = some (some []) := by
    decide +kernel
  obtain ⟨t, hrun, hcontent⟩ := Option.map_eq_some_iff.mp hexec
  refine ⟨t, Run.of_exec _ hrun fun _ _ _ => trivial, hcontent, fun hvisible => ?_⟩
  have hlength := bare_undisturbed (hvisible [] hcontent)
  cases hlength

/-- One run after the other, the second one entered before the first is done. -/
def oneByOne : List StitchEvent :=
  [.enter, .enter, .act 0 .look, .act 0 .assemble, .act 0 .create, .act 1 .look,
    .act 0 (.write 100), .act 1 .assemble, .act 0 (.write 60), .act 0 .rename, .act 1 .create,
    .act 1 (.write 10), .act 0 .measure]

def createsAlone (s : StitchRuns) : StitchEvent → Bool
  | .act _ .create => s.runs.all fun stage => !stage.isWriting
  | _ => true

theorem visible_stitch_complete_bare :
    ∃ t, (t.volume.content bareOut).isSome ∧
      VisibleComplete release spelledHash bareManifest ["slices"] bareRange bareOut
        bareVolume.files t.volume ∧
      Run (stitchStep release spelledHash bareManifest ["slices"] bareRange bareOut) CreatesAlone
        ⟨bareVolume, []⟩ oneByOne t := by
  have hexec : (execChecked (stitchStep release spelledHash bareManifest ["slices"] bareRange
      bareOut) createsAlone ⟨bareVolume, []⟩ oneByOne).map
      (fun t => (t.volume.content bareOut).isSome) = some true := by
    decide +kernel
  obtain ⟨t, hrun, hcontent⟩ := Option.map_eq_some_iff.mp hexec
  have hchecked : ∀ x e, createsAlone x e = true → CreatesAlone x e := by
    rintro x e h i rfl stage hstage
    have hall := List.all_eq_true.mp h stage hstage
    simpa using hall
  have hsteps := Run.of_execChecked hrun hchecked
  have habsent : ∀ bytes, bareVolume.content bareOut ≠ some bytes := by
    intro bytes hbytes
    have hnone : bareVolume.content bareOut = none := by decide +kernel
    rw [hnone] at hbytes
    cases hbytes
  refine ⟨t, hcontent, ?_, hsteps⟩
  exact visible_stitch_complete release spelledHash bareManifest ["slices"] bareRange bareOut
    bareOut_named bareVolume (fun bytes hbytes => absurd hbytes (habsent bytes)) oneByOne t hsteps

end IntelNav.ModelStore
