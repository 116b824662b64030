import IntelNav.ModelStore.Http

/-! The stitcher (`crates/model-store/src/stitch.rs`): a GGUF with the tensors of some layers, from
a manifest and its chunks. -/

set_option autoImplicit false
set_option relaxedAutoImplicit false

namespace IntelNav.ModelStore

open IntelNav.Disk IntelNav.Reading

structure StitchRange where
  start : UInt32
  stop : UInt32
  includeEmbed : Bool
  includeHead : Bool
  deriving DecidableEq

structure StitchOutcome where
  path : Location
  size : Nat
  nTensors : Nat
  nKv : Nat
  deriving DecidableEq

inductive StitchError
  | stopBeforeStart (stop start : UInt32)
  | exceedsLayers (stop : UInt32) (nLayers : Nat)
  | embedNotFirst (start : UInt32)
  | headNotLast (nLayers : Nat) (stop : UInt32)
  | missing (p : Location)
  | chunkHash (p : Location) (actual cid : String)
  | headerSize (manifest disk : Nat)
  | scratch
  | gguf (e : GgufError)
  | noArchitecture
  | malformedBundle (name : String)
  | unknownBundle (name : String)
  | bundleSize (name : String) (manifest disk : Nat)
  | overruns (member bundle : String) (start stop disk : Nat)
  | noTensors
  | drift (expected actual : Nat) (name : String)
  deriving DecidableEq

def validateRange (manifest : Manifest) (range : StitchRange) : Except StitchError Unit :=
  if range.stop < range.start then .error (.stopBeforeStart range.stop range.start)
  else if manifest.nLayers < range.stop.toNat then
    .error (.exceedsLayers range.stop manifest.nLayers)
  else if range.includeEmbed ∧ range.start ≠ 0 then .error (.embedNotFirst range.start)
  else if range.includeHead ∧ range.stop.toNat ≠ manifest.nLayers then
    .error (.headNotLast manifest.nLayers range.stop)
  else .ok ()

/-! The chunks on disk. -/

/-- A chunk in `chunks/`, or else one beside it. -/
def chunksDirResolve (files : Files) (cacheDir : Location) (cid : String) : Location :=
  let canonical := join (join cacheDir "chunks") (cid ++ ".bin")
  if (files.lookup canonical).isSome then canonical else join cacheDir (cid ++ ".bin")

theorem chunksDirResolve_cases (files : Files) (cacheDir : Location) (cid : String) :
    chunksDirResolve files cacheDir cid = join (join cacheDir "chunks") (cid ++ ".bin") ∨
      chunksDirResolve files cacheDir cid = join cacheDir (cid ++ ".bin") :=
  ite_eq_or_eq _ _ _

/-- `read_chunk`, with its check for tampering. -/
def readCachedChunk (hash : Hashing) (files : Files) (cacheDir : Location) (cid : String) :
    Except StitchError Bytes :=
  let p := chunksDirResolve files cacheDir cid
  match files.lookup p with
  | none => .error (.missing p)
  | some bytes =>
      let actual := hash.cidStringFor bytes
      if actual ≠ cid then .error (.chunkHash p actual cid) else .ok bytes

/-- The scratch file with the header: as long as the manifest says, and one byte more. -/
def scratchGgufFromHeader (headerBytes : Bytes) (tensorDataOffset : Nat) : Bytes :=
  let pad := (Int64.ofNat tensorDataOffset - Int64.ofNat headerBytes.length).toInt
  headerBytes ++ List.replicate pad.toNat 0 ++ [0]

def includesBundle (range : StitchRange) (name : String) : Except StitchError Bool :=
  if name = "embed" then .ok range.includeEmbed
  else if name = "head" then .ok range.includeHead
  else
    match stripPrefix "blk.".toList name.toList with
    | some rest =>
        match parseU32 rest with
        | some n => .ok (range.start ≤ n ∧ n < range.stop)
        | none => .error (.malformedBundle name)
    | none => .error (.unknownBundle name)

def openBundles (files : Files) (cacheDir : Location) (range : StitchRange) :
    List BundleEntry → Except StitchError (List (String × Bytes))
  | [] => .ok []
  | b :: bundles => do
      let included ← includesBundle range b.name
      if included then
        let p := chunksDirResolve files cacheDir b.cid
        match files.lookup p with
        | none => .error (.missing p)
        | some bytes =>
            if bytes.length ≠ b.size then .error (.bundleSize b.name b.size bytes.length)
            else do
              let mmaps ← openBundles files cacheDir range bundles
              .ok ((b.cid, bytes) :: mmaps)
      else openBundles files cacheDir range bundles

structure KeptTensor where
  newName : String
  dtypeCode : Nat
  shape : List Int64
  bytes : Bytes

def renameTensor (name : String) (layerOffset : UInt32) : String :=
  match stripPrefix "blk.".toList name.toList with
  | some rest =>
      let tail := String.ofList ((rest.dropWhile (· ≠ '.')).drop 1)
      match parseU32 (rest.takeWhile (· ≠ '.')) with
      | some n =>
          let block := "blk." ++ toString (n.toNat - layerOffset.toNat)
          if tail = "" then block else block ++ "." ++ tail
      | none => name
  | none => name

section Stitch

variable (ar : Arith) (hash : Hashing)

def ofStitch {α : Type} : Except StitchError α → Except (Stop StitchError) α
  | .ok a => .ok a
  | .error e => .error (.failed e)

def ofReader {α : Type} : Except (Stop GgufError) α → Except (Stop StitchError) α
  | .ok a => .ok a
  | .error (.failed e) => .error (.failed (.gguf e))
  | .error .panicked => .error .panicked

theorem ofReader_ok {α : Type} {r : Except (Stop GgufError) α} {a : α} (h : ofReader r = .ok a) :
    r = .ok a := by
  rcases r with (e | -) | b
  · cases h
  · cases h
  · rw [Except.ok.inj h]

theorem ofStitch_ok {α : Type} {r : Except StitchError α} {a : α} (h : ofStitch r = .ok a) :
    r = .ok a := by
  cases r with
  | error e => cases h
  | ok b => rw [Except.ok.inj h]

def keepMember (range : StitchRange) (bundle : String) (mmap : Bytes) (m : BundleMember) :
    Except (Stop StitchError) KeptTensor := do
  let start := m.offsetInBundle
  let stop ← ofPanic (ar.add start m.size)
  if mmap.length < stop then .error (.failed (.overruns m.name bundle start stop mmap.length))
  else if stop < start then .error .panicked
  else
    pure
      { newName := renameTensor m.name range.start, dtypeCode := m.dtypeCode, shape := m.shape
        bytes := (mmap.drop start).take (stop - start) }

/-- The tensors of the range, each cut out of the first mapping with the CID of its bundle. -/
def keepTensors (range : StitchRange) (mmaps : List (String × Bytes)) :
    List BundleEntry → Except (Stop StitchError) (List KeptTensor)
  | [] => .ok []
  | b :: bundles => do
      let included ← ofStitch (includesBundle range b.name)
      if included then
        match mmaps.lookup b.cid with
        | none => .error .panicked
        | some mmap => do
            let kept ← b.members.mapM (keepMember ar range b.name mmap)
            let rest ← keepTensors range mmaps bundles
            .ok (kept ++ rest)
      else keepTensors range mmaps bundles

/-! The new header. -/

def writeString (s : String) : Bytes :=
  let bytes := s.toUTF8.data.toList
  leBytes 8 bytes.length ++ bytes

def writeKvU32 (key : String) (value : Nat) : Bytes :=
  writeString key ++ leBytes 4 KvType.u32.code ++ leBytes 4 value

def writeKvBool (key : String) (value : Bool) : Bytes :=
  writeString key ++ leBytes 4 KvType.bool.code ++ [if value then 1 else 0]

/-- The KV entries one after the other: the block count is rewritten, other entries are copied from
the header chunk, where an entry that runs over its end panics. -/
def rewriteKvs (headerBytes : Bytes) (blockCountKey : String) (range : StitchRange) :
    Nat → List KvEntry → Option Bytes
  | _, [] => some []
  | pos, kv :: kvs => do
      let stop := pos + kv.entry.length
      if headerBytes.length < stop then none
      else
        let bytes :=
          if kv.key = blockCountKey ∧ kv.ty = .u32 then
            writeKvU32 kv.key (range.stop - range.start).toNat
          else (headerBytes.drop pos).take kv.entry.length
        let rest ← rewriteKvs headerBytes blockCountKey range stop kvs
        pure (bytes ++ rest)

/-- The tensor index and the offset of each tensor, from the cursor on. -/
def writeIndex (alignment : Nat) : Nat → List KeptTensor → Option (Bytes × List Nat)
  | _, [] => some ([], [])
  | cursor, t :: kept => do
      let entry := writeString t.newName ++ leBytes 4 t.shape.length ++
        t.shape.flatMap (fun d => leBytes 8 d.toUInt64.toNat) ++ leBytes 4 t.dtypeCode ++
        leBytes 8 cursor
      let stop ← ar.add cursor t.bytes.length
      let next ← alignUp ar stop alignment
      let (index, offsets) ← writeIndex alignment next kept
      pure (entry ++ index, cursor :: offsets)

/-! The file. -/

/-- `with_extension` on the last component. -/
def withExtension (p : Location) (ext : String) : Location :=
  match p.getLast? with
  | none => p
  | some name =>
      let stem := (name.toList.reverse.dropWhile (· ≠ '.')).drop 1
      let stem := if stem = [] then name.toList else stem.reverse
      p.dropLast ++ [String.ofList stem ++ "." ++ ext]

/-- The tensors, each at its offset and padded to the alignment; what is written when it stops. -/
def writeTensors (alignment dataOffset : Nat) :
    Bytes → List (KeptTensor × Nat) → Bytes × Except (Stop StitchError) Unit
  | out, [] => (out, .ok ())
  | out, (t, off) :: kept =>
      match ar.add dataOffset off with
      | none => (out, .error .panicked)
      | some expected =>
          if expected ≠ out.length then
            (out, .error (.failed (.drift expected out.length t.newName)))
          else
            let out := out ++ t.bytes
            match alignUp ar out.length alignment with
            | none => (out, .error .panicked)
            | some padded =>
                writeTensors alignment dataOffset (out ++ List.replicate (padded - out.length) 0)
                  kept

/-- The header of the new file with its padding, the tensors with their offsets, and the count of KV
entries. -/
structure Assembly where
  header : Bytes
  alignment : Nat
  dataOffset : Nat
  tensors : List (KeptTensor × Nat)
  nKv : Nat

def assemble (files : Files) (manifest : Manifest) (cacheDir : Location) (range : StitchRange) :
    Except (Stop StitchError) Assembly := do
  ofStitch (validateRange manifest range)
  let headerBytes ← ofStitch (readCachedChunk hash files cacheDir manifest.headerChunk.cid)
  if headerBytes.length ≠ manifest.headerChunk.size then
    .error (.failed (.headerSize manifest.headerChunk.size headerBytes.length))
  else
    let scratch := scratchGgufFromHeader headerBytes manifest.gguf.tensorDataOffset
    if hlt : scratch.length < 2 ^ 63 then do
      let original ← ofReader (Gguf.open ar ⟨scratch, hlt⟩)
      match manifest.architecture with
      | none => .error (.failed .noArchitecture)
      | some kvArch => do
          let mmaps ← ofStitch (openBundles files cacheDir range manifest.bundles)
          let kept ← keepTensors ar range mmaps manifest.bundles
          if kept = [] then .error (.failed .noTensors)
          else do
            let kvs ← ofReader (original.kvEntries ar)
            let newKv ← ofPanic (rewriteKvs headerBytes (kvArch ++ ".block_count") range 24 kvs)
            let alignment := max manifest.gguf.alignment 1
            let (index, offsets) ← ofPanic (writeIndex ar alignment 0 kept)
            let header := ggufMagic ++ leBytes 4 manifest.gguf.ggufVersion ++
              leBytes 8 kept.length ++ leBytes 8 (kvs.length + 2) ++
              (newKv ++ writeKvBool "intelnav.has_embed" range.includeEmbed ++
                writeKvBool "intelnav.has_head" range.includeHead) ++ index
            let dataOffset ← ofPanic (alignUp ar header.length alignment)
            pure
              { header := header ++ List.replicate (dataOffset - header.length) 0, alignment
                dataOffset, tensors := kept.zip offsets, nKv := kvs.length + 2 }
    else .error (.failed .scratch)

def stitchSubset (manifest : Manifest) (cacheDir : Location) (range : StitchRange)
    (outPath : Location) (files : Files) : Except (Stop StitchError) StitchOutcome × Files :=
  match assemble ar hash files manifest cacheDir range with
  | .error e => (.error e, files)
  | .ok a =>
      let tmp := withExtension outPath "gguf.tmp"
      let (out, written) := writeTensors ar a.alignment a.dataOffset a.header a.tensors
      let files := files.insert tmp out
      match written with
      | .error e => (.error e, files)
      | .ok () =>
          (.ok ⟨outPath, out.length, a.tensors.length, a.nKv⟩, renameFile files tmp outPath)

end Stitch

/-! Missing files. -/

def Held (hash : Hashing) (files : Files) (cacheDir : Location) (cid : String) : Prop :=
  ∃ bytes, files.lookup (chunksDirResolve files cacheDir cid) = some bytes ∧
    hash.cidStringFor bytes = cid

def Finds {α : Type} (r : Except (Stop StitchError) α) : Prop :=
  ∀ p, r ≠ .error (.failed (.missing p))

namespace Finds

variable {α β : Type} {r : Except (Stop StitchError) α} {f : α → Except (Stop StitchError) β}

theorem ok (a : α) : Finds (.ok a : Except (Stop StitchError) α) := fun _ => nofun

theorem panicked : Finds (.error .panicked : Except (Stop StitchError) α) := fun _ => nofun

theorem ofPanic (o : Option α) : Finds (ModelStore.ofPanic o : Except (Stop StitchError) α) := by
  cases o with
  | none => exact .panicked
  | some a => exact .ok a

theorem ofReader (r : Except (Stop GgufError) α) : Finds (ModelStore.ofReader r) := by
  intro p
  rcases r with (e | -) | a <;> exact nofun

theorem bind (hr : Finds r) (hf : ∀ a, Finds (f a)) : Finds (r >>= f) := by
  cases r with
  | ok a => exact hf a
  | error e =>
      intro p h
      exact hr p (congrArg Except.error (Except.error.inj h))

theorem mapM {g : β → Except (Stop StitchError) α} (hg : ∀ b, Finds (g b)) (bs : List β) :
    Finds (bs.mapM g) := by
  induction bs with
  | nil => exact .ok []
  | cons b bs ih =>
      rw [List.mapM_cons]
      exact (hg b).bind fun a => ih.bind fun as => .ok (a :: as)

end Finds

section Missing

variable {ar : Arith} {hash : Hashing} {files : Files} {cacheDir : Location} {range : StitchRange}

private theorem validateRange_finds (manifest : Manifest) :
    Finds (ofStitch (validateRange manifest range)) := by
  unfold validateRange
  intro p
  split_ifs <;> exact nofun

private theorem readCachedChunk_finds {cid : String} (h : Held hash files cacheDir cid) :
    Finds (ofStitch (readCachedChunk hash files cacheDir cid)) := by
  obtain ⟨bytes, hlookup, hcid⟩ := h
  unfold readCachedChunk
  simp only [hlookup, hcid, ne_eq, not_true_eq_false, if_false]
  exact .ok bytes

variable (range) in
private theorem includesBundle_finds (name : String) :
    Finds (ofStitch (includesBundle range name)) := by
  unfold includesBundle
  intro p
  split_ifs
  · exact nofun
  · exact nofun
  · split
    · split <;> exact nofun
    · exact nofun

private theorem openBundles_finds {bundles : List BundleEntry}
    (h : ∀ b ∈ bundles, includesBundle range b.name = .ok true → Held hash files cacheDir b.cid) :
    Finds (ofStitch (openBundles files cacheDir range bundles)) := by
  induction bundles with
  | nil => exact .ok []
  | cons b bundles ih =>
      have hrest := ih fun c hc => h c (List.mem_cons_of_mem _ hc)
      unfold openBundles
      cases hincludes : includesBundle range b.name with
      | error e =>
          have hname := includesBundle_finds range b.name
          rw [hincludes] at hname
          intro p h
          cases h
          exact hname p rfl
      | ok included =>
          cases included with
          | false => exact hrest
          | true =>
              obtain ⟨bytes, hlookup, -⟩ := h b List.mem_cons_self hincludes
              change Finds
                (ofStitch (match files.lookup (chunksDirResolve files cacheDir b.cid) with
                | none => _
                | some bytes => _))
              rw [hlookup]
              dsimp only
              split_ifs
              · exact fun p => nofun
              · cases hopen : openBundles files cacheDir range bundles with
                | error e => rw [hopen] at hrest; exact hrest
                | ok mmaps => exact .ok _

private theorem keepMember_finds (bundle : String) (mmap : Bytes) (m : BundleMember) :
    Finds (keepMember ar range bundle mmap m) := by
  refine (Finds.ofPanic _).bind fun stop => ?_
  split_ifs
  · exact fun p => nofun
  · exact .panicked
  · exact .ok _

private theorem keepTensors_finds (mmaps : List (String × Bytes)) (bundles : List BundleEntry) :
    Finds (keepTensors ar range mmaps bundles) := by
  induction bundles with
  | nil => exact .ok []
  | cons b bundles ih =>
      unfold keepTensors
      refine (includesBundle_finds range b.name).bind fun included => ?_
      cases included with
      | false => exact ih
      | true =>
          rw [if_pos rfl]
          split
          · exact .panicked
          · refine (Finds.mapM (keepMember_finds b.name _) _).bind fun kept => ?_
            exact ih.bind fun rest => .ok _

variable (ar) in
private theorem assemble_finds {manifest : Manifest}
    (hheader : Held hash files cacheDir manifest.headerChunk.cid)
    (hbundles : ∀ b ∈ manifest.bundles, includesBundle range b.name = .ok true →
      Held hash files cacheDir b.cid) :
    Finds (assemble ar hash files manifest cacheDir range) := by
  unfold assemble
  refine (validateRange_finds manifest).bind fun _ => ?_
  refine (readCachedChunk_finds hheader).bind fun headerBytes => ?_
  split
  · exact fun p => nofun
  · dsimp only
    split
    · refine (Finds.ofReader _).bind fun original => ?_
      split
      · exact fun p => nofun
      · refine (openBundles_finds hbundles).bind fun mmaps => ?_
        refine (keepTensors_finds mmaps _).bind fun kept => ?_
        split
        · exact fun p => nofun
        · refine (Finds.ofReader _).bind fun kvs => (Finds.ofPanic _).bind fun newKv => ?_
          refine (Finds.ofPanic _).bind fun index => (Finds.ofPanic _).bind fun dataOffset => ?_
          exact .ok _
    · exact fun p => nofun

variable (ar) in
private theorem writeTensors_finds (alignment dataOffset : Nat) (out : Bytes)
    (kept : List (KeptTensor × Nat)) :
    Finds (writeTensors ar alignment dataOffset out kept).2 := by
  induction kept generalizing out with
  | nil => exact .ok ()
  | cons t kept ih =>
      unfold writeTensors
      split
      · exact .panicked
      · split_ifs
        · exact fun p => nofun
        · dsimp only
          split
          · exact .panicked
          · exact ih _

variable (ar) in
theorem stitchSubset_finds {manifest : Manifest} (outPath : Location)
    (hheader : Held hash files cacheDir manifest.headerChunk.cid)
    (hbundles : ∀ b ∈ manifest.bundles, includesBundle range b.name = .ok true →
      Held hash files cacheDir b.cid) :
    Finds (stitchSubset ar hash manifest cacheDir range outPath files).1 := by
  have hassemble := assemble_finds ar hheader hbundles
  unfold stitchSubset
  split
  · rename_i e herror
    rw [herror] at hassemble
    intro p h
    exact hassemble p (congrArg Except.error (Except.error.inj h))
  · rename_i a _
    have hwrite := writeTensors_finds ar a.alignment a.dataOffset a.header a.tensors
    dsimp only
    split
    · rename_i e herror
      rw [herror] at hwrite
      intro p h
      exact hwrite p (congrArg Except.error (Except.error.inj h))
    · exact .ok _

end Missing

end IntelNav.ModelStore
