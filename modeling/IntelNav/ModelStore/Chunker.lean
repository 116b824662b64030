import Mathlib.Data.Prod.Lex
import IntelNav.Disk.Paths
import IntelNav.Layout.Groups
import IntelNav.ModelStore.Bundle

/-! The chunker: a GGUF file into bundle files and a manifest, and the check of its output. -/

set_option autoImplicit false
set_option relaxedAutoImplicit false

namespace IntelNav.ModelStore

open IntelNav.Disk IntelNav.Reading IntelNav.Layout

abbrev Location := List String

abbrev Files := AList fun _ : Location => Bytes

def renameFile (files : Files) (src dst : Location) : Files :=
  match files.lookup src with
  | some bytes => (files.erase src).insert dst bytes
  | none => files

theorem lookup_renameFile (files : Files) (src dst : Location) (bytes : Bytes) :
    (renameFile (files.insert src bytes) src dst).lookup dst = some bytes ∧
      ∀ p, p ≠ src → p ≠ dst →
        (renameFile (files.insert src bytes) src dst).lookup p = files.lookup p := by
  rw [renameFile, AList.lookup_insert]
  refine ⟨AList.lookup_insert _, fun p hsrc hdst => ?_⟩
  rw [AList.lookup_insert_ne hdst, AList.lookup_erase_ne hsrc, AList.lookup_insert_ne hsrc]

theorem agreeOff_renameFile {touched : Location → Prop} {src dst : Location} (hsrc : touched src)
    (hdst : touched dst) (files : Files) : AgreeOff touched files (renameFile files src dst) := by
  unfold renameFile
  cases files.lookup src with
  | none => exact .refl _ _
  | some bytes => exact (agreeOff_erase hsrc files).trans (agreeOff_insert hdst _ bytes)

structure ChunkerOptions where
  outputDir : Location
  overwrite : Bool
  dryRun : Bool

structure ChunkOutcome where
  manifest : Manifest
  manifestCid : String
  manifestBytes : Bytes
  nBundles : Nat
  nTensors : Nat
  bytesWritten : Nat
  deriving DecidableEq

inductive ChunkError
  | gguf (e : GgufError)
  | notEmpty (dir : Location)
  deriving DecidableEq

def ofGguf {α : Type} : Except (Stop GgufError) α → Except (Stop ChunkError) α
  | .ok a => .ok a
  | .error (.failed e) => .error (.failed (.gguf e))
  | .error .panicked => .error .panicked

def ofPanic {ε α : Type} : Option α → Except (Stop ε) α
  | some a => .ok a
  | none => .error .panicked

/-! Diagnostics from the KV metadata. -/

structure Diagnostics where
  name : Option String
  architecture : Option String
  blockCount : Option Nat
  deriving DecidableEq

/-- `read_gguf_string`; `none` inside is a text that is cut off or no UTF-8. -/
def readGgufString (ar : Arith) (bytes : Bytes) : Option (Option String) :=
  if bytes.length < 8 then some none
  else
    let n := ofLeBytes (bytes.take 8)
    match ar.add 8 n with
    | none => none
    | some stop =>
        if bytes.length < stop then some none
        else if stop < 8 then none
        else some (String.fromUTF8? ⟨((bytes.drop 8).take (stop - 8)).toArray⟩)

def Diagnostics.read (ar : Arith) (d : Diagnostics) (kv : KvEntry) : Option Diagnostics :=
  if kv.ty = .string ∧ kv.key = "general.name" then do
    let name ← readGgufString ar kv.value
    pure { d with name }
  else if kv.ty = .string ∧ kv.key = "general.architecture" then do
    let architecture ← readGgufString ar kv.value
    pure { d with architecture }
  else if kv.ty = .u32 ∧ ".block_count".toList <:+ kv.key.toList ∧ 4 ≤ kv.value.length then
    some { d with blockCount := some (ofLeBytes (kv.value.take 4)) }
  else some d

/-! Bundles. -/

/-- The sort key by which the embeddings come first, then the blocks, then the head. -/
abbrev BundleKey := Nat ×ₗ Nat

def BundleKind.key : BundleKind → BundleKey
  | .embed => toLex (0, 0)
  | .block n => toLex (1, n.toNat)
  | .head => toLex (2, 0)

def BundleKey.toKind (k : BundleKey) : BundleKind :=
  match (ofLex k).1 with
  | 0 => .embed
  | 1 => .block (UInt32.ofNat (ofLex k).2)
  | _ => .head

theorem BundleKind.toKind_key (kind : BundleKind) : kind.key.toKind = kind := by
  cases kind with
  | embed => rfl
  | block n => exact congrArg BundleKind.block (UInt32.ofNat_toNat (x := n))
  | head => rfl

/-- The highest block of the tensors, or `-1`. -/
def maxBlock (tensors : List TensorIndexEntry) : Int :=
  tensors.foldl (fun m t =>
    match classifyTensor t.name with
    | .block n => if (n.toNat : Int) > m then n.toNat else m
    | _ => m) (-1)

/-- A bundle while its members stream in: the bytes so far, which are hashed and stored. -/
structure Draft where
  bytes : Bytes
  size : Nat
  members : List BundleMember

section Chunk

variable (ar ar32 : Arith) (hash : Hashing)

def Draft.add (g : Gguf) (d : Draft) (t : TensorIndexEntry) : Option Draft := do
  let bytes ← g.tensorBytes ar t
  let size ← ar.add d.size bytes.length
  let member : BundleMember :=
    { name := t.name, shape := t.shape, dtype := ggmlTypeName t.dtype, dtypeCode := t.dtype
      dataOffsetRel := t.dataOffsetRel, cid := hash.cidStringFor bytes, size := bytes.length
      offsetInBundle := d.size }
  pure { bytes := d.bytes ++ bytes, size, members := d.members ++ [member] }

structure Emitted where
  files : Files
  writtenCids : List String
  bytesWritten : Nat
  bundles : List BundleEntry

def chunkLocation (dir : Location) (cid : String) : Location :=
  dir ++ ["chunks", cid ++ ".bin"]

/-- The temporary file of a bundle gets its name by its CID, unless there is such a chunk. -/
def Emitted.store (opts : ChunkerOptions) (kind : BundleKind) (d : Draft) (e : Emitted) :
    Option Emitted :=
  let cid := hash.cidStringFor d.bytes
  let tmp := opts.outputDir ++ ["chunks", ".bundle-" ++ kind.name ++ ".tmp"]
  let files := e.files.insert tmp d.bytes
  if cid ∈ e.writtenCids then some { e with files := files.erase tmp }
  else do
    let bytesWritten ← ar.add e.bytesWritten d.size
    pure { e with files := renameFile files tmp (chunkLocation opts.outputDir cid)
                  writtenCids := cid :: e.writtenCids
                  bytesWritten }

/-- One bundle: its members, its file and its entry in the manifest. -/
def emitBundle (g : Gguf) (opts : ChunkerOptions) (e : Emitted)
    (group : BundleKey × List TensorIndexEntry) : Option Emitted := do
  let kind := group.1.toKind
  let d ← group.2.foldlM (Draft.add ar hash g) ⟨[], 0, []⟩
  let e ← if opts.dryRun then some e else e.store ar hash opts kind d
  let layerRange ← kind.layerRange ar32
  let entry : BundleEntry :=
    { name := kind.name, layerRange, cid := hash.cidStringFor d.bytes, size := d.size
      members := d.members }
  pure { e with bundles := e.bundles ++ [entry] }

/-- `prepare_output_dir`: a directory that is not empty is used only to overwrite it. -/
def prepareOutputDir (files : Files) (opts : ChunkerOptions) : Except (Stop ChunkError) Unit :=
  if ¬ opts.overwrite ∧ ∃ p ∈ files.keys, opts.outputDir <+: p then
    .error (.failed (.notEmpty opts.outputDir))
  else .ok ()

def writeChunk (files : Files) (dir : Location) (cid : String) (bytes : Bytes) : Files :=
  let tmp := dir ++ ["chunks", cid ++ ".bin.tmp"]
  renameFile (files.insert tmp bytes) tmp (chunkLocation dir cid)

def emitChunks (g : Gguf) (opts : ChunkerOptions) (header : Bytes)
    (groups : List (BundleKey × List TensorIndexEntry)) (files : Files) : Option Emitted := do
  let start ← if opts.dryRun then some ⟨files, [], 0, []⟩ else do
    let cid := hash.cidStringFor header
    let bytesWritten ← ar.add 0 header.length
    pure ⟨writeChunk files opts.outputDir cid header, [cid], bytesWritten, []⟩
  groups.foldlM (emitBundle ar ar32 hash g opts) start

def chunkParsed (json : ManifestJson) (g : Gguf) (d : Diagnostics)
    (tensors : List TensorIndexEntry) (header : Bytes) (opts : ChunkerOptions) (files : Files) :
    Except (Stop ChunkError) (ChunkOutcome × Files) := do
  let groups := groups (fun t => (classifyTensor t.name).key) tensors
  let nLayers := d.blockCount.getD ((maxBlock tensors + 1).toNat % 2 ^ 32)
  if ¬ opts.dryRun then prepareOutputDir files opts
  let e ← ofPanic (emitChunks ar ar32 hash g opts header groups files)
  let manifest : Manifest :=
    { format := "intelnav-model", version := manifestVersion, name := d.name
      architecture := d.architecture, nLayers
      gguf := { ggufVersion := g.version, alignment := g.alignment
                tensorDataOffset := g.tensorDataOffset, nKv := g.nKv, nTensors := g.nTensors }
      headerChunk := { cid := hash.cidStringFor header, size := header.length }
      bundles := e.bundles }
  let manifestBytes := json.toJsonBytes manifest
  let bytesWritten ← if opts.dryRun then .ok e.bytesWritten
    else ofPanic (ar.add e.bytesWritten manifestBytes.length)
  let files := if opts.dryRun then e.files
    else e.files.insert (opts.outputDir ++ ["manifest.json"]) manifestBytes
  pure
    ({ manifest, manifestCid := hash.cidStringFor manifestBytes, manifestBytes
       nBundles := e.bundles.length, nTensors := (e.bundles.map fun b => b.members.length).sum
       bytesWritten }, files)

/-- Parse the GGUF, route its tensors into bundles and write them with a manifest. -/
def chunkGguf (json : ManifestJson) (m : Mmap) (opts : ChunkerOptions) (files : Files) :
    Except (Stop ChunkError) (ChunkOutcome × Files) := do
  let g ← ofGguf (Gguf.open ar m)
  let kvs ← ofGguf (g.kvEntries ar)
  let d ← ofPanic (kvs.foldlM (Diagnostics.read ar) ⟨none, none, none⟩)
  let tensors ← ofGguf (g.tensors ar)
  let header ← ofPanic (m.slice 0 g.tensorDataOffset)
  chunkParsed ar ar32 hash json g d tensors header opts files

end Chunk

/-! File names. -/

theorem tmp_ne_bin (a b : String) : a ++ ".tmp" ≠ b ++ ".bin" := by
  intro h
  have hlast := congrArg (fun s => s.toList.getLast?) h
  simp [String.toList_append] at hlast

theorem bundleTmp_ne (dir : Location) (kind : BundleKind) (cid : String) :
    dir ++ ["chunks", ".bundle-" ++ kind.name ++ ".tmp"] ≠ chunkLocation dir cid := by
  intro h
  have hnames := List.append_cancel_left h
  simp only [List.cons.injEq, and_true, true_and] at hnames
  exact tmp_ne_bin _ _ hnames

theorem manifest_ne_chunk (dir : Location) (cid : String) :
    dir ++ ["manifest.json"] ≠ chunkLocation dir cid := by
  intro h
  have hnames := List.append_cancel_left h
  simp at hnames

theorem chunkLocation_inj {dir : Location} {a b : String}
    (h : chunkLocation dir a = chunkLocation dir b) : a = b := by
  have hnames := List.append_cancel_left h
  simp only [List.cons.injEq, and_true, true_and] at hnames
  exact (String.append_left_inj _).mp hnames

/-! The check of a chunk directory. -/

inductive VerifyError
  | reading (p : Location)
  | parsing (p : Location)
  | headerSize (manifest disk : Nat)
  | headerHash (manifest actual : String)
  | bundleSize (bundle : String) (manifest disk : Nat)
  | bundleHash (bundle manifest actual : String)
  | overruns (member bundle : String) (start stop disk : Nat)
  | memberHash (member bundle manifest actual : String)
  deriving DecidableEq

section Verify

variable (ar : Arith) (hash : Hashing)

def readChunk (files : Files) (dir : Location) (cid : String) :
    Except (Stop VerifyError) Bytes :=
  match files.lookup (chunkLocation dir cid) with
  | some bytes => .ok bytes
  | none => .error (.failed (.reading (chunkLocation dir cid)))

def verifyMember (bundle : String) (bytes : Bytes) (m : BundleMember) :
    Except (Stop VerifyError) Unit := do
  let start := m.offsetInBundle
  let stop ← ofPanic (ar.add start m.size)
  if bytes.length < stop then .error (.failed (.overruns m.name bundle start stop bytes.length))
  else if stop < start then .error .panicked
  else
    let actual := hash.cidStringFor ((bytes.drop start).take (stop - start))
    if actual ≠ m.cid then .error (.failed (.memberHash m.name bundle m.cid actual))
    else .ok ()

def verifyBundle (files : Files) (dir : Location) (b : BundleEntry) :
    Except (Stop VerifyError) Unit := do
  let bytes ← readChunk files dir b.cid
  if bytes.length ≠ b.size then .error (.failed (.bundleSize b.name b.size bytes.length))
  else
    let actual := hash.cidStringFor bytes
    if actual ≠ b.cid then .error (.failed (.bundleHash b.name b.cid actual))
    else b.members.forM (verifyMember ar hash b.name bytes)

/-- Re-hash every chunk on disk and each member's slice of its bundle. -/
def verifyChunks (json : ManifestJson) (files : Files) (dir : Location) :
    Except (Stop VerifyError) Unit :=
  match files.lookup (dir ++ ["manifest.json"]) with
  | none => .error (.failed (.reading (dir ++ ["manifest.json"])))
  | some bytes =>
      match json.fromJsonBytes bytes with
      | none => .error (.failed (.parsing (dir ++ ["manifest.json"])))
      | some manifest => do
          let header ← readChunk files dir manifest.headerChunk.cid
          if header.length ≠ manifest.headerChunk.size then
            .error (.failed (.headerSize manifest.headerChunk.size header.length))
          else
            let actual := hash.cidStringFor header
            if actual ≠ manifest.headerChunk.cid then
              .error (.failed (.headerHash manifest.headerChunk.cid actual))
            else manifest.bundles.forM (verifyBundle ar hash files dir)

end Verify

end IntelNav.ModelStore
