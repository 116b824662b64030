import IntelNav.App.PulledSlice
import IntelNav.App.SwarmNode
import IntelNav.ModelStore.Serve
import IntelNav.ModelStore.SplitFiles
import IntelNav.Transition.Run

/-! What a host announces and what it serves: contributions, the announce loop and the chunk server
over one disk. -/

set_option autoImplicit false
set_option relaxedAutoImplicit false

namespace IntelNav.App

open IntelNav.Disk IntelNav.ModelStore IntelNav.Net IntelNav.Reading

/-! A split (`crates/app/src/contribute.rs`). -/

structure CatalogEntry where
  modelCid : String
  displayName : String
  blockCount : UInt16
  defaultSplits : List (UInt16 × UInt16)

def defaultKeptRanges (entry : CatalogEntry) : List (UInt16 × UInt16) :=
  match entry.defaultSplits with
  | [] => [(0, entry.blockCount)]
  | r :: _ => [r]

abbrev PathBuf := Bytes

def PathBuf.toStr (path : PathBuf) : Option String := String.fromUTF8? ⟨path.toArray⟩

inductive SplitEvent
  | started (gguf : PathBuf) (output : Location)
  | done (manifestCid : String) (nBundles bytes : Nat) (keptRanges : List (UInt16 × UInt16))
      (shardRoot : Location)
  | error (e : ChunkError)

section Contribute

variable (ar ar32 : Arith) (hash : Hashing) (json : ManifestJson) (side : SidecarJson)

/-- The sidecar of a split: nothing, where the path is no text and so cannot be serialized. -/
def splitSidecar (entry : CatalogEntry) (path : PathBuf) : Bytes :=
  (path.toStr.map fun ggufPath => side.keptToBytes
    { modelCid := entry.modelCid, displayName := entry.displayName
      blockCount := entry.blockCount, ggufPath, kept := defaultKeptRanges entry }).getD []

/-- The split of a downloaded GGUF: its progress events and the files it leaves. -/
def startSplit (entry : CatalogEntry) (path : PathBuf) (gguf : Mmap) (modelsDir : Location)
    (files : Files) : List SplitEvent × Files :=
  let shardRoot := shardDir modelsDir entry.modelCid
  let opts : ChunkerOptions := { outputDir := shardRoot, overwrite := true, dryRun := false }
  match chunkGguf ar ar32 hash json gguf opts files with
  | .error (.failed e) => ([.started path shardRoot, .error e], files)
  | .error .panicked => ([.started path shardRoot], files)
  | .ok (outcome, files) =>
      ([.started path shardRoot,
          .done outcome.manifestCid outcome.nBundles outcome.bytesWritten (defaultKeptRanges entry)
            shardRoot],
        files.insert (join shardRoot "kept_ranges.json") (splitSidecar side entry path))

inductive Contribution
  | split (entry : CatalogEntry) (path : PathBuf) (gguf : Mmap)
  | pull (modelCid : String) (range : UInt16 × UInt16) (provider : ProviderRecord)
      (server : ChunkServer)

/-- The disk after a contribution; a chunker that fails leaves it as it was. -/
def contribute (modelsDir : Location) (files : Files) : Contribution → Option Files
  | .split entry path gguf =>
      some (startSplit ar ar32 hash json side entry path gguf modelsDir files).2
  | .pull modelCid range provider server =>
      some (startPull hash json side modelCid range provider modelsDir server files).2

end Contribute

/-! The announce loop (`crates/app/src/swarm_node.rs`). -/

section Announce

variable (hash : Hashing) (json : ManifestJson) (side : SidecarJson) (files : Files)

def shardsOnDisk (shardsRoot : Location) (names : List String) : Shards :=
  names.foldr (fun name disk =>
    let root := shardsRoot ++ [name]
    disk.insert name
      { kept := (files.lookup (join root "kept_ranges.json")).bind side.keptFromBytes
        disabled := (files.lookup (join root "disabled_ranges.json")).bind side.disabledFromBytes })
    ∅

/-- The manifest CID recorded by a pull, or else that of the manifest beside the chunks. -/
def manifestCidFor (shardRoot : Location) : Option String :=
  match (files.lookup (join shardRoot "pull_source.json")).bind side.sourceFromBytes with
  | some src => some src.manifestCid
  | none => do
      let bytes ← files.lookup (join shardRoot "manifest.json")
      let _ ← json.fromJsonBytes bytes
      pure (hash.cidStringFor bytes)

/-- What `announce_all` publishes, but for the ranges that the control state vetoes. The shard root
it looks into is a relative path. -/
def announceAll (cfg : NodeConfig) (mintedAt : UInt64) (cwd : Location) (veto : SliceKey → Bool)
    (kept : List KeptRanges) : List (SliceKey × ProviderRecord) :=
  kept.flatMap fun k =>
    let manifestCid :=
      if k.kept = [] then none else manifestCidFor hash json side files (shardDir cwd k.modelCid)
    (k.kept.filter fun r => !veto (k.modelCid, r)).map fun r =>
      ((k.modelCid, r), cfg.record mintedAt manifestCid)

/-- The records for the shards of a models directory, in the order of a scan. -/
def announced (cfg : NodeConfig) (mintedAt : UInt64) (cwd modelsDir : Location)
    (veto : SliceKey → Bool) (ls : Listing files (join modelsDir ".shards")) :
    List (SliceKey × ProviderRecord) :=
  announceAll hash json side files cfg mintedAt cwd veto
    (scanKeptRanges (shardsOnDisk side files (join modelsDir ".shards") ls.names) ls.names)

end Announce

variable {hash : Hashing} {json : ManifestJson} {side : SidecarJson} {files : Files}

/-- The chunks that a manifest lists for a range: the header and the bundles of its names. -/
def ListedFor (manifest : Manifest) (range : UInt16 × UInt16) (c : Chunk) : Prop :=
  c = manifest.headerChunk ∨ ∃ names, FetchPlan.forRange manifest range.1.toNat range.2.toNat =
    .bundles names ∧ ∃ b ∈ manifest.bundles, b.name ∈ names ∧ c = b.chunk

/-- A record has a manifest CID, and the chunk server of the host resolves it to a directory with
that manifest and, under `chunks/`, all chunks of the range, and sends them. -/
def RecordServed (hash : Hashing) (json : ManifestJson) (side : SidecarJson) (files : Files)
    (shardsRoot : Location) (ls : Listing files shardsRoot) (range : UInt16 × UInt16)
    (record : ProviderRecord) : Prop :=
  ∃ c dir bytes manifest, record.manifestCid = some c ∧
    resolveShard hash side.manifestCidField files shardsRoot ls c = some dir ∧
    files.lookup (join dir "manifest.json") = some bytes ∧ hash.cidStringFor bytes = c ∧
    json.fromJsonBytes bytes = some manifest ∧
    serveMultiManifest hash side.manifestCidField files shardsRoot ls c = .ok bytes ∧
    ∀ chunk, ListedFor manifest range chunk → ∃ content,
      files.lookup (join (join dir "chunks") (chunk.cid ++ ".bin")) = some content ∧
      serveMultiChunk hash side.manifestCidField files shardsRoot ls c (chunk.cid ++ ".bin") =
        .ok content

end IntelNav.App
