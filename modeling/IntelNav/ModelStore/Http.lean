import IntelNav.ModelStore.Chunker

/-! Chunks over HTTP (`crates/model-store/src/http.rs`): a manifest, and the chunks of a layer
range, into a directory. -/

set_option autoImplicit false
set_option relaxedAutoImplicit false

namespace IntelNav.ModelStore

open IntelNav.Disk

structure FetchOptions where
  cacheRoot : Location
  resume : Bool
  maxManifestBytes : Nat

def FetchOptions.default (cacheRoot : Location) : FetchOptions where
  cacheRoot
  resume := true
  maxManifestBytes := 64 * 1024 * 1024

inductive FetchPlan
  | full
  | bundles (names : List String)

/-- The bundles of the layers `[start, stop)`. -/
def FetchPlan.forRange (manifest : Manifest) (start stop : Nat) : FetchPlan :=
  .bundles ((if start = 0 then ["embed"] else []) ++
    (List.range' start (stop - start)).map (fun n => "blk." ++ toString n) ++
    if stop = manifest.nLayers then ["head"] else [])

/-- Where the manifest and its cache directory ended up on disk. -/
structure FetchedManifest where
  dir : Location
  manifest : Manifest
  manifestCid : String
  manifestUrl : String

structure FetchOutcome where
  dir : Location
  manifest : Manifest
  manifestCid : String
  bytesDownloaded : Nat
  bytesReused : Nat

inductive HttpError
  | getManifest
  | contentLength (len cap : Nat)
  | streamingManifest
  | manifestBody (cap : Nat)
  | parsingManifest
  | noBundle (name : String)
  | getChunk (cid : String)
  | streaming (cid : String)
  | sizeMismatch (cid : String) (manifest got : Nat)
  | hashMismatch (cid manifest actual : String)
  deriving DecidableEq

/-- A response: whether its status is 206, and the body as it streams in, where `none` is an error
of the transport. -/
structure Reply where
  partialContent : Bool
  contentLength : Option Nat
  body : List (Option Bytes)

/-- What a server does: its reply to each request, a chunk's by the position to resume from. No
reply is a request that fails or gets an HTTP error. -/
structure ChunkServer where
  manifest : Option Reply
  chunk : String → Nat → Option Reply

/-! The manifest. -/

def readCapped (cap : Nat) (buf : Bytes) : List (Option Bytes) → Except HttpError Bytes
  | [] => .ok buf
  | none :: _ => .error .streamingManifest
  | some b :: body =>
      if cap < buf.length + b.length then .error (.manifestBody cap)
      else readCapped cap (buf ++ b) body

def fetchManifestBytes (reply : Option Reply) (cap : Nat) : Except HttpError Bytes :=
  match reply with
  | none => .error .getManifest
  | some r =>
      match r.contentLength with
      | some len => if cap < len then .error (.contentLength len cap) else readCapped cap [] r.body
      | none => readCapped cap [] r.body

section Fetch

variable (hash : Hashing)

/-- Fetch just the manifest and store it in a directory named by its CID. -/
def fetchManifestOnly (json : ManifestJson) (manifestUrl : String) (opts : FetchOptions)
    (server : ChunkServer) (files : Files) : Except HttpError (FetchedManifest × Files) := do
  let bytes ← fetchManifestBytes server.manifest opts.maxManifestBytes
  match json.fromJsonBytes bytes with
  | none => .error .parsingManifest
  | some manifest =>
      let manifestCid := hash.cidStringFor bytes
      let dir := join opts.cacheRoot manifestCid
      .ok (⟨dir, manifest, manifestCid, manifestUrl⟩, files.insert (join dir "manifest.json") bytes)

/-! One chunk. -/

structure FetchOne where
  size : Nat
  alreadyCached : Bool
  deriving DecidableEq

/-- A download: the temporary file, what went into the hasher, and the count of bytes. -/
structure Download where
  file : Bytes
  hashed : Bytes
  total : Nat

def Download.stream (d : Download) : List (Option Bytes) → Download × Bool
  | [] => (d, true)
  | none :: _ => (d, false)
  | some b :: body => Download.stream ⟨d.file ++ b, d.hashed ++ b, d.total + b.length⟩ body

/-- Where to resume from, and the files without a temporary one that is too large. -/
def resumePoint (files : Files) (tmp : Location) (chunk : Chunk) (resume : Bool) : Nat × Files :=
  match files.lookup tmp with
  | some existing =>
      if resume then
        if existing.length < chunk.size then (existing.length, files) else (0, files.erase tmp)
      else (0, files)
  | none => (0, files)

/-- A reply of 206 is appended to the temporary file, any other one replaces it; the count goes on
from the resume point in both cases. -/
def startDownload (files : Files) (tmp : Location) (resumeFrom : Nat) (reply : Reply) : Download :=
  if reply.partialContent ∧ 0 < resumeFrom then
    let existing := (files.lookup tmp).getD []
    ⟨existing, existing, resumeFrom⟩
  else ⟨[], [], resumeFrom⟩

/-- The temporary file becomes the chunk if the body came to its end and size and hash are right. -/
def finishDownload (chunk : Chunk) (final tmp : Location) (d : Download) (complete : Bool)
    (files : Files) : Except HttpError FetchOne × Files :=
  let files := files.insert tmp d.file
  if ¬ complete then (.error (.streaming chunk.cid), files)
  else if d.total ≠ chunk.size then
    (.error (.sizeMismatch chunk.cid chunk.size d.total), files.erase tmp)
  else
    let actual := hash.cidStringFor d.hashed
    if actual ≠ chunk.cid then
      (.error (.hashMismatch chunk.cid chunk.cid actual), files.erase tmp)
    else (.ok ⟨chunk.size, false⟩, renameFile files tmp final)

/-- The part of `fetch_one` for a chunk that is not in the cache. -/
def downloadChunk (chunksDir : Location) (chunk : Chunk) (resume : Bool)
    (server : ChunkServer) (files : Files) : Except HttpError FetchOne × Files :=
  let final := join chunksDir (chunk.cid ++ ".bin")
  let tmp := join chunksDir (chunk.cid ++ ".bin.tmp")
  let (resumeFrom, files) := resumePoint files tmp chunk resume
  match server.chunk chunk.cid resumeFrom with
  | none => (.error (.getChunk chunk.cid), files)
  | some reply =>
      let (d, complete) := (startDownload files tmp resumeFrom reply).stream reply.body
      finishDownload hash chunk final tmp d complete files

/-- `fetch_one`: a cached chunk is checked by size and hash, and fetched anew when it is corrupt. -/
def fetchOne (chunksDir : Location) (chunk : Chunk) (resume : Bool) (server : ChunkServer)
    (files : Files) : Except HttpError FetchOne × Files :=
  let final := join chunksDir (chunk.cid ++ ".bin")
  match files.lookup final with
  | some bytes =>
      if bytes.length = chunk.size ∧ hash.cidStringFor bytes = chunk.cid then
        (.ok ⟨chunk.size, true⟩, files)
      else downloadChunk hash chunksDir chunk resume server (files.erase final)
  | none => downloadChunk hash chunksDir chunk resume server files

/-! The chunks of a plan. -/

def findBundle (manifest : Manifest) (name : String) : Except HttpError Chunk :=
  match manifest.bundles.find? (·.name = name) with
  | some b => .ok b.chunk
  | none => .error (.noBundle name)

def wantedChunks (manifest : Manifest) : FetchPlan → Except HttpError (List Chunk)
  | .full => .ok (manifest.headerChunk :: manifest.bundles.map BundleEntry.chunk)
  | .bundles names => do
      let chunks ← names.mapM (findBundle manifest)
      .ok (manifest.headerChunk :: chunks)

/-- `dedup_in_place`: the first chunk of each CID. -/
def dedupInPlace (seen : List String) : List Chunk → List Chunk
  | [] => []
  | c :: chunks =>
      if c.cid ∈ seen then dedupInPlace seen chunks
      else c :: dedupInPlace (c.cid :: seen) chunks

/-- Every chunk is fetched, also after one that failed. The downloads overlap in time but each is at
work on the files of a CID of its own, so here they come one after the other. -/
def fetchEach (chunksDir : Location) (resume : Bool) (server : ChunkServer) :
    List Chunk → Files → List (Except HttpError FetchOne) × Files
  | [], files => ([], files)
  | c :: chunks, files =>
      let (r, files) := fetchOne hash chunksDir c resume server files
      let (rs, files) := fetchEach chunksDir resume server chunks files
      (r :: rs, files)

/-- The bytes downloaded and reused so far, in `u64` arithmetic. -/
def tally (d : Nat × Nat) (f : FetchOne) : Nat × Nat :=
  if f.alreadyCached then (d.1, (d.2 + f.size) % 2 ^ 64) else ((d.1 + f.size) % 2 ^ 64, d.2)

/-- Fetch the chunks of the plan; the first failure is reported when all have come to their end. -/
def fetchChunks (fetched : FetchedManifest) (plan : FetchPlan) (opts : FetchOptions)
    (server : ChunkServer) (files : Files) : Except HttpError FetchOutcome × Files :=
  match wantedChunks fetched.manifest plan with
  | .error e => (.error e, files)
  | .ok wanted =>
      let (results, files) := fetchEach hash (join fetched.dir "chunks") opts.resume server
        (dedupInPlace [] wanted) files
      match results.mapM id with
      | .error e => (.error e, files)
      | .ok fetches =>
          let bytes := fetches.foldl tally (0, 0)
          (.ok ⟨fetched.dir, fetched.manifest, fetched.manifestCid, bytes.1, bytes.2⟩, files)

end Fetch

end IntelNav.ModelStore
