import IntelNav.ModelStore.HttpSpec

/-! The multi-shard chunk server (`crates/model-store/src/serve.rs`). -/

set_option autoImplicit false
set_option relaxedAutoImplicit false

namespace IntelNav.ModelStore

open IntelNav.Disk

/-- The entries of a directory, in the order in which `read_dir` happens to give them. -/
structure Listing (files : Files) (dir : Location) where
  names : List String
  mem_iff : ∀ name, name ∈ names ↔ ∃ p, (files.lookup (dir ++ name :: p)).isSome

def Listing.of (files : Files) (dir : Location) : Listing files dir where
  names := files.keys.filterMap fun p => if dir <+: p then (p.drop dir.length).head? else none
  mem_iff name := by
    rw [List.mem_filterMap]
    constructor
    · rintro ⟨q, hq, hname⟩
      split_ifs at hname with hdir
      obtain ⟨rest, rfl⟩ := hdir
      rw [List.drop_left, List.head?_eq_some_iff] at hname
      obtain ⟨p, rfl⟩ := hname
      exact ⟨p, AList.lookup_isSome.mpr hq⟩
    · rintro ⟨p, hp⟩
      refine ⟨dir ++ name :: p, AList.lookup_isSome.mp hp, ?_⟩
      rw [if_pos (List.prefix_append _ _), List.drop_left]
      rfl

inductive IoError
  | notFound
  | notADirectory
  | isADirectory
  deriving DecidableEq

def IoError.toString : IoError → String
  | .notFound => "No such file or directory (os error 2)"
  | .notADirectory => "Not a directory (os error 20)"
  | .isADirectory => "Is a directory (os error 21)"

/-- `fs::read`. -/
def readFile (files : Files) (path : Location) : Except IoError Bytes :=
  match files.lookup path with
  | some bytes => .ok bytes
  | none =>
      if files.keys.any fun other => path.isPrefixOf other then .error .isADirectory
      else if path.dropLast.inits.any fun above => (files.lookup above).isSome then
        .error .notADirectory
      else .error .notFound

theorem readFile_ok {files : Files} {path : Location} {bytes : Bytes} :
    readFile files path = .ok bytes ↔ files.lookup path = some bytes := by
  unfold readFile
  cases files.lookup path with
  | some found => simp
  | none =>
      dsimp only
      split_ifs <;> simp

inductive ServeReply
  | ok (body : Bytes)
  | badRequest (text : String)
  | notFound (text : String)
  deriving DecidableEq

/-- `<cid>.bin` with a CID of at least 32 letters of base32. -/
def isValidChunkFilename (s : String) : Bool :=
  if ".bin".toList <:+ s.toList then
    let stem := s.toList.take (s.toList.length - 4)
    decide (32 ≤ stem.length) && stem.all isBase32
  else false

section Serve

variable (hash : Hashing) (manifestCidField : Bytes → Option String) (files : Files)

/-- A shard is known by the field of its `pull_source.json`, or else by its manifest. -/
def shardMatches (dir : Location) (manifestCid : String) : Bool :=
  ((files.lookup (join dir "pull_source.json")).bind manifestCidField = some manifestCid) ||
    ((files.lookup (join dir "manifest.json")).map hash.cidStringFor = some manifestCid)

def resolveShard (shardsRoot : Location) (ls : Listing files shardsRoot) (manifestCid : String) :
    Option Location :=
  (ls.names.map fun name => shardsRoot ++ [name]).find? fun dir =>
    shardMatches hash manifestCidField files dir manifestCid

def serveMultiManifest (shardsRoot : Location) (ls : Listing files shardsRoot)
    (manifestCid : String) : ServeReply :=
  match resolveShard hash manifestCidField files shardsRoot ls manifestCid with
  | none => .notFound "unknown manifest"
  | some root =>
      match readFile files (join root "manifest.json") with
      | .ok bytes => .ok bytes
      | .error e => .notFound s!"read manifest: {e.toString}"

def serveMultiChunk (shardsRoot : Location) (ls : Listing files shardsRoot)
    (manifestCid chunk : String) : ServeReply :=
  if isValidChunkFilename chunk then
    match resolveShard hash manifestCidField files shardsRoot ls manifestCid with
    | none => .notFound "unknown manifest"
    | some root =>
        match files.lookup (join (join root "chunks") chunk) with
        | some bytes => .ok bytes
        | none => .notFound "no such chunk"
  else .badRequest "bad chunk id"

end Serve

theorem isValidChunkFilename_cid {hash : Hashing} (hbase : hash.Base32) (bytes : Bytes) :
    isValidChunkFilename (hash.cidStringFor bytes ++ ".bin") = true := by
  obtain ⟨hlen, hletters⟩ := hbase bytes
  have hsuffix : ".bin".toList <:+ (hash.cidStringFor bytes ++ ".bin").toList := by
    rw [String.toList_append]
    exact List.suffix_append _ _
  have hstem : (hash.cidStringFor bytes ++ ".bin").toList.take
      ((hash.cidStringFor bytes ++ ".bin").toList.length - 4) =
      (hash.cidStringFor bytes).toList := by
    have hfour : ".bin".toList.length = 4 := by decide
    rw [String.toList_append, List.length_append, hfour, Nat.add_sub_cancel, List.take_left]
  unfold isValidChunkFilename
  rw [if_pos hsuffix]
  dsimp only
  rw [hstem, hletters, Bool.and_true]
  exact decide_eq_true hlen

/-! One directory. -/

/-- `serve_manifest` of the server for one directory. -/
def serveManifest (files : Files) (root : Location) : ServeReply :=
  match readFile files (join root "manifest.json") with
  | .ok bytes => .ok bytes
  | .error e => .notFound s!"read manifest: {e.toString}"

/-- `serve_chunk` of the server for one directory. -/
def serveChunk (files : Files) (root : Location) (cidBin : String) : ServeReply :=
  if isValidChunkFilename cidBin then
    match files.lookup (join (join root "chunks") cidBin) with
    | some bytes => .ok bytes
    | none => .notFound "no such chunk"
  else .badRequest "bad chunk id"

section Multi

variable {hash : Hashing} {manifestCidField : Bytes → Option String} {files : Files}
  {shardsRoot : Location} {ls : Listing files shardsRoot} {manifestCid : String}

private theorem serveMultiManifest_eq :
    serveMultiManifest hash manifestCidField files shardsRoot ls manifestCid =
      ((resolveShard hash manifestCidField files shardsRoot ls manifestCid).map
        (serveManifest files)).getD (.notFound "unknown manifest") := by
  unfold serveMultiManifest
  cases resolveShard hash manifestCidField files shardsRoot ls manifestCid <;> rfl

private theorem serveMultiChunk_eq (chunk : String) :
    serveMultiChunk hash manifestCidField files shardsRoot ls manifestCid chunk =
      if isValidChunkFilename chunk then
        ((resolveShard hash manifestCidField files shardsRoot ls manifestCid).map
          fun root => serveChunk files root chunk).getD (.notFound "unknown manifest")
      else .badRequest "bad chunk id" := by
  unfold serveMultiChunk
  by_cases hvalid : isValidChunkFilename chunk = true
  · rw [if_pos hvalid, if_pos hvalid]
    cases resolveShard hash manifestCidField files shardsRoot ls manifestCid with
    | none => rfl
    | some root => exact (if_pos hvalid).symm
  · rw [if_neg hvalid, if_neg hvalid]

end Multi

/-! What a request can reach. -/

private theorem isValidChunkFilename_iff {s : String} : isValidChunkFilename s = true ↔
    ∃ cid : String, s = cid ++ ".bin" ∧ 32 ≤ cid.toList.length ∧
      cid.toList.all isBase32 = true := by
  have hfour : ".bin".toList.length = 4 := by decide
  have hstem : ∀ stem : List Char, (stem ++ ".bin".toList).take
      ((stem ++ ".bin".toList).length - 4) = stem := by
    intro stem
    rw [List.length_append, hfour, Nat.add_sub_cancel, List.take_left]
  unfold isValidChunkFilename
  constructor
  · intro h
    split_ifs at h with hsuffix
    obtain ⟨stem, hs⟩ := hsuffix
    rw [← hs, hstem, Bool.and_eq_true, decide_eq_true_eq] at h
    refine ⟨String.ofList stem, ?_, ?_⟩
    · rw [← String.toList_inj, String.toList_append, String.toList_ofList, hs]
    · rwa [String.toList_ofList]
  · rintro ⟨cid, rfl, hlen, hletters⟩
    rw [if_pos (by rw [String.toList_append]; exact List.suffix_append _ _), String.toList_append]
    dsimp only
    rw [hstem, hletters, Bool.and_true]
    exact decide_eq_true hlen

private theorem noSlash_of_base32 {cid : String} (h : cid.toList.all isBase32 = true) :
    '/' ∉ cid.toList := by
  intro hslash
  have hletter := List.all_eq_true.mp h '/' hslash
  revert hletter
  decide

inductive Servable (root : Location) : Location → Prop
  | pullSource : Servable root (root ++ ["pull_source.json"])
  | manifest : Servable root (root ++ ["manifest.json"])
  | chunk {cid : String} (h : cid.toList.all isBase32 = true) :
      Servable root (chunkLocation root cid)

section Reach

variable {files files' : Files}

def ReadAlike (files files' : Files) (root : Location) : Prop :=
  ∀ path, Servable root path → readFile files path = readFile files' path

theorem ReadAlike.lookup {root path : Location} (h : ReadAlike files files' root)
    (hpath : Servable root path) : files.lookup path = files'.lookup path := by
  ext bytes
  rw [← readFile_ok, ← readFile_ok, h path hpath]

private theorem serve_congr {root : Location} (h : ReadAlike files files' root) :
    serveManifest files root = serveManifest files' root ∧
      ∀ cidBin, serveChunk files root cidBin = serveChunk files' root cidBin := by
  refine ⟨?_, fun cidBin => ?_⟩
  · unfold serveManifest
    rw [join_plain plain_manifest, h _ .manifest]
  · unfold serveChunk
    by_cases hvalid : isValidChunkFilename cidBin = true
    · obtain ⟨cid, rfl, -, hletters⟩ := isValidChunkFilename_iff.mp hvalid
      rw [if_pos hvalid, if_pos hvalid, join_chunk (noSlash_of_base32 hletters),
        h.lookup (.chunk hletters)]
    · rw [if_neg hvalid, if_neg hvalid]

private theorem shardMatches_congr (hash : Hashing) (manifestCidField : Bytes → Option String)
    {root : Location} (h : ReadAlike files files' root) (manifestCid : String) :
    shardMatches hash manifestCidField files root manifestCid =
      shardMatches hash manifestCidField files' root manifestCid := by
  unfold shardMatches
  rw [join_plain plain_manifest, join_plain plain_pullSource, h.lookup .manifest,
    h.lookup .pullSource]

/-- Whatever is asked of the server of many shards, its replies depend on nothing but the names of
the shards, in the order in which they are listed, and what reading their manifests, pull sources
and chunk files gives. -/
theorem multi_replies_confined (hash : Hashing) (manifestCidField : Bytes → Option String)
    {shardsRoot : Location} (ls : Listing files shardsRoot) (ls' : Listing files' shardsRoot)
    (hnames : ls.names = ls'.names)
    (h : ∀ name ∈ ls.names, ReadAlike files files' (shardsRoot ++ [name])) (manifestCid : String) :
    serveMultiManifest hash manifestCidField files shardsRoot ls manifestCid =
        serveMultiManifest hash manifestCidField files' shardsRoot ls' manifestCid ∧
      ∀ chunk, serveMultiChunk hash manifestCidField files shardsRoot ls manifestCid chunk =
        serveMultiChunk hash manifestCidField files' shardsRoot ls' manifestCid chunk := by
  have hdirs : ∀ root ∈ ls.names.map fun name => shardsRoot ++ [name],
    ReadAlike files files' root := by
    intro root hroot
    obtain ⟨name, hname, rfl⟩ := List.mem_map.mp hroot
    exact h name hname
  have hresolve : resolveShard hash manifestCidField files shardsRoot ls manifestCid =
      resolveShard hash manifestCidField files' shardsRoot ls' manifestCid := by
    unfold resolveShard
    rw [← hnames, ← List.head?_filter, ← List.head?_filter]
    refine congrArg List.head? (List.filter_congr fun root hroot => ?_)
    exact shardMatches_congr hash manifestCidField (hdirs root hroot) manifestCid
  have hfound :
    ∀ root, resolveShard hash manifestCidField files shardsRoot ls manifestCid = some root →
      ReadAlike files files' root :=
    fun root hroot => hdirs root (List.mem_of_find?_eq_some hroot)
  refine ⟨?_, fun chunk => ?_⟩
  · rw [serveMultiManifest_eq, serveMultiManifest_eq, ← hresolve]
    cases hroot : resolveShard hash manifestCidField files shardsRoot ls manifestCid with
    | none => rfl
    | some root => exact (serve_congr (hfound root hroot)).1
  · rw [serveMultiChunk_eq, serveMultiChunk_eq, ← hresolve]
    cases hroot : resolveShard hash manifestCidField files shardsRoot ls manifestCid with
    | none => rfl
    | some root =>
        rw [Option.map_some, Option.map_some, (serve_congr (hfound root hroot)).2 chunk]

end Reach

/-- A shard that has lost its manifest, with a file that is not for serving. -/
def secretFiles (secret : Bytes) : Files :=
  AList.insert ["shards", "qwen", "kept_ranges.json"] secret
    (AList.insert ["shards", "qwen", "pull_source.json"] [0] ∅)

private theorem secretFiles_alike {path : Location}
    (hother : path ≠ ["shards", "qwen", "kept_ranges.json"]) :
    readFile (secretFiles [1]) path = readFile (secretFiles [2]) path := by
  have hkeys : (secretFiles [1]).keys = (secretFiles [2]).keys := by decide
  have hsome : ∀ above,
      ((secretFiles [1]).lookup above).isSome = ((secretFiles [2]).lookup above).isSome := by
    intro above
    rw [Bool.eq_iff_iff, AList.lookup_isSome, AList.lookup_isSome, AList.mem_keys,
      AList.mem_keys, hkeys]
  have hlookup : (secretFiles [1]).lookup path = (secretFiles [2]).lookup path := by
    rw [secretFiles, secretFiles, AList.lookup_insert_ne hother, AList.lookup_insert_ne hother]
  unfold readFile
  simp only [hkeys, hsome, hlookup]

theorem multi_replies_confined_secret :
    serveMultiManifest longHash (fun _ => some "bqwen") (secretFiles [1]) ["shards"]
    (Listing.of _ _)
        "bqwen" = .notFound "read manifest: No such file or directory (os error 2)" ∧
      serveMultiManifest longHash (fun _ => some "bqwen") (secretFiles [2]) ["shards"]
        (Listing.of _ _) "bqwen" =
          .notFound "read manifest: No such file or directory (os error 2)" := by
  have hreply : serveMultiManifest longHash (fun _ => some "bqwen") (secretFiles [1]) ["shards"]
      (Listing.of _ _) "bqwen" =
        .notFound "read manifest: No such file or directory (os error 2)" := by
    decide +kernel
  refine ⟨hreply, ?_⟩
  rw [← hreply]
  refine ((multi_replies_confined longHash (fun _ => some "bqwen")
    (Listing.of (secretFiles [1]) ["shards"]) (Listing.of (secretFiles [2]) ["shards"]) rfl
    (fun name hname path hpath => secretFiles_alike ?_) "bqwen").1).symm
  intro heq
  cases hpath with
  | pullSource => simp at heq
  | manifest => simp at heq
  | chunk hletters => simp [chunkLocation] at heq

end IntelNav.ModelStore
