import IntelNav.App.Control
import IntelNav.App.SwarmContribute
import IntelNav.ModelStore.Stitch

/-! Serving a pulled slice: the files the forward listener opens, and the ones a pull leaves. -/

set_option autoImplicit false
set_option relaxedAutoImplicit false

namespace IntelNav.App

open IntelNav.Disk IntelNav.ModelStore IntelNav.Net IntelNav.Reading

/-! The files of a slice (`crates/app/src/forward_server.rs`). -/

inductive SliceError
  | missing (p : Location)
  | parse (p : Location)
  | disabled (start stop : UInt16)
  | notPresent (start stop : UInt16)
  | stitch (e : Stop StitchError)
  deriving DecidableEq

/-- The range of a slice: embeddings before layer 0 and the head after the last layer. -/
def sliceRange (start stop blockCount : UInt16) : StitchRange where
  start := start.toUInt32
  stop := stop.toUInt32
  includeEmbed := start = 0
  includeHead := stop = blockCount

/-- `DisabledRanges::load` -/
def loadDisabled (side : SidecarJson) (files : Files) (root : Location) : DisabledRanges :=
  ((files.lookup (join root "disabled_ranges.json")).bind side.disabledFromBytes).getD ⟨[]⟩

section Prepare

variable (ar : Arith) (hash : Hashing) (json : ManifestJson) (side : SidecarJson)

/-- An opened file that is not there is told from the other failures of the stitcher. -/
def SliceError.ofStitch : Stop StitchError → SliceError
  | .failed (.missing p) => .missing p
  | e => .stitch e

private theorem SliceError.ofStitch_missing {e : Stop StitchError} {p : Location}
    (h : SliceError.ofStitch e = .missing p) : e = .failed (.missing p) := by
  unfold SliceError.ofStitch at h
  split at h
  · rw [SliceError.missing.inj h]
  · cases h

/-- `stitch_subset_for`: what was stitched before is used again. -/
def stitchSubsetFor (root : Location) (start stop blockCount : UInt16) (files : Files) :
    Except SliceError Location × Files :=
  let manifestPath := join root "manifest.json"
  let outPath := join root ("stitched-" ++ toString start ++ "-" ++ toString stop ++ ".gguf")
  if (files.lookup outPath).isSome then (.ok outPath, files)
  else
    match files.lookup manifestPath with
    | none => (.error (.missing manifestPath), files)
    | some bytes =>
        match json.fromJsonBytes bytes with
        | none => (.error (.parse manifestPath), files)
        | some manifest =>
            match stitchSubset ar hash manifest root (sliceRange start stop blockCount) outPath
              files with
            | (.error e, files) => (.error (.ofStitch e), files)
            | (.ok outcome, files) => (.ok outcome.path, files)

/-- `prepare_slice` up to the load of the model: the path of its GGUF, and by how much layer indices
are lowered in it. -/
def prepareSliceFiles (cwd modelsDir : Location) (key : SliceKey) (files : Files) :
    Except SliceError (Location × Nat) × Files :=
  let (cid, start, stop) := key
  let root := shardDir modelsDir cid
  let keptPath := join root "kept_ranges.json"
  match files.lookup keptPath with
  | none => (.error (.missing keptPath), files)
  | some bytes =>
      match side.keptFromBytes bytes with
      | none => (.error (.parse keptPath), files)
      | some kept =>
          if (loadDisabled side files root).contains start stop then
            (.error (.disabled start stop), files)
          else if ¬ kept.kept.any fun r => r.1 = start ∧ r.2 = stop then
            (.error (.notPresent start stop), files)
          else if kept.ggufPath ≠ "" ∧ (files.lookup (join cwd kept.ggufPath)).isSome then
            (.ok (join cwd kept.ggufPath, 0), files)
          else
            match stitchSubsetFor ar hash json root start stop kept.blockCount files with
            | (.error e, files) => (.error e, files)
            | (.ok stitched, files) => (.ok (stitched, start.toNat), files)

end Prepare

variable {ar : Arith} {hash : Hashing} {json : ManifestJson} {side : SidecarJson}
  {modelCid : String} {range : UInt16 × UInt16} {provider : ProviderRecord}
  {cwd modelsDir root : Location} {server : ChunkServer} {files files' : Files}

/-- `kept_ranges.json` as a pull writes it. -/
def pulledRanges (modelCid : String) (range : UInt16 × UInt16) (manifest : Manifest) :
    KeptRanges where
  modelCid
  displayName := manifest.name.getD modelCid
  blockCount := UInt16.ofNat manifest.nLayers
  ggufPath := ""
  kept := [range]

def pulledRange (range : UInt16 × UInt16) (manifest : Manifest) : StitchRange :=
  sliceRange range.1 range.2 (UInt16.ofNat manifest.nLayers)

/-- The shard root has the manifest, and its header chunk and the bundles of the range where the
stitcher looks for them. -/
structure HoldsSlice (hash : Hashing) (files : Files) (root : Location)
    (range : UInt16 × UInt16) (bytes : Bytes) (manifest : Manifest) : Prop where
  listing : files.lookup (join root "manifest.json") = some bytes
  header : Held hash files root manifest.headerChunk.cid
  bundles : ∀ b ∈ manifest.bundles, includesBundle (pulledRange range manifest) b.name = .ok true →
    Held hash files root b.cid

/-- All files of the slice are there, as they were pulled, and its GGUF is prepared without missing
one. -/
structure Servable (ar : Arith) (hash : Hashing) (json : ManifestJson) (side : SidecarJson)
    (modelCid : String) (range : UInt16 × UInt16) (cwd modelsDir : Location) (bytes : Bytes)
    (manifest : Manifest) (files : Files) : Prop where
  kept : files.lookup (join (shardDir modelsDir modelCid) "kept_ranges.json") =
    some (side.keptToBytes (pulledRanges modelCid range manifest))
  holds : HoldsSlice hash files (shardDir modelsDir modelCid) range bytes manifest
  finds : ∀ p, (prepareSliceFiles ar hash json side cwd modelsDir (modelCid, range) files).1 ≠
    .error (.missing p)

inductive PullPlace (root : Location) (manifestCid : String) : Location → Prop
  | manifest : PullPlace root manifestCid (root ++ [manifestCid, "manifest.json"])
  | chunk (name : String) : PullPlace root manifestCid (root ++ [manifestCid, "chunks", name])
  | kept : PullPlace root manifestCid (root ++ ["kept_ranges.json"])
  | source : PullPlace root manifestCid (root ++ ["pull_source.json"])

theorem Pulled.keeps_ranges {events : List SwarmPullEvent} {fetched : Files} {bytes : Bytes}
    {manifest : Manifest} {wanted : List Chunk}
    (h : Pulled hash json side modelCid range provider root server files events files' bytes
      manifest wanted fetched) :
    files'.lookup (join root "kept_ranges.json") =
      some (side.keptToBytes (pulledRanges modelCid range manifest)) := by
  obtain ⟨url, rfl⟩ := h.sidecars
  unfold persistSidecars
  dsimp only
  rw [AList.lookup_insert_ne, AList.lookup_insert]
  · rfl
  · rw [join_plain plain_kept, join_plain plain_pullSource]
    simp

theorem Pulled.outside {events : List SwarmPullEvent} {fetched : Files} {bytes : Bytes}
    {manifest : Manifest} {wanted : List Chunk}
    (h : Pulled hash json side modelCid range provider root server files events files' bytes
      manifest wanted fetched) :
    AgreeOff (PullPlace root (hash.cidStringFor bytes)) files files' := by
  have hchunks : AgreeOff (PullPlace root (hash.cidStringFor bytes)) _ fetched :=
    h.frame.mono (by
      rintro p ⟨c, -, rfl | rfl⟩
      · rw [List.append_assoc]
        exact .chunk _
      · rw [List.append_assoc]
        exact .chunk _)
  have hsidecars : AgreeOff (PullPlace root (hash.cidStringFor bytes)) fetched files' :=
    h.after.mono (by
      rintro p (rfl | rfl)
      · exact .kept
      · exact .source)
  exact (agreeOff_insert .manifest files bytes).trans (hchunks.trans hsidecars)

theorem not_pullPlace_entry {manifestCid name : String} (hkept : name ≠ "kept_ranges.json")
    (hsource : name ≠ "pull_source.json") : ¬ PullPlace root manifestCid (root ++ [name]) := by
  intro h
  generalize hp : root ++ [name] = p at h
  cases h
  all_goals
    have hnames := List.append_cancel_left hp
    simp at hnames
  · exact hkept hnames
  · exact hsource hnames

private theorem bin_ne_json (cid name : String) : cid ++ ".bin" ≠ name ++ ".json" := by
  intro h
  have hend := congrArg (fun s => s.toList.reverse.take 2) h
  simp [String.toList_append] at hend

theorem not_pullPlace (root : Location) (manifestCid cid : String) :
    ¬ PullPlace root manifestCid (root ++ ["chunks", cid ++ ".bin"]) ∧
      ¬ PullPlace root manifestCid (root ++ [cid ++ ".bin"]) := by
  constructor
  · intro h
    generalize hp : root ++ ["chunks", cid ++ ".bin"] = p at h
    cases h
    all_goals
      have hnames := List.append_cancel_left hp
      simp at hnames
    exact bin_ne_json cid "manifest" hnames.2
  · exact not_pullPlace_entry (bin_ne_json cid "kept_ranges") (bin_ne_json cid "pull_source")

private theorem held_outside (hbase : hash.Base32) {manifestCid : String}
    (h : AgreeOff (PullPlace root manifestCid) files files') (cid : String) :
    Held hash files' root cid ↔ Held hash files root cid := by
  by_cases hplain : '/' ∈ cid.toList
  · have hnone : ∀ f, ¬ Held hash f root cid := by
      rintro f ⟨bytes, -, rfl⟩
      exact hbase.noSlash bytes hplain
    exact iff_of_false (hnone files') (hnone files)
  · obtain ⟨hchunks, hflat⟩ := not_pullPlace root manifestCid cid
    have hcanonical : files'.lookup (join (join root "chunks") (cid ++ ".bin")) =
        files.lookup (join (join root "chunks") (cid ++ ".bin")) := by
      rw [join_chunk hplain]
      exact h _ hchunks
    have hbeside : files'.lookup (join root (cid ++ ".bin")) =
        files.lookup (join root (cid ++ ".bin")) := by
      rw [join_bin hplain]
      exact h _ hflat
    have hresolve : chunksDirResolve files' root cid = chunksDirResolve files root cid := by
      simp only [chunksDirResolve, hcanonical]
    have hlookup : files'.lookup (chunksDirResolve files root cid) =
        files.lookup (chunksDirResolve files root cid) := by
      rcases chunksDirResolve_cases files root cid with heq | heq
      · rw [heq, hcanonical]
      · rw [heq, hbeside]
    unfold Held
    rw [hresolve, hlookup]

variable (range) in
private theorem holds_outside (hbase : hash.Base32) {manifestCid : String}
    (h : AgreeOff (PullPlace root manifestCid) files files') (bytes : Bytes) (manifest : Manifest) :
    HoldsSlice hash files' root range bytes manifest ↔
      HoldsSlice hash files root range bytes manifest := by
  have hlisting : files'.lookup (join root "manifest.json") =
      files.lookup (join root "manifest.json") := by
    rw [join_plain plain_manifest]
    exact h _ (not_pullPlace_entry (by decide) (by decide))
  constructor
  · intro hholds
    refine ⟨hlisting ▸ hholds.listing, (held_outside hbase h _).mp hholds.header, ?_⟩
    intro b hb hincludes
    exact (held_outside hbase h _).mp (hholds.bundles b hb hincludes)
  · intro hholds
    refine ⟨hlisting ▸ hholds.listing, (held_outside hbase h _).mpr hholds.header, ?_⟩
    intro b hb hincludes
    exact (held_outside hbase h _).mpr (hholds.bundles b hb hincludes)

private theorem stitchSubsetFor_finds {bytes : Bytes} {manifest : Manifest}
    (hparsed : json.fromJsonBytes bytes = some manifest)
    (hholds : HoldsSlice hash files root range bytes manifest) (p : Location) :
    (stitchSubsetFor ar hash json root range.1 range.2 (UInt16.ofNat manifest.nLayers) files).1 ≠
      .error (.missing p) := by
  unfold stitchSubsetFor
  dsimp only
  split_ifs
  · exact nofun
  · rw [hholds.listing]
    simp only [hparsed]
    have hfinds := stitchSubset_finds ar (join root ("stitched-" ++ toString range.1 ++ "-" ++
      toString range.2 ++ ".gguf")) hholds.header hholds.bundles
    split
    · rename_i e _ herror
      rw [pulledRange, herror] at hfinds
      intro h
      have hmissing := SliceError.ofStitch_missing (Except.error.inj h)
      exact hfinds p (congrArg Except.error hmissing)
    · exact nofun

private theorem prepareSliceFiles_finds (hside : side.RoundTrips) {bytes : Bytes}
    {manifest : Manifest} (hparsed : json.fromJsonBytes bytes = some manifest)
    (hkept : files.lookup (join (shardDir modelsDir modelCid) "kept_ranges.json") =
      some (side.keptToBytes (pulledRanges modelCid range manifest)))
    (hholds : HoldsSlice hash files (shardDir modelsDir modelCid) range bytes manifest)
    (p : Location) :
    (prepareSliceFiles ar hash json side cwd modelsDir (modelCid, range) files).1 ≠
      .error (.missing p) := by
  have hfinds : (stitchSubsetFor ar hash json (shardDir modelsDir modelCid) range.1 range.2
      (pulledRanges modelCid range manifest).blockCount files).1 ≠ .error (.missing p) :=
    stitchSubsetFor_finds hparsed hholds p
  unfold prepareSliceFiles
  dsimp only
  rw [hkept]
  simp only [hside.kept]
  split_ifs
  · exact nofun
  · exact nofun
  · split
    · rename_i herror
      rw [herror] at hfinds
      intro h
      exact hfinds (congrArg Except.error (Except.error.inj h))
    · exact nofun
  · exact nofun

private theorem prepareSliceFiles_missing (hside : side.RoundTrips) {manifest : Manifest}
    (hkept : files.lookup (join (shardDir modelsDir modelCid) "kept_ranges.json") =
      some (side.keptToBytes (pulledRanges modelCid range manifest)))
    (hdisabled : files.lookup (join (shardDir modelsDir modelCid) "disabled_ranges.json") = none)
    (hstitched : files.lookup (join (shardDir modelsDir modelCid) ("stitched-" ++
      toString range.1 ++ "-" ++ toString range.2 ++ ".gguf")) = none)
    (hmanifest : files.lookup (join (shardDir modelsDir modelCid) "manifest.json") = none) :
    (prepareSliceFiles ar hash json side cwd modelsDir (modelCid, range) files).1 =
      .error (.missing (join (shardDir modelsDir modelCid) "manifest.json")) := by
  have hload : loadDisabled side files (shardDir modelsDir modelCid) = ⟨[]⟩ := by
    simp only [loadDisabled, hdisabled, Option.bind_none, Option.getD_none]
  have hstitch : stitchSubsetFor ar hash json (shardDir modelsDir modelCid) range.1 range.2
      (pulledRanges modelCid range manifest).blockCount files =
      (.error (.missing (join (shardDir modelsDir modelCid) "manifest.json")), files) := by
    simp only [stitchSubsetFor, hstitched, hmanifest, Option.isSome_none, Bool.false_eq_true,
      if_false]
  unfold prepareSliceFiles
  dsimp only
  rw [hkept]
  simp only [hside.kept, hload, hstitch]
  simp [DisabledRanges.contains, pulledRanges]

/-- A pulled slice can be served exactly if its manifest and its chunks were in the shard root
before the pull, which puts them into a directory of their own. -/
theorem pulled_servable_iff (ar : Arith) (hash : Hashing) (json : ManifestJson) (side : SidecarJson)
    (hbase : hash.Base32) (hside : side.RoundTrips) (modelCid : String) (range : UInt16 × UInt16)
    (provider : ProviderRecord) (cwd modelsDir : Location) (server : ChunkServer)
    (files : Files) (events : List SwarmPullEvent) (files' : Files)
    (hrun : startPull hash json side modelCid range provider modelsDir server files =
      (events, files'))
    (kept : List (UInt16 × UInt16)) (root : Location) (hdone : .done kept root ∈ events)
    (bytes : Bytes) (manifest : Manifest) (hsent : server.sentManifest = some bytes)
    (hparsed : json.fromJsonBytes bytes = some manifest) :
    Servable ar hash json side modelCid range cwd modelsDir bytes manifest files' ↔
      HoldsSlice hash files (shardDir modelsDir modelCid) range bytes manifest := by
  obtain ⟨bytes', manifest', wanted, fetched, h⟩ := startPull_done hbase hrun hdone
  obtain rfl := Option.some.inj (hsent.symm.trans h.sent)
  obtain rfl := Option.some.inj (hparsed.symm.trans h.parsed)
  have hholds := holds_outside range hbase h.outside bytes manifest
  constructor
  · intro hservable
    exact hholds.mp hservable.holds
  · intro hbefore
    have hafter := hholds.mpr hbefore
    exact ⟨h.keeps_ranges, hafter, prepareSliceFiles_finds hside hparsed h.keeps_ranges hafter⟩

/-- On an empty disk the slice is pulled, and then its manifest is missing. -/
theorem pulled_not_servable :
    ∃ events files', startPull longHash oneLayerJson prettySidecars "qwen2" (0, 1) oneLayerProvider
        ["models"] oneLayerServer ∅ = (events, files') ∧
      .done [(0, 1)] (shardDir ["models"] "qwen2") ∈ events ∧
      (prepareSliceFiles (.wrapping 64) longHash oneLayerJson prettySidecars [] ["models"]
        ("qwen2", 0, 1) files').1 =
          .error (.missing (shardDir ["models"] "qwen2" ++ ["manifest.json"])) ∧
      ¬ Servable (.wrapping 64) longHash oneLayerJson prettySidecars "qwen2" (0, 1) [] ["models"]
        (utf8 oneLayer.pretty) oneLayer files' := by
  have hdone := oneLayer_done oneLayerJson_parses oneLayerProvider rfl rfl fun _ =>
    AList.lookup_empty _
  refine ⟨_, _, Prod.mk.eta.symm, hdone, ?_⟩
  obtain ⟨bytes, manifest, wanted, fetched, h⟩ :=
    startPull_done longHash_base32 Prod.mk.eta.symm hdone
  set files' := (startPull longHash oneLayerJson prettySidecars "qwen2" (0, 1) oneLayerProvider
    ["models"] oneLayerServer ∅).2
  have hnone : ∀ name, PlainName name → name ≠ "kept_ranges.json" → name ≠ "pull_source.json" →
      files'.lookup (join (shardDir ["models"] "qwen2") name) = none := by
    intro name hplain hkept hsource
    rw [join_plain hplain, h.outside _ (not_pullPlace_entry hkept hsource)]
    exact AList.lookup_empty _
  have hmanifest := hnone "manifest.json" plain_manifest (by decide) (by decide)
  constructor
  · rw [← join_plain plain_manifest]
    refine prepareSliceFiles_missing prettySidecars_roundTrips h.keeps_ranges ?_ ?_ hmanifest
    · exact hnone _ ⟨by decide, by decide, by decide, by decide⟩ (by decide) (by decide)
    · exact hnone _ ⟨by decide, by decide, by decide, by decide⟩ (by decide) (by decide)
  · intro hservable
    have hlisting := hservable.holds.listing
    rw [hmanifest] at hlisting
    cases hlisting

def splitFiles : Files :=
  let root := shardDir ["models"] "qwen2"
  ([[0], [1], [2], [3]] : List Bytes).foldl
    (fun files bytes => files.insert (chunkLocation root (longHash.cidStringFor bytes)) bytes)
    ((∅ : Files).insert (root ++ ["manifest.json"]) (utf8 oneLayer.pretty))

private theorem splitFiles_held {bytes : Bytes} (h : bytes ∈ ([[0], [1], [2], [3]] : List Bytes)) :
    Held longHash splitFiles (shardDir ["models"] "qwen2") (longHash.cidStringFor bytes) := by
  simp only [List.mem_cons, List.not_mem_nil, or_false] at h
  rcases h with rfl | rfl | rfl | rfl
  · exact ⟨[0], rfl, rfl⟩
  · exact ⟨[1], rfl, rfl⟩
  · exact ⟨[2], rfl, rfl⟩
  · exact ⟨[3], rfl, rfl⟩

private theorem splitFiles_holds :
    HoldsSlice longHash splitFiles (shardDir ["models"] "qwen2") (0, 1)
    (utf8 oneLayer.pretty) oneLayer where
  listing := rfl
  header := splitFiles_held (by decide)
  bundles b hb _ := by
    simp only [oneLayer, List.mem_cons, List.not_mem_nil, or_false] at hb
    rcases hb with rfl | rfl | rfl
    · exact splitFiles_held (by decide : [1] ∈ ([[0], [1], [2], [3]] : List Bytes))
    · exact splitFiles_held (by decide : [2] ∈ ([[0], [1], [2], [3]] : List Bytes))
    · exact splitFiles_held (by decide : [3] ∈ ([[0], [1], [2], [3]] : List Bytes))

theorem oneLayer_cid_ne_chunks : longHash.cidStringFor (utf8 oneLayer.pretty) ≠ "chunks" := by
  have hlong := (longHash_base32 (utf8 oneLayer.pretty)).1
  intro h
  rw [h] at hlong
  exact absurd hlong (by decide)

private theorem splitFiles_fresh (p : Location) : splitFiles.lookup (shardDir ["models"] "qwen2" ++
    longHash.cidStringFor (utf8 oneLayer.pretty) :: "chunks" :: p) = none := by
  have hne := oneLayer_cid_ne_chunks
  simp only [splitFiles, List.foldl_cons, List.foldl_nil, chunkLocation]
  repeat rw [AList.lookup_insert_ne (by simp [hne])]
  exact AList.lookup_empty _

theorem pulled_servable_split :
    ∃ events files', startPull longHash oneLayerJson prettySidecars "qwen2" (0, 1) oneLayerProvider
        ["models"] oneLayerServer splitFiles = (events, files') ∧
      .done [(0, 1)] (shardDir ["models"] "qwen2") ∈ events ∧
      Servable (.wrapping 64) longHash oneLayerJson prettySidecars "qwen2" (0, 1) [] ["models"]
        (utf8 oneLayer.pretty) oneLayer files' := by
  have hdone := oneLayer_done oneLayerJson_parses oneLayerProvider rfl rfl splitFiles_fresh
  refine ⟨_, _, Prod.mk.eta.symm, hdone, ?_⟩
  exact (pulled_servable_iff (.wrapping 64) longHash oneLayerJson prettySidecars longHash_base32
    prettySidecars_roundTrips "qwen2" (0, 1) oneLayerProvider []
      ["models"] oneLayerServer splitFiles
    _ _ Prod.mk.eta.symm _ _ hdone _ _ oneLayerServer_sent oneLayerJson_parses).mpr splitFiles_holds

end IntelNav.App
