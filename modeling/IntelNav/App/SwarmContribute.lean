import IntelNav.App.Sidecars
import IntelNav.ModelStore.HttpSpec
import IntelNav.Net.Shards

/-! A slice pulled from a peer (`crates/app/src/swarm_contribute.rs`), and whether it is the slice
that was advertised. -/

set_option autoImplicit false
set_option relaxedAutoImplicit false

namespace IntelNav.App

open IntelNav.Disk IntelNav.ModelStore IntelNav.Net

def shardDir (modelsDir : Location) (cid : String) : Location := join (join modelsDir ".shards") cid

inductive PullError
  | missingFields
  | fetchManifestOnly (e : HttpError)
  | fetchChunks (e : HttpError)
  deriving DecidableEq

inductive SwarmPullEvent
  | started (manifestUrl : String) (range : UInt16 × UInt16)
  | manifestOk (manifestCid : String) (nLayers : Nat)
  | chunksDone (bytes nChunks : Nat)
  | done (keptRanges : List (UInt16 × UInt16)) (shardRoot : Location)
  | error (e : PullError)
  deriving DecidableEq

section Pull

variable (hash : Hashing) (json : ManifestJson) (side : SidecarJson)

/-- The sidecars of a pulled slice: `kept_ranges.json` and `pull_source.json`. -/
def persistSidecars (modelCid : String) (range : UInt16 × UInt16) (provider : ProviderRecord)
    (fetched : FetchedManifest) (shardRoot : Location) (files : Files) : Files :=
  let kept : KeptRanges :=
    { modelCid, displayName := fetched.manifest.name.getD modelCid
      blockCount := UInt16.ofNat fetched.manifest.nLayers, ggufPath := "", kept := [range] }
  let source : PullSource :=
    { sourcePeerId := provider.peerId, manifestCid := fetched.manifestCid
      manifestUrl := fetched.manifestUrl, range }
  (files.insert (join shardRoot "kept_ranges.json") (side.keptToBytes kept)).insert
    (join shardRoot "pull_source.json") (side.sourceToBytes source)

/-- The pull of one slice: its progress events and the files it leaves. -/
def startPull (modelCid : String) (range : UInt16 × UInt16) (provider : ProviderRecord)
    (modelsDir : Location) (server : ChunkServer) (files : Files) :
    List SwarmPullEvent × Files :=
  let shardRoot := shardDir modelsDir modelCid
  match provider.chunksUrl, provider.manifestCid with
  | some chunksHost, some manifestCid =>
      let manifestUrl := "http://" ++ chunksHost ++ "/" ++ manifestCid ++ "/manifest.json"
      let opts := FetchOptions.default shardRoot
      match fetchManifestOnly hash json manifestUrl opts server files with
      | .error e => ([.started manifestUrl range, .error (.fetchManifestOnly e)], files)
      | .ok (fetched, files) =>
          let plan := FetchPlan.forRange fetched.manifest range.1.toNat range.2.toNat
          let started := [.started manifestUrl range,
            .manifestOk fetched.manifestCid fetched.manifest.nLayers]
          match fetchChunks hash fetched plan opts server files with
          | (.error e, files) => (started ++ [.error (.fetchChunks e)], files)
          | (.ok outcome, files) =>
              (started ++ [.chunksDone outcome.bytesDownloaded outcome.manifest.bundles.length,
                  .done [range] shardRoot],
                persistSidecars side modelCid range provider fetched shardRoot files)
  | _, _ => ([.error .missingFields], files)

end Pull

variable {hash : Hashing} {json : ManifestJson} {side : SidecarJson} {modelCid : String}
  {range : UInt16 × UInt16} {provider : ProviderRecord} {modelsDir : Location}
  {server : ChunkServer} {files : Files}

abbrev rangeChunks (manifest : Manifest) (range : UInt16 × UInt16) :
    Except HttpError (List Chunk) :=
  wantedChunks manifest (.forRange manifest range.1.toNat range.2.toNat)

/-- What a pull that reports `Done` has done: the manifest is stored in a directory named by its own
CID, the chunks beside it, and then the sidecars. -/
structure Pulled (hash : Hashing) (json : ManifestJson) (side : SidecarJson) (modelCid : String)
    (range : UInt16 × UInt16) (provider : ProviderRecord) (shardRoot : Location)
    (server : ChunkServer) (files : Files) (events : List SwarmPullEvent) (files' : Files)
    (bytes : Bytes) (manifest : Manifest) (wanted : List Chunk) (fetched : Files) : Prop where
  advertised : provider.manifestCid.isSome
  sent : server.sentManifest = some bytes
  parsed : json.fromJsonBytes bytes = some manifest
  wants : rangeChunks manifest range = .ok wanted
  reported : ∀ c n, .manifestOk c n ∈ events ↔ c = hash.cidStringFor bytes ∧ n = manifest.nLayers
  stored : ∀ c ∈ wanted,
    Stored hash (shardRoot ++ [hash.cidStringFor bytes, "chunks"]) fetched c.cid
  frame : AgreeOff (ChunkPlaces (shardRoot ++ [hash.cidStringFor bytes, "chunks"]) wanted)
    (files.insert (shardRoot ++ [hash.cidStringFor bytes, "manifest.json"]) bytes) fetched
  sidecars : ∃ url, files' = persistSidecars side modelCid range provider
    ⟨shardRoot ++ [hash.cidStringFor bytes], manifest, hash.cidStringFor bytes, url⟩ shardRoot
    fetched

private theorem join_entries (hbase : hash.Base32) (root : Location) (bytes : Bytes) {name : String}
    (h : PlainName name) :
    join (join root (hash.cidStringFor bytes)) name =
      root ++ [hash.cidStringFor bytes, name] := by
  rw [join_plain (hbase.plain bytes), join_plain h, List.append_assoc]
  rfl

theorem plain_kept : PlainName "kept_ranges.json" := ⟨by decide, by decide, by decide, by decide⟩

/-- The run of a pull that reports `Done`. -/
theorem startPull_done (hbase : hash.Base32) {events : List SwarmPullEvent} {files' : Files}
    (hrun : startPull hash json side modelCid range provider modelsDir server files =
      (events, files')) {kept : List (UInt16 × UInt16)} {root : Location}
    (hdone : .done kept root ∈ events) :
    ∃ bytes manifest wanted fetched, Pulled hash json side modelCid range provider
      (shardDir modelsDir modelCid) server files events files' bytes manifest wanted fetched := by
  unfold startPull at hrun
  dsimp only at hrun
  split at hrun
  · rename_i chunksHost manifestCid _ hadvertised
    split at hrun
    · obtain ⟨rfl, -⟩ := Prod.mk.inj hrun
      simp at hdone
    · rename_i fetched files₁ hmanifest
      obtain ⟨bytes, manifest, hsent, hparsed, rfl, rfl⟩ := fetchManifestOnly_ok hmanifest
      split at hrun
      · obtain ⟨rfl, -⟩ := Prod.mk.inj hrun
        simp at hdone
      · rename_i outcome files₂ hchunks
        obtain ⟨-, wanted, hwanted, hstored, hframe⟩ := fetchChunks_ok hbase hchunks
        have hdir := join_entries hbase (shardDir modelsDir modelCid) bytes plain_chunks
        have hfile := join_entries hbase (shardDir modelsDir modelCid) bytes plain_manifest
        simp only [FetchOptions.default] at hstored hframe
        rw [hdir] at hstored hframe
        rw [hfile] at hframe
        obtain ⟨rfl, rfl⟩ := Prod.mk.inj hrun
        refine ⟨bytes, manifest, wanted, files₂, hadvertised ▸ rfl, hsent, hparsed, hwanted, ?_,
          hstored, hframe, ?_⟩
        · intro c n
          simp
        · refine ⟨"http://" ++ chunksHost ++ "/" ++ manifestCid ++ "/manifest.json", ?_⟩
          simp only [FetchOptions.default, join_plain (hbase.plain bytes)]
  · obtain ⟨rfl, -⟩ := Prod.mk.inj hrun
    simp at hdone

inductive FetchPlace (root : Location) (manifestCid : String) : Location → Prop
  | manifest : FetchPlace root manifestCid (root ++ [manifestCid, "manifest.json"])
  | chunk (name : String) : FetchPlace root manifestCid (root ++ [manifestCid, "chunks", name])

theorem startPull_undone (hbase : hash.Base32) {events : List SwarmPullEvent} {files' : Files}
    (hrun : startPull hash json side modelCid range provider modelsDir server files =
      (events, files')) (hundone : ∀ kept root, .done kept root ∉ events)
    (hplain : ∀ bytes manifest wanted, server.sentManifest = some bytes →
      json.fromJsonBytes bytes = some manifest → rangeChunks manifest range = .ok wanted →
      ∀ c ∈ wanted, '/' ∉ c.cid.toList) :
    ∃ manifestCid,
      AgreeOff (FetchPlace (shardDir modelsDir modelCid) manifestCid) files files' := by
  unfold startPull at hrun
  dsimp only at hrun
  split at hrun
  · split at hrun
    · obtain ⟨-, rfl⟩ := Prod.mk.inj hrun
      exact ⟨"", .refl _ _⟩
    · rename_i fetched files₁ hmanifest
      obtain ⟨bytes, manifest, hsent, hparsed, rfl, rfl⟩ := fetchManifestOnly_ok hmanifest
      split at hrun
      · rename_i e files₂ hchunks
        obtain ⟨-, rfl⟩ := Prod.mk.inj hrun
        refine ⟨hash.cidStringFor bytes, ?_⟩
        have hframe := fetchChunks_frame hchunks
          fun wanted hwanted => hplain bytes manifest wanted hsent hparsed hwanted
        have hdir := join_entries hbase (shardDir modelsDir modelCid) bytes plain_chunks
        have hfile := join_entries hbase (shardDir modelsDir modelCid) bytes plain_manifest
        simp only [FetchOptions.default] at hframe
        rw [hdir, hfile] at hframe
        refine (agreeOff_insert .manifest files bytes).trans (hframe.mono ?_)
        rintro p ⟨name, rfl⟩
        rw [List.append_assoc]
        exact .chunk name
      · obtain ⟨rfl, -⟩ := Prod.mk.inj hrun
        exact absurd (by simp) (hundone [range] (shardDir modelsDir modelCid))
  · obtain ⟨-, rfl⟩ := Prod.mk.inj hrun
    exact ⟨"", .refl _ _⟩

/-- The stored manifest has the CID, and each chunk it lists for the range is stored under its
own. -/
def ChainsTo (hash : Hashing) (json : ManifestJson) (files : Files) (dir : Location)
    (range : UInt16 × UInt16) (c : String) : Prop :=
  ∃ bytes manifest wanted, files.lookup (dir ++ ["manifest.json"]) = some bytes ∧
    json.fromJsonBytes bytes = some manifest ∧ rangeChunks manifest range = .ok wanted ∧
    hash.cidStringFor bytes = c ∧ ∀ chunk ∈ wanted, Stored hash (dir ++ ["chunks"]) files chunk.cid

namespace Pulled

variable {events : List SwarmPullEvent} {files' fetched : Files} {bytes : Bytes}
  {manifest : Manifest} {wanted : List Chunk} {root : Location}

theorem after (h : Pulled hash json side modelCid range provider root server files events files'
    bytes manifest wanted fetched) :
    AgreeOff (fun p => p = root ++ ["kept_ranges.json"] ∨ p = root ++ ["pull_source.json"])
      fetched files' := by
  obtain ⟨url, rfl⟩ := h.sidecars
  unfold persistSidecars
  rw [join_plain plain_kept, join_plain plain_pullSource]
  exact (agreeOff_insert (.inl rfl) _ _).trans (agreeOff_insert (.inr rfl) _ _)

private theorem keeps_manifest
    (h : Pulled hash json side modelCid range provider root server files events
    files' bytes manifest wanted fetched) :
    files'.lookup (root ++ [hash.cidStringFor bytes, "manifest.json"]) = some bytes := by
  have hafter := h.after (root ++ [hash.cidStringFor bytes, "manifest.json"])
    (by simp)
  have hframe := h.frame (root ++ [hash.cidStringFor bytes, "manifest.json"]) (by
    rintro ⟨c, -, hplace | hplace⟩ <;> simp [List.append_assoc] at hplace)
  rw [hafter, hframe, AList.lookup_insert]

private theorem keeps_chunk (hbase : hash.Base32)
    (h : Pulled hash json side modelCid range provider root
    server files events files' bytes manifest wanted fetched) {c : Chunk} (hc : c ∈ wanted) :
    Stored hash (root ++ [hash.cidStringFor bytes, "chunks"]) files' c.cid := by
  obtain ⟨content, hlookup, hcid⟩ := h.stored c hc
  have hplain : '/' ∉ c.cid.toList := hcid ▸ hbase.noSlash content
  refine ⟨content, ?_, hcid⟩
  rw [← hlookup]
  apply h.after
  rw [join_bin hplain]
  simp [List.append_assoc]

private theorem chains_iff (hbase : hash.Base32)
    (h : Pulled hash json side modelCid range provider root
    server files events files' bytes manifest wanted fetched) (c : String) :
    ChainsTo hash json files' (root ++ [hash.cidStringFor bytes]) range c ↔
      hash.cidStringFor bytes = c := by
  have hmanifest := h.keeps_manifest
  have hdir : ∀ name, root ++ [hash.cidStringFor bytes] ++ [name] =
      root ++ [hash.cidStringFor bytes, name] := fun _ => List.append_assoc _ _ _
  unfold ChainsTo
  rw [hdir, hdir]
  constructor
  · rintro ⟨bytes', -, -, hlookup, -, -, hcid, -⟩
    obtain rfl := Option.some.inj (hlookup.symm.trans hmanifest)
    exact hcid
  · intro hcid
    exact ⟨bytes, manifest, wanted, hmanifest, h.parsed, h.wants, hcid,
      fun chunk hchunk => h.keeps_chunk hbase hchunk⟩

end Pulled

/-- A pull is faithful to the advertised CID exactly if the server sends a manifest with this CID:
nothing compares the two. The chunks are the ones of the manifest in any case. -/
theorem pulled_chains_iff (hash : Hashing) (json : ManifestJson) (side : SidecarJson)
    (hbase : hash.Base32) (modelCid : String) (range : UInt16 × UInt16) (provider : ProviderRecord)
    (modelsDir : Location) (server : ChunkServer) (files : Files) (events : List SwarmPullEvent)
    (files' : Files)
    (hrun : startPull hash json side modelCid range provider modelsDir server files =
      (events, files'))
    (kept : List (UInt16 × UInt16)) (root : Location) (hdone : .done kept root ∈ events) :
    (∀ c ∈ provider.manifestCid, ∀ m n, .manifestOk m n ∈ events →
        ChainsTo hash json files' (join (shardDir modelsDir modelCid) m) range c) ↔
      ∃ bytes, server.sentManifest = some bytes ∧
        provider.manifestCid = some (hash.cidStringFor bytes) := by
  obtain ⟨bytes, manifest, wanted, fetched, h⟩ := startPull_done hbase hrun hdone
  obtain ⟨c, hc⟩ := Option.isSome_iff_exists.mp h.advertised
  have hdir := join_plain (hbase.plain bytes) (shardDir modelsDir modelCid)
  constructor
  · intro hchains
    have hstored := hchains c hc (hash.cidStringFor bytes) manifest.nLayers
      ((h.reported _ _).mpr ⟨rfl, rfl⟩)
    rw [hdir, h.chains_iff hbase c] at hstored
    exact ⟨bytes, h.sent, hstored ▸ hc⟩
  · rintro ⟨bytes', hsent, hcid⟩ c' hc' m n hreported
    obtain rfl := Option.some.inj (hsent.symm.trans h.sent)
    obtain ⟨rfl, -⟩ := (h.reported m n).mp hreported
    rw [hdir, h.chains_iff hbase c']
    exact Option.some.inj (hcid.symm.trans hc')

/-! A server with a manifest of its own. -/

/-- Where the server offers a manifest, sends its chunks, and none of them is there yet, a pull is
done. -/
private theorem startPull_served (hbase : hash.Base32) {bytes : Bytes} {manifest : Manifest}
    {wanted : List Chunk} (hurl : provider.chunksUrl.isSome)
    (hadvertised : provider.manifestCid.isSome)
    (hoffers : server.Offers (64 * 1024 * 1024) bytes)
    (hparsed : json.fromJsonBytes bytes = some manifest)
    (hwants : rangeChunks manifest range = .ok wanted)
    (hserves : ∀ c ∈ wanted, server.Serves hash c)
    (hfresh : ∀ p, files.lookup
      (shardDir modelsDir modelCid ++ hash.cidStringFor bytes :: "chunks" :: p) = none) :
    .done [range] (shardDir modelsDir modelCid) ∈
      (startPull hash json side modelCid range provider modelsDir server files).1 := by
  obtain ⟨chunksHost, hhost⟩ := Option.isSome_iff_exists.mp hurl
  obtain ⟨manifestCid, hmanifest⟩ := Option.isSome_iff_exists.mp hadvertised
  have hbytes := fetchManifestBytes_offered hoffers
  set dir := join (shardDir modelsDir modelCid) (hash.cidStringFor bytes) with hdir
  rw [join_plain (hbase.plain bytes)] at hdir
  have hmanifestOnly : ∀ url, fetchManifestOnly hash json url
      (FetchOptions.default (shardDir modelsDir modelCid)) server files =
      .ok (⟨dir, manifest, hash.cidStringFor bytes, url⟩,
        files.insert (join dir "manifest.json") bytes) := by
    intro url
    have hmanifestBytes : fetchManifestBytes server.manifest
        (FetchOptions.default (shardDir modelsDir modelCid)).maxManifestBytes = .ok bytes := hbytes
    simp only [fetchManifestOnly, hmanifestBytes, bind, Except.bind, hparsed]
    rfl
  have hchunks : ∀ p, (files.insert (join dir "manifest.json") bytes).lookup
      (join dir "chunks" ++ p) = none := by
    intro p
    rw [join_plain plain_manifest, join_plain plain_chunks, AList.lookup_insert_ne (by simp)]
    rw [hdir, List.append_assoc, List.append_assoc]
    exact hfresh p
  obtain ⟨outcome, files', hfetch⟩ := fetchChunks_served hbase ⟨dir, manifest,
    hash.cidStringFor bytes, "http://" ++ chunksHost ++ "/" ++ manifestCid ++ "/manifest.json"⟩
    (FetchOptions.default (shardDir modelsDir modelCid)) hwants hserves hchunks
  unfold startPull
  rw [hhost, hmanifest]
  simp only [hmanifestOnly, hfetch]
  simp

def oneLayer : Manifest where
  format := "intelnav-model"
  version := manifestVersion
  name := none
  architecture := some "qwen2"
  nLayers := 1
  gguf := { ggufVersion := 3, alignment := 32, tensorDataOffset := 1, nKv := 0, nTensors := 0 }
  headerChunk := ⟨longHash.cidStringFor [0], 1⟩
  bundles := [⟨"embed", none, longHash.cidStringFor [1], 1, []⟩,
    ⟨"blk.0", some (0, 1), longHash.cidStringFor [2], 1, []⟩,
    ⟨"head", none, longHash.cidStringFor [3], 1, []⟩]

def oneLayerJson : ManifestJson where
  toJsonBytes m := utf8 m.pretty
  fromJsonBytes bytes := if bytes = utf8 oneLayer.pretty then some oneLayer else none

def oneLayerServer : ChunkServer where
  manifest := some ⟨false, none, [some (utf8 oneLayer.pretty)]⟩
  chunk cid _ := ([[0], [1], [2], [3]].find? fun bytes => longHash.cidStringFor bytes = cid).map
    fun bytes => ⟨false, some bytes.length, [some bytes]⟩

def otherProvider : ProviderRecord where
  peerId := "12D3KooWHost"
  addrs := []
  chunksUrl := some "192.0.2.1:8080"
  manifestCid := some (longHash.cidStringFor [])
  forwardUrl := none
  mintedAt := 0

private theorem oneLayerServer_serves {bytes : Bytes} (h : bytes ∈ [[0], [1], [2], [3]]) :
    oneLayerServer.Serves longHash ⟨longHash.cidStringFor bytes, 1⟩ := by
  have hlen : ∀ b ∈ ([[0], [1], [2], [3]] : List Bytes), b.length = 1 := by decide
  have hsome : ([[0], [1], [2], [3]].find? fun b =>
      longHash.cidStringFor b = longHash.cidStringFor bytes).isSome := by
    rw [List.find?_isSome]
    exact ⟨bytes, h, decide_eq_true rfl⟩
  obtain ⟨b, hb⟩ := Option.isSome_iff_exists.mp hsome
  refine ⟨⟨false, some b.length, [some b]⟩, b, ?_, ?_, hlen b (List.mem_of_find?_eq_some hb), ?_⟩
  · change Option.map _ (List.find? _ _) = _
    rw [hb, Option.map_some]
  · simp [sentBytes]
  · have hfound := List.find?_some hb
    exact of_decide_eq_true hfound

theorem oneLayerServer_sent : oneLayerServer.sentManifest = some (utf8 oneLayer.pretty) := by
  simp [oneLayerServer, ChunkServer.sentManifest, sentBytes]

private theorem rangeChunks_oneLayer : rangeChunks oneLayer (0, 1) =
    .ok (oneLayer.headerChunk :: oneLayer.bundles.map BundleEntry.chunk) := rfl

theorem oneLayerJson_parses :
    oneLayerJson.fromJsonBytes (utf8 oneLayer.pretty) = some oneLayer := by
  simp only [oneLayerJson, if_true]

theorem oneLayer_done {json : ManifestJson}
    (hparsed : json.fromJsonBytes (utf8 oneLayer.pretty) = some oneLayer)
    (provider : ProviderRecord) (hurl : provider.chunksUrl.isSome)
    (hadvertised : provider.manifestCid.isSome) {files : Files}
    (hfresh : ∀ p, files.lookup (shardDir ["models"] "qwen2" ++
      longHash.cidStringFor (utf8 oneLayer.pretty) :: "chunks" :: p) = none) :
    .done [(0, 1)] (shardDir ["models"] "qwen2") ∈ (startPull longHash json prettySidecars
      "qwen2" (0, 1) provider ["models"] oneLayerServer files).1 := by
  have hshort : (utf8 oneLayer.pretty).length ≤ 64 * 1024 * 1024 := by
    have hchars : (Text.Json.object 0 Manifest.fields oneLayer).length < 16 * 1024 * 1024 := by
      decide +kernel
    have hle : (utf8 oneLayer.pretty).length ≤ _ := oneLayer.length_toJsonBytes_le
    omega
  have hoffers : oneLayerServer.Offers (64 * 1024 * 1024) (utf8 oneLayer.pretty) := by
    refine ⟨_, rfl, ?_, hshort, nofun⟩
    simp [sentBytes]
  refine startPull_served longHash_base32 hurl hadvertised hoffers hparsed rangeChunks_oneLayer ?_
    hfresh
  intro c hc
  have hcids : ∃ bytes ∈ ([[0], [1], [2], [3]] : List Bytes),
      c = ⟨longHash.cidStringFor bytes, 1⟩ := by
    simp only [oneLayer, BundleEntry.chunk, List.map_cons, List.map_nil, List.mem_cons,
      List.not_mem_nil, or_false] at hc
    rcases hc with rfl | rfl | rfl | rfl
    · exact ⟨[0], by decide, rfl⟩
    · exact ⟨[1], by decide, rfl⟩
    · exact ⟨[2], by decide, rfl⟩
    · exact ⟨[3], by decide, rfl⟩
  obtain ⟨bytes, hbytes, rfl⟩ := hcids
  exact oneLayerServer_serves hbytes

/-- A server that sends another manifest than the one advertised is believed. -/
theorem substituted_manifest_believed :
    ∃ events files', startPull longHash oneLayerJson prettySidecars "qwen2" (0, 1) otherProvider
        ["models"] oneLayerServer ∅ = (events, files') ∧
      .done [(0, 1)] (shardDir ["models"] "qwen2") ∈ events ∧
      ¬ ∀ c ∈ otherProvider.manifestCid, ∀ m n, .manifestOk m n ∈ events →
        ChainsTo longHash oneLayerJson files' (join (shardDir ["models"] "qwen2") m) (0, 1) c := by
  have hdone := oneLayer_done oneLayerJson_parses otherProvider rfl rfl fun _ =>
    AList.lookup_empty _
  refine ⟨_, _, Prod.mk.eta.symm, hdone, fun hchains => ?_⟩
  obtain ⟨bytes, manifest, wanted, fetched, h⟩ :=
    startPull_done longHash_base32 Prod.mk.eta.symm hdone
  have hstored := hchains _ rfl _ _ ((h.reported _ _).mpr ⟨rfl, rfl⟩)
  rw [join_plain (longHash_base32.plain bytes), h.chains_iff longHash_base32] at hstored
  have hlen := congrArg (fun cid : String => cid.toList.length) hstored
  have hbytes : bytes = utf8 oneLayer.pretty := by
    exact Option.some.inj (h.sent.symm.trans oneLayerServer_sent)
  have hne : (utf8 oneLayer.pretty).length ≠ 0 := by
    intro hempty
    have hnil : utf8 oneLayer.pretty = utf8 "" := List.length_eq_zero_iff.mp hempty
    have hchars := congrArg String.toList (utf8_inj.mp hnil)
    rw [Manifest.pretty, String.toList_ofList] at hchars
    exact List.cons_ne_nil _ _ (List.append_eq_nil_iff.mp hchars).2
  simp only [longHash_length, List.length_nil] at hlen
  rw [hbytes] at hlen
  omega

def oneLayerProvider : ProviderRecord :=
  { otherProvider with manifestCid := some (longHash.cidStringFor (utf8 oneLayer.pretty)) }

theorem pulled_chains_oneLayer :
    ∃ events files', startPull longHash oneLayerJson prettySidecars "qwen2" (0, 1) oneLayerProvider
        ["models"] oneLayerServer ∅ = (events, files') ∧
      .done [(0, 1)] (shardDir ["models"] "qwen2") ∈ events ∧
      ∀ c ∈ oneLayerProvider.manifestCid, ∀ m n, .manifestOk m n ∈ events →
        ChainsTo longHash oneLayerJson files' (join (shardDir ["models"] "qwen2") m) (0, 1) c := by
  have hdone := oneLayer_done oneLayerJson_parses oneLayerProvider rfl rfl fun _ =>
    AList.lookup_empty _
  refine ⟨_, _, Prod.mk.eta.symm, hdone, ?_⟩
  have hiff := pulled_chains_iff longHash oneLayerJson prettySidecars longHash_base32 "qwen2" (0, 1)
    oneLayerProvider ["models"] oneLayerServer ∅ _ _ Prod.mk.eta.symm _ _ hdone
  exact hiff.mpr ⟨_, oneLayerServer_sent, rfl⟩

end IntelNav.App
