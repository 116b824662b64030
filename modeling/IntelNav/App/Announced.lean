import IntelNav.App.Announce
import IntelNav.ModelStore.ChunkOutput

/-! What is announced is served, as long as contributions leave whole shards. -/

set_option autoImplicit false
set_option relaxedAutoImplicit false

namespace IntelNav.App

open IntelNav.Disk IntelNav.ModelStore IntelNav.Net IntelNav.Reading

variable {ar ar32 : Arith} {hash : Hashing} {json : ManifestJson} {side : SidecarJson}
  {modelsDir cwd root : Location} {files files' : Files}

/-- A directory whose manifest comes with all its chunks, whose recorded CID is that of its
manifest, and which has a manifest if it is hosted. -/
structure WholeShard (hash : Hashing) (json : ManifestJson) (side : SidecarJson)
    (modelsDir : Location) (files : Files) (root : Location) : Prop where
  listing : ∀ bytes, files.lookup (root ++ ["manifest.json"]) = some bytes →
    ∃ manifest, json.fromJsonBytes bytes = some manifest ∧
      ∀ c ∈ manifest.chunks, OnDisk hash root files c.cid
  source : ∀ bytes, files.lookup (root ++ ["pull_source.json"]) = some bytes →
    ∃ src manifest, bytes = side.sourceToBytes src ∧
      files.lookup (root ++ ["manifest.json"]) = some manifest ∧
      src.manifestCid = hash.cidStringFor manifest
  kept : ∀ bytes k, files.lookup (root ++ ["kept_ranges.json"]) = some bytes →
    side.keptFromBytes bytes = some k → shardDir modelsDir k.modelCid = root ∧
      (files.lookup (root ++ ["manifest.json"])).isSome

def WholeShards (hash : Hashing) (json : ManifestJson) (side : SidecarJson)
    (modelsDir : Location) (files : Files) : Prop :=
  ∀ name, WholeShard hash json side modelsDir files (join modelsDir ".shards" ++ [name])

/-- A contribution leaves whole shards whole: the model CID is a plain name; a split agrees with a
source recorded before it; a pull names no chunk outside its directory, and one that is done finds
the manifest it pulled in the shard root already. -/
def Consistent (ar ar32 : Arith) (hash : Hashing) (json : ManifestJson) (side : SidecarJson)
    (modelsDir : Location) (files : Files) : Contribution → Prop
  | .split entry _ gguf =>
      PlainName entry.modelCid ∧
        ∀ outcome files', chunkGguf ar ar32 hash json gguf
            ⟨shardDir modelsDir entry.modelCid, true, false⟩ files = .ok (outcome, files') →
          ∀ bytes, files.lookup (shardDir modelsDir entry.modelCid ++ ["pull_source.json"]) =
              some bytes → side.manifestCidField bytes = some outcome.manifestCid
  | .pull modelCid range provider server =>
      PlainName modelCid ∧
        (∀ bytes manifest wanted, server.sentManifest = some bytes →
          json.fromJsonBytes bytes = some manifest → rangeChunks manifest range = .ok wanted →
          ∀ c ∈ wanted, '/' ∉ c.cid.toList) ∧
        ((∃ kept root, .done kept root ∈
            (startPull hash json side modelCid range provider modelsDir server files).1) →
          ∀ bytes, server.sentManifest = some bytes → ∃ listing,
            files.lookup (shardDir modelsDir modelCid ++ ["manifest.json"]) = some listing ∧
              hash.cidStringFor listing = hash.cidStringFor bytes)

theorem plain_disabled : PlainName "disabled_ranges.json" :=
  ⟨by decide, by decide, by decide, by decide⟩

theorem shardDir_plain {cid : String} (h : PlainName cid) (modelsDir : Location) :
    shardDir modelsDir cid = join modelsDir ".shards" ++ [cid] := by
  rw [shardDir, join_plain h]

theorem WholeShard.sidecars (h : WholeShard hash json side modelsDir files root)
    (hlisting :
      files'.lookup (root ++ ["manifest.json"]) = files.lookup (root ++ ["manifest.json"]))
    (hchunks :
      ∀ cid, files'.lookup (chunkLocation root cid) = files.lookup (chunkLocation root cid))
    (hsource : ∀ bytes, files'.lookup (root ++ ["pull_source.json"]) = some bytes →
      ∃ src manifest, bytes = side.sourceToBytes src ∧
        files.lookup (root ++ ["manifest.json"]) = some manifest ∧
        src.manifestCid = hash.cidStringFor manifest)
    (hkept : ∀ bytes k, files'.lookup (root ++ ["kept_ranges.json"]) = some bytes →
      side.keptFromBytes bytes = some k → shardDir modelsDir k.modelCid = root ∧
        (files.lookup (root ++ ["manifest.json"])).isSome) :
    WholeShard hash json side modelsDir files' root := by
  refine ⟨fun bytes hbytes => ?_, fun bytes hbytes => ?_, fun bytes k hbytes hk => ?_⟩
  · rw [hlisting] at hbytes
    obtain ⟨manifest, hparsed, hall⟩ := h.listing bytes hbytes
    refine ⟨manifest, hparsed, fun c hc => ?_⟩
    obtain ⟨hhash, hsome⟩ := hall c hc
    exact ⟨hhash, hchunks c.cid ▸ hsome⟩
  · rw [hlisting]
    exact hsource bytes hbytes
  · rw [hlisting]
    exact hkept bytes k hbytes hk

theorem WholeShard.congr (h : WholeShard hash json side modelsDir files root)
    (hsame : ∀ p, files'.lookup (root ++ p) = files.lookup (root ++ p)) :
    WholeShard hash json side modelsDir files' root := by
  refine h.sidecars (hsame _) (fun cid => hsame _)
    (fun bytes hbytes => ?_) fun bytes k hbytes hk => ?_
  · exact h.source bytes (hsame _ ▸ hbytes)
  · exact h.kept bytes k (hsame _ ▸ hbytes) hk

private theorem WholeShards.at_root {modelCid : String} (hplain : PlainName modelCid)
    (h : WholeShards hash json side modelsDir files)
    (hframe : AgreeOff (fun p => shardDir modelsDir modelCid <+: p) files files')
    (hroot : WholeShard hash json side modelsDir files' (shardDir modelsDir modelCid)) :
    WholeShards hash json side modelsDir files' := by
  intro name
  by_cases hname : name = modelCid
  · rw [hname, ← shardDir_plain hplain]
    exact hroot
  · refine (h name).congr fun p => hframe _ ?_
    rintro ⟨rest, hrest⟩
    rw [shardDir_plain hplain, List.append_assoc, List.append_assoc] at hrest
    exact hname (List.cons.inj (List.append_cancel_left hrest)).1.symm

/-! A split. -/

theorem not_chunkerPlace_entry (root : Location) {name : String} (hname : name ≠ "manifest.json") :
    ¬ ChunkerPlace root (root ++ [name]) := by
  intro h
  generalize hp : root ++ [name] = p at h
  cases h with
  | manifest => exact hname (List.singleton_inj.mp (List.append_cancel_left hp))
  | chunk name =>
      have hnames := List.append_cancel_left hp
      simp at hnames

/-- A split is done with the chunks, the manifest and the sidecar in the shard root, or it has left
nothing. -/
theorem startSplit_cases (ar ar32 : Arith) (hash : Hashing) (json : ManifestJson)
    (side : SidecarJson) (entry : CatalogEntry) (path : PathBuf) (gguf : Mmap)
    (modelsDir : Location) (files : Files) :
    ((∀ c n b kept root, .done c n b kept root ∉
        (startSplit ar ar32 hash json side entry path gguf modelsDir files).1) ∧
      (startSplit ar ar32 hash json side entry path gguf modelsDir files).2 = files) ∨
    ∃ outcome files₁, chunkGguf ar ar32 hash json gguf
        ⟨shardDir modelsDir entry.modelCid, true, false⟩ files = .ok (outcome, files₁) ∧
      Split hash json (shardDir modelsDir entry.modelCid) files outcome files₁ ∧
      startSplit ar ar32 hash json side entry path gguf modelsDir files =
        ([.started path (shardDir modelsDir entry.modelCid),
          .done outcome.manifestCid outcome.nBundles outcome.bytesWritten
            (defaultKeptRanges entry) (shardDir modelsDir entry.modelCid)],
          files₁.insert (shardDir modelsDir entry.modelCid ++ ["kept_ranges.json"])
            (splitSidecar side entry path)) := by
  unfold startSplit
  dsimp only
  split
  · exact .inl ⟨by simp, rfl⟩
  · exact .inl ⟨by simp, rfl⟩
  · rename_i outcome files₁ hrun
    rw [join_plain plain_kept]
    exact .inr ⟨outcome, files₁, hrun, chunkGguf_split rfl hrun, rfl⟩

private theorem splitSidecar_read (hside : side.RoundTrips) {entry : CatalogEntry} {path : PathBuf}
    {k : KeptRanges} (h : side.keptFromBytes (splitSidecar side entry path) = some k) :
    k.modelCid = entry.modelCid := by
  unfold splitSidecar at h
  cases hpath : path.toStr with
  | none =>
      rw [hpath, Option.map_none, Option.getD_none, hside.empty] at h
      cases h
  | some text =>
      rw [hpath, Option.map_some, Option.getD_some, hside.kept] at h
      rw [← Option.some.inj h]

theorem splitSidecar_text (side : SidecarJson) (entry : CatalogEntry) {path : PathBuf}
    (h : path.toStr.isSome) :
    ∃ k, splitSidecar side entry path = side.keptToBytes k ∧ k.modelCid = entry.modelCid ∧
      k.kept = defaultKeptRanges entry := by
  obtain ⟨text, htext⟩ := Option.isSome_iff_exists.mp h
  rw [splitSidecar, htext]
  exact ⟨_, rfl, rfl, rfl⟩

private theorem split_whole (hjson : json.RoundTrips) (hside : side.RoundTrips)
    {entry : CatalogEntry}
    {path : PathBuf} {gguf : Mmap} (h : WholeShards hash json side modelsDir files)
    (hok : Consistent ar ar32 hash json side modelsDir files (.split entry path gguf)) :
    WholeShards hash json side modelsDir
      (startSplit ar ar32 hash json side entry path gguf modelsDir files).2 := by
  obtain ⟨hplain, hagrees⟩ := hok
  rcases startSplit_cases ar ar32 hash json side entry path gguf modelsDir files with
    ⟨-, hsame⟩ | ⟨outcome, files₁, hrun, hsplit, hdone⟩
  · rw [hsame]
    exact h
  · rw [hdone]
    set root := shardDir modelsDir entry.modelCid with hroot
    have hne : ∀ p, p ≠ ["kept_ranges.json"] → ∀ v, (files₁.insert (root ++ ["kept_ranges.json"])
        v).lookup (root ++ p) = files₁.lookup (root ++ p) := fun p hp v =>
      AList.lookup_insert_ne fun heq => hp (List.append_cancel_left heq)
    refine h.at_root hplain ?_ ⟨fun bytes hbytes => ?_, fun bytes hbytes => ?_,
      fun bytes k hbytes hk => ?_⟩
    · refine (hsplit.frame.mono fun p hp => ?_).trans (agreeOff_insert (List.prefix_append _ _) _ _)
      cases hp with
      | manifest => exact List.prefix_append _ _
      | chunk name => exact List.prefix_append _ _
    · rw [hne _ (by simp), hsplit.listing] at hbytes
      obtain rfl := Option.some.inj hbytes
      refine ⟨outcome.manifest, hjson _, fun c hc => ?_⟩
      obtain ⟨hhash, hsome⟩ := hsplit.chunks c hc
      refine ⟨hhash, ?_⟩
      rw [chunkLocation, hne _ (by simp)]
      exact hsome
    · rw [hne _ (by simp), hsplit.frame _ (not_chunkerPlace_entry root (by decide))] at hbytes
      have hwhole := h entry.modelCid
      rw [← shardDir_plain hplain] at hwhole
      obtain ⟨src, -, rfl, -, -⟩ := hwhole.source bytes hbytes
      have hfield := hagrees outcome files₁ hrun _ hbytes
      rw [hside.field] at hfield
      refine ⟨src, json.toJsonBytes outcome.manifest, rfl, ?_, ?_⟩
      · rw [hne _ (by simp)]
        exact hsplit.listing
      · rw [← hsplit.cid]
        exact Option.some.inj hfield
    · rw [AList.lookup_insert] at hbytes
      obtain rfl := Option.some.inj hbytes
      refine ⟨by rw [splitSidecar_read hside hk], ?_⟩
      rw [hne _ (by simp), hsplit.listing]
      rfl

/-! A pull. -/

theorem not_fetchPlace_entry (root : Location) (manifestCid name : String) :
    ¬ FetchPlace root manifestCid (root ++ [name]) := by
  intro h
  generalize hp : root ++ [name] = p at h
  cases h
  all_goals
    have hnames := List.append_cancel_left hp
    simp at hnames

theorem FetchPlace.pullPlace {manifestCid : String} {p : Location}
    (h : FetchPlace root manifestCid p) : PullPlace root manifestCid p := by
  cases h with
  | manifest => exact .manifest
  | chunk name => exact .chunk name

theorem PullPlace.within {manifestCid : String} {p : Location} (h : PullPlace root manifestCid p) :
    root <+: p := by
  cases h with
  | manifest | chunk | kept | source => exact List.prefix_append _ _

private theorem Pulled.keeps_source {modelCid : String} {range : UInt16 × UInt16}
    {provider : ProviderRecord} {server : ChunkServer} {events : List SwarmPullEvent}
    {fetched : Files} {bytes : Bytes} {manifest : Manifest} {wanted : List Chunk}
    (h : Pulled hash json side modelCid range provider root server files events files' bytes
      manifest wanted fetched) :
    ∃ src, files'.lookup (root ++ ["pull_source.json"]) = some (side.sourceToBytes src) ∧
      src.manifestCid = hash.cidStringFor bytes := by
  obtain ⟨url, rfl⟩ := h.sidecars
  unfold persistSidecars
  rw [join_plain plain_pullSource]
  exact ⟨_, AList.lookup_insert _, rfl⟩

private theorem pull_whole (hbase : hash.Base32) (hside : side.RoundTrips) {modelCid : String}
    {range : UInt16 × UInt16} {provider : ProviderRecord} {server : ChunkServer}
    (h : WholeShards hash json side modelsDir files)
    (hok : Consistent ar ar32 hash json side modelsDir files
      (.pull modelCid range provider server)) :
    WholeShards hash json side modelsDir
      (startPull hash json side modelCid range provider modelsDir server files).2 := by
  obtain ⟨hplain, hchunks, hagrees⟩ := hok
  have hrun : startPull hash json side modelCid range provider modelsDir server files = (_, _) :=
    Prod.mk.eta.symm
  set events := (startPull hash json side modelCid range provider modelsDir server files).1
  set files' := (startPull hash json side modelCid range provider modelsDir server files).2
  set root := shardDir modelsDir modelCid with hroot
  have hwhole := h modelCid
  rw [← shardDir_plain hplain, ← hroot] at hwhole
  by_cases hdone : ∃ kept shardRoot, SwarmPullEvent.done kept shardRoot ∈ events
  · obtain ⟨kept, shardRoot, hmem⟩ := hdone
    obtain ⟨bytes, manifest, wanted, fetched, hpulled⟩ := startPull_done hbase hrun hmem
    obtain ⟨listing, hlisting, hcid⟩ := hagrees ⟨kept, shardRoot, hmem⟩ bytes hpulled.sent
    have hframe := hpulled.outside
    refine h.at_root hplain (hframe.mono fun p hp => hp.within) ?_
    refine hwhole.sidecars (hframe _ (not_pullPlace_entry (by decide) (by decide)))
      (fun cid => hframe _ (not_pullPlace root _ cid).1) (fun b hb => ?_) fun b k hb hk => ?_
    · obtain ⟨src, hsource, hsrc⟩ := hpulled.keeps_source
      rw [hsource] at hb
      exact ⟨src, listing, (Option.some.inj hb).symm, hlisting, hsrc.trans hcid.symm⟩
    · have hkept := hpulled.keeps_ranges
      rw [join_plain plain_kept, hb] at hkept
      rw [Option.some.inj hkept, hside.kept] at hk
      obtain rfl := Option.some.inj hk
      exact ⟨rfl, Option.isSome_iff_exists.mpr ⟨_, hlisting⟩⟩
  · have hundone : ∀ kept shardRoot, SwarmPullEvent.done kept shardRoot ∉ events :=
      fun kept shardRoot hmem => hdone ⟨kept, shardRoot, hmem⟩
    obtain ⟨manifestCid, hframe⟩ := startPull_undone hbase hrun hundone hchunks
    have hentry : ∀ name, files'.lookup (root ++ [name]) = files.lookup (root ++ [name]) :=
      fun name => hframe _ (not_fetchPlace_entry root manifestCid name)
    refine h.at_root hplain (hframe.mono fun p hp => hp.pullPlace.within) ?_
    refine hwhole.sidecars (hentry _) (fun cid => ?_) (fun b hb => ?_) fun b k hb hk => ?_
    · exact hframe _ fun hp => (not_pullPlace root manifestCid cid).1 hp.pullPlace
    · exact hwhole.source b (hentry _ ▸ hb)
    · exact hwhole.kept b k (hentry _ ▸ hb) hk

/-! Runs. -/

private theorem contribute_whole (hbase : hash.Base32) (hjson : json.RoundTrips)
    (hside : side.RoundTrips) {c : Contribution} (h : WholeShards hash json side modelsDir files)
    (hok : Consistent ar ar32 hash json side modelsDir files c)
    (hstep : contribute ar ar32 hash json side modelsDir files c = some files') :
    WholeShards hash json side modelsDir files' := by
  cases c with
  | split entry path gguf =>
      obtain rfl := Option.some.inj hstep
      exact split_whole hjson hside h hok
  | pull modelCid range provider server =>
      obtain rfl := Option.some.inj hstep
      exact pull_whole hbase hside h hok

private theorem whole_start (hfresh : ∀ p, files.lookup (join modelsDir ".shards" ++ p) = none) :
    WholeShards hash json side modelsDir files := by
  intro name
  have hnone : ∀ p, files.lookup (join modelsDir ".shards" ++ [name] ++ p) = none := fun p => by
    rw [List.append_assoc]
    exact hfresh _
  refine ⟨fun bytes hbytes => ?_, fun bytes hbytes => ?_, fun bytes k hbytes _ => ?_⟩
  all_goals
    rw [hnone] at hbytes
    cases hbytes

/-! The announcer and the server. -/

private theorem manifestCidFor_whole (hside : side.RoundTrips)
    (h : WholeShard hash json side modelsDir files root) {bytes : Bytes}
    (hlisting : files.lookup (root ++ ["manifest.json"]) = some bytes) :
    manifestCidFor hash json side files root = some (hash.cidStringFor bytes) := by
  unfold manifestCidFor
  rw [join_plain plain_pullSource, join_plain plain_manifest]
  cases hsource : files.lookup (root ++ ["pull_source.json"]) with
  | none =>
      obtain ⟨manifest, hparsed, -⟩ := h.listing bytes hlisting
      simp only [Option.bind_none, hlisting]
      change (json.fromJsonBytes bytes >>= fun _ => some _) = _
      rw [hparsed]
      rfl
  | some b =>
      obtain ⟨src, listing, rfl, hlisting', hcid⟩ := h.source b hsource
      obtain rfl := Option.some.inj (hlisting.symm.trans hlisting')
      simp only [Option.bind_some, hside.source, hcid]

private theorem shardMatches_whole (hside : side.RoundTrips)
    (h : WholeShard hash json side modelsDir files root) (c : String) :
    shardMatches hash side.manifestCidField files root c = true ↔
      ∃ bytes, files.lookup (root ++ ["manifest.json"]) = some bytes ∧
        hash.cidStringFor bytes = c := by
  unfold shardMatches
  rw [join_plain plain_pullSource, join_plain plain_manifest, Bool.or_eq_true, decide_eq_true_iff,
    decide_eq_true_iff, Option.bind_eq_some_iff, Option.map_eq_some_iff]
  constructor
  · rintro (⟨b, hsource, hfield⟩ | hmanifest)
    · obtain ⟨src, listing, rfl, hlisting, hcid⟩ := h.source b hsource
      rw [hside.field] at hfield
      exact ⟨listing, hlisting, hcid ▸ Option.some.inj hfield⟩
    · exact hmanifest
  · exact .inr

private theorem resolveShard_whole (hside : side.RoundTrips)
    (h : WholeShards hash json side modelsDir files) (ls : Listing files (join modelsDir ".shards"))
    {name : String} {bytes : Bytes}
    (hlisting : files.lookup (join modelsDir ".shards" ++ [name, "manifest.json"]) = some bytes) :
    ∃ name' listing, resolveShard hash side.manifestCidField files (join modelsDir ".shards") ls
        (hash.cidStringFor bytes) = some (join modelsDir ".shards" ++ [name']) ∧
      files.lookup (join modelsDir ".shards" ++ [name'] ++ ["manifest.json"]) = some listing ∧
      hash.cidStringFor listing = hash.cidStringFor bytes := by
  have hname : name ∈ ls.names := by
    rw [ls.mem_iff]
    exact ⟨["manifest.json"], Option.isSome_iff_exists.mpr ⟨bytes, hlisting⟩⟩
  have hsome : (resolveShard hash side.manifestCidField files (join modelsDir ".shards") ls
      (hash.cidStringFor bytes)).isSome := by
    unfold resolveShard
    rw [List.find?_isSome]
    refine ⟨_, List.mem_map.mpr ⟨name, hname, rfl⟩, ?_⟩
    rw [shardMatches_whole hside (h name)]
    refine ⟨bytes, ?_, rfl⟩
    rw [List.append_assoc]
    exact hlisting
  obtain ⟨dir, hdir⟩ := Option.isSome_iff_exists.mp hsome
  obtain ⟨name', -, rfl⟩ := List.mem_map.mp (List.mem_of_find?_eq_some hdir)
  have hmatch := List.find?_some hdir
  rw [shardMatches_whole hside (h name')] at hmatch
  obtain ⟨listing, hlisting', hcid⟩ := hmatch
  exact ⟨name', listing, hdir, hlisting', hcid⟩

private theorem served_whole (hbase : hash.Base32) (hside : side.RoundTrips)
    (h : WholeShards hash json side modelsDir files) (ls : Listing files (join modelsDir ".shards"))
    (range : UInt16 × UInt16) {name : String} {bytes : Bytes}
    (hlisting : files.lookup (join modelsDir ".shards" ++ [name, "manifest.json"]) = some bytes)
    {record : ProviderRecord} (hrecord : record.manifestCid = some (hash.cidStringFor bytes)) :
    RecordServed hash json side files (join modelsDir ".shards") ls range record := by
  obtain ⟨name', listing, hresolve, hlisting', hcid⟩ := resolveShard_whole hside h ls hlisting
  obtain ⟨manifest, hparsed, hchunks⟩ := (h name').listing listing hlisting'
  have hread : files.lookup (join (join modelsDir ".shards" ++ [name']) "manifest.json") =
      some listing := by
    rw [join_plain plain_manifest]
    exact hlisting'
  refine ⟨_, _, listing, manifest, hrecord, hresolve, hread, hcid, hparsed, ?_, ?_⟩
  · simp only [serveMultiManifest, hresolve, readFile_ok.mpr hread]
  · intro chunk hchunk
    have hmem : chunk ∈ manifest.chunks := by
      rcases hchunk with rfl | ⟨names, -, b, hb, -, rfl⟩
      · exact List.mem_cons_self
      · exact List.mem_cons_of_mem _ (List.mem_map.mpr ⟨b, hb, rfl⟩)
    obtain ⟨⟨source, hsource⟩, hsome⟩ := hchunks chunk hmem
    obtain ⟨content, hcontent⟩ := Option.isSome_iff_exists.mp hsome
    have hplain : '/' ∉ chunk.cid.toList := hsource ▸ hbase.noSlash source
    have hfound : files.lookup (join (join (join modelsDir ".shards" ++ [name']) "chunks")
        (chunk.cid ++ ".bin")) = some content := by
      rw [join_chunk hplain]
      exact hcontent
    have hname : isValidChunkFilename (chunk.cid ++ ".bin") = true :=
      hsource ▸ isValidChunkFilename_cid hbase source
    refine ⟨content, hfound, ?_⟩
    simp only [serveMultiChunk, hname, if_true, hresolve, hfound]

theorem shardsOnDisk_lookup {shardsRoot : Location} {names : List String} {name : String}
    (h : name ∈ names) :
    (shardsOnDisk side files shardsRoot names).lookup name = some
      { kept := (files.lookup (join (shardsRoot ++ [name]) "kept_ranges.json")).bind
          side.keptFromBytes
        disabled := (files.lookup (join (shardsRoot ++ [name]) "disabled_ranges.json")).bind
          side.disabledFromBytes } := by
  induction names with
  | nil => cases h
  | cons n names ih =>
      unfold shardsOnDisk
      rw [List.foldr_cons]
      by_cases hn : name = n
      · subst hn
        rw [AList.lookup_insert]
      · rw [AList.lookup_insert_ne hn]
        exact ih ((List.mem_cons.mp h).resolve_left hn)

private theorem scan_whole (h : WholeShards hash json side modelsDir files)
    {names : List String} {k : KeptRanges}
    (hk : k ∈ scanKeptRanges (shardsOnDisk side files (join modelsDir ".shards") names) names) :
    k.kept ≠ [] ∧ ∃ name bytes, shardDir modelsDir k.modelCid = join modelsDir ".shards" ++ [name] ∧
      files.lookup (join modelsDir ".shards" ++ [name] ++ ["manifest.json"]) = some bytes := by
  obtain ⟨name, hname, hk⟩ := List.mem_filterMap.mp hk
  obtain ⟨k₀, hkept, hk⟩ := Option.bind_eq_some_iff.mp hk
  obtain ⟨hne, hk⟩ := Option.ite_none_left_eq_some.mp hk
  obtain rfl := Option.some.inj hk
  rw [Shards.kept, shardsOnDisk_lookup hname, Option.bind_some] at hkept
  obtain ⟨b, hb, hparsed⟩ := Option.bind_eq_some_iff.mp hkept
  rw [join_plain plain_kept] at hb
  obtain ⟨hdir, hsome⟩ := (h name).kept b k₀ hb hparsed
  obtain ⟨bytes, hbytes⟩ := Option.isSome_iff_exists.mp hsome
  exact ⟨hne, name, bytes, hdir, hbytes⟩

/-- Where the models directory is the working directory, and every contribution is consistent with
the disk it finds, each record announced is served, in whatever order the directories are
scanned. -/
theorem announced_served (ar ar32 : Arith) (hash : Hashing) (json : ManifestJson)
    (side : SidecarJson) (hbase : hash.Base32) (hjson : json.RoundTrips) (hside : side.RoundTrips)
    (cwd : Location) (path : String) (hcwd : join cwd path = cwd) (start files : Files)
    (hfresh : ∀ p, start.lookup (join (join cwd path) ".shards" ++ p) = none)
    (contributions : List Contribution)
    (hrun : Transition.Run (contribute ar ar32 hash json side (join cwd path))
      (Consistent ar ar32 hash json side (join cwd path)) start contributions files)
    (cfg : NodeConfig) (mintedAt : UInt64) (veto : SliceKey → Bool)
    (scan serve : Listing files (join (join cwd path) ".shards")) :
    ∀ pub ∈ announced hash json side files cfg mintedAt cwd (join cwd path) veto scan,
      RecordServed hash json side files (join (join cwd path) ".shards") serve pub.1.2 pub.2 := by
  have hwhole : WholeShards hash json side (join cwd path) files :=
    hrun.invariant (whole_start hfresh) fun x c y hx hok hstep =>
      contribute_whole hbase hjson hside hx hok hstep
  intro pub hpub
  obtain ⟨k, hk, hpub⟩ := List.mem_flatMap.mp hpub
  obtain ⟨hne, name, bytes, hdir, hlisting⟩ := scan_whole hwhole hk
  obtain ⟨r, -, rfl⟩ := List.mem_map.mp hpub
  rw [hcwd] at hdir
  have hcid : manifestCidFor hash json side files (shardDir cwd k.modelCid) =
      some (hash.cidStringFor bytes) := by
    rw [hdir]
    rw [hcwd] at hwhole hlisting
    exact manifestCidFor_whole hside (hwhole name) hlisting
  rw [List.append_assoc] at hlisting
  refine served_whole hbase hside hwhole serve r hlisting ?_
  rw [if_neg hne]
  exact hcid

/-! A split of a models directory elsewhere. -/

def twinEntry : CatalogEntry where
  modelCid := "twins"
  displayName := "Twins"
  blockCount := 1
  defaultSplits := []

private theorem twins_split (json : ManifestJson) (dir : Location) : ∃ outcome files',
    chunkGguf release release32 longHash json twinFile ⟨dir, true, false⟩ ∅ =
      .ok (outcome, files') := by
  have hword : twins.word <+: twinFile.bytes := List.prefix_append _ _
  have hstart : (twins.gguf twinFile).tensorDataOffset = 128 := by decide +kernel
  have hlen : twinFile.bytes.length = 192 := by decide +kernel
  have hdata : (twins.gguf twinFile).tensorDataOffset ≤ twinFile.bytes.length := by omega
  obtain ⟨ts, hts, hmeasured⟩ := tensors_measured words_release hword hdata (by
    rw [hstart, hlen]
    decide)
  have hrunning : ({ outputDir := dir, overwrite := true, dryRun := false } :
      ChunkerOptions).dryRun = false := rfl
  obtain ⟨d, -, hrun⟩ := chunkGguf_eq longHash words_release hword hdata hts json
    ⟨dir, true, false⟩ ∅
  have hmmap : (twins.gguf twinFile).mmap = twinFile := rfl
  have hempty : ∀ p ∈ (∅ : Files).keys, ¬ dir <+: p := by
    intro p hp
    rw [AList.keys_empty] at hp
    cases hp
  have hheader : (twinFile.bytes.take (twins.gguf twinFile).tensorDataOffset).length ≤
      (twins.gguf twinFile).tensorDataOffset := by
    rw [List.length_take]
    exact Nat.min_le_left _ _
  obtain ⟨_, _, hpretty, -⟩ := chunkParsed_complete words_release longHash_injective
    prettyJson_roundTrips hmmap (Eq.refl _) hdata hmeasured (fun t _ => layerRange_release _) d
    hheader hrunning hempty fun _ _ => nofun
  obtain ⟨outcome, files', hparsed⟩ := chunkParsed_json (fun _ _ => rfl) hrunning hpretty json
  exact ⟨outcome, files', hrun.trans hparsed⟩

theorem PathBuf.toStr_utf8 (text : String) : PathBuf.toStr (utf8 text) = some text :=
  Text.fromUTF8?_eq_some.mpr rfl

theorem startSplit_empty (json : ManifestJson) (entry : CatalogEntry) (path : String)
    (modelsDir : Location) :
    ∃ outcome files, Split longHash json (shardDir modelsDir entry.modelCid) ∅ outcome files ∧
      startSplit release release32 longHash json prettySidecars entry (utf8 path) twinFile
          modelsDir ∅ = ([.started (utf8 path) (shardDir modelsDir entry.modelCid),
            .done outcome.manifestCid outcome.nBundles outcome.bytesWritten
              (defaultKeptRanges entry) (shardDir modelsDir entry.modelCid)],
          files.insert (shardDir modelsDir entry.modelCid ++ ["kept_ranges.json"])
            (prettySidecars.keptToBytes ⟨entry.modelCid, entry.displayName, entry.blockCount, path,
              defaultKeptRanges entry⟩)) := by
  obtain ⟨outcome, files, hrun⟩ := twins_split json (shardDir modelsDir entry.modelCid)
  refine ⟨outcome, files, chunkGguf_split rfl hrun, ?_⟩
  unfold startSplit splitSidecar
  dsimp only
  rw [hrun, join_plain plain_kept, PathBuf.toStr_utf8]
  rfl

def twinRanges : KeptRanges := ⟨"twins", "Twins", 1, "/models/twins.gguf", [(0, 1)]⟩

/-- What a split leaves of an empty disk: a shard with a manifest that every scan finds. -/
structure HostedTwins (modelsDir : Location) (files : Files) : Prop where
  frame : AgreeOff (fun p => join modelsDir ".shards" <+: p) ∅ files
  listing : (files.lookup (shardDir modelsDir "twins" ++ ["manifest.json"])).isSome
  scanned : ∀ scan : Listing files (join modelsDir ".shards"), twinRanges ∈
    scanKeptRanges (shardsOnDisk prettySidecars files (join modelsDir ".shards") scan.names)
      scan.names

theorem plain_twins : PlainName "twins" := ⟨by decide, by decide, by decide, by decide⟩

private theorem twins_contributed (modelsDir : Location) :
    ∃ files, contribute release release32 longHash prettyJson prettySidecars modelsDir ∅
        (.split twinEntry (utf8 "/models/twins.gguf") twinFile) = some files ∧
          HostedTwins modelsDir files := by
  obtain ⟨outcome, files₁, hsplit, hrun⟩ :=
    startSplit_empty prettyJson twinEntry "/models/twins.gguf" modelsDir
  have hentry : twinEntry.modelCid = "twins" := rfl
  rw [hentry] at hsplit hrun
  set root := shardDir modelsDir "twins" with hroot
  set files := files₁.insert (root ++ ["kept_ranges.json"]) (prettySidecars.keptToBytes twinRanges)
    with hfiles
  have hlisting : files.lookup (root ++ ["manifest.json"]) =
      some (prettyJson.toJsonBytes outcome.manifest) := by
    rw [hfiles, AList.lookup_insert_ne (by simp)]
    exact hsplit.listing
  have hdisabled : files.lookup (root ++ ["disabled_ranges.json"]) = none := by
    rw [hfiles, AList.lookup_insert_ne (by simp),
      hsplit.frame _ (not_chunkerPlace_entry _ (by decide))]
    exact AList.lookup_empty _
  refine ⟨files, ?_, ?_, ?_, fun scan => ?_⟩
  · rw [contribute, hrun]
    rfl
  · have hshards : join modelsDir ".shards" <+: root := by
      rw [hroot, shardDir_plain plain_twins]
      exact List.prefix_append _ _
    refine (hsplit.frame.mono fun p hp => ?_).trans
      (agreeOff_insert (hshards.trans (List.prefix_append _ _)) _ _)
    cases hp with
    | manifest | chunk => exact hshards.trans (List.prefix_append _ _)
  · exact Option.isSome_iff_exists.mpr ⟨_, hlisting⟩
  · rw [hroot, shardDir_plain plain_twins] at hlisting hdisabled
    have hname : "twins" ∈ scan.names := by
      rw [scan.mem_iff]
      rw [List.append_assoc] at hlisting
      exact ⟨["manifest.json"], Option.isSome_iff_exists.mpr ⟨_, hlisting⟩⟩
    have hkept : files.lookup (join modelsDir ".shards" ++ ["twins"] ++ ["kept_ranges.json"]) =
        some (prettySidecars.keptToBytes twinRanges) := by
      rw [← shardDir_plain plain_twins, ← hroot, hfiles, AList.lookup_insert]
    refine List.mem_filterMap.mpr ⟨"twins", hname, ?_⟩
    rw [Shards.kept, Shards.loadDisabled, shardsOnDisk_lookup hname, join_plain plain_kept,
      join_plain plain_disabled, hkept, hdisabled, Option.bind_some, Option.bind_some,
      Option.bind_some, prettySidecars_roundTrips.kept]
    rfl

theorem HostedTwins.announced {modelsDir : Location} (h : HostedTwins modelsDir files)
    (cfg : NodeConfig)
    (mintedAt : UInt64) (cwd : Location) (scan : Listing files (join modelsDir ".shards")) :
    (("twins", 0, 1), cfg.record mintedAt (manifestCidFor longHash prettyJson prettySidecars files
        (shardDir cwd "twins"))) ∈
      announced longHash prettyJson prettySidecars files cfg mintedAt cwd modelsDir
        (fun _ => false) scan := by
  refine List.mem_flatMap.mpr ⟨twinRanges, h.scanned scan, ?_⟩
  have hne : twinRanges.kept ≠ [] := List.cons_ne_nil _ _
  dsimp only
  rw [if_neg hne]
  exact List.mem_map.mpr ⟨(0, 1), by decide, rfl⟩

/-- A split is served from the working directory. -/
theorem announced_served_split :
    ∃ files', contribute release release32 longHash prettyJson prettySidecars
        (join ["models"] "") ∅ (.split twinEntry (utf8 "/models/twins.gguf") twinFile) =
          some files' ∧
      ∀ (cfg : NodeConfig) (mintedAt : UInt64)
        (scan serve : Listing files' (join (join ["models"] "") ".shards")),
        ∃ pub ∈ announced longHash prettyJson prettySidecars files' cfg mintedAt ["models"]
            (join ["models"] "") (fun _ => false) scan,
          pub.1 = ("twins", 0, 1) ∧ RecordServed longHash prettyJson prettySidecars files'
            (join (join ["models"] "") ".shards") serve pub.1.2 pub.2 := by
  obtain ⟨files', hcontribute, hhosted⟩ := twins_contributed (join ["models"] "")
  refine ⟨files', hcontribute, fun cfg mintedAt scan serve => ?_⟩
  have hconsistent : Consistent release release32 longHash prettyJson prettySidecars
      (join ["models"] "") ∅ (.split twinEntry (utf8 "/models/twins.gguf") twinFile) := by
    refine ⟨plain_twins, fun outcome files₁ hrun bytes hbytes => ?_⟩
    rw [AList.lookup_empty] at hbytes
    cases hbytes
  have hmem := hhosted.announced cfg mintedAt ["models"] scan
  refine ⟨_, hmem, rfl, ?_⟩
  exact announced_served release release32 longHash prettyJson prettySidecars longHash_base32
    prettyJson_roundTrips prettySidecars_roundTrips ["models"] "" (by decide) ∅ files'
    (fun p => AList.lookup_empty _) [.split twinEntry (utf8 "/models/twins.gguf") twinFile]
    (.snoc .nil hconsistent hcontribute) cfg mintedAt (fun _ => false) scan serve _ hmem

private theorem manifestCidFor_elsewhere {touched : Location → Prop} (h : AgreeOff touched ∅ files)
    (hroot : ∀ name, ¬ touched (root ++ [name])) :
    manifestCidFor hash json side files root = none := by
  have hnone : ∀ name, files.lookup (root ++ [name]) = none := fun name =>
    (h _ (hroot name)).trans (AList.lookup_empty _)
  unfold manifestCidFor
  rw [join_plain plain_pullSource, join_plain plain_manifest, hnone, hnone]
  rfl

/-- From another working directory a split is announced without its manifest. -/
theorem split_elsewhere_unserved :
    ∃ files', contribute release release32 longHash prettyJson prettySidecars
        (join ["home"] "/models") ∅ (.split twinEntry (utf8 "/models/twins.gguf") twinFile) =
          some files' ∧
      (files'.lookup (shardDir (join ["home"] "/models") "twins" ++ ["manifest.json"])).isSome ∧
      ∀ (cfg : NodeConfig) (mintedAt : UInt64)
        (scan serve : Listing files' (join (join ["home"] "/models") ".shards")),
        ∃ pub ∈ announced longHash prettyJson prettySidecars files' cfg mintedAt ["home"]
            (join ["home"] "/models") (fun _ => false) scan,
          pub.1 = ("twins", 0, 1) ∧ pub.2.manifestCid = none ∧
          ¬ RecordServed longHash prettyJson prettySidecars files'
            (join (join ["home"] "/models") ".shards") serve pub.1.2 pub.2 := by
  obtain ⟨files', hcontribute, hhosted⟩ := twins_contributed (join ["home"] "/models")
  have hcid : manifestCidFor longHash prettyJson prettySidecars files' (shardDir ["home"] "twins") =
      none := by
    refine manifestCidFor_elsewhere hhosted.frame fun name hprefix => ?_
    have hmodels : join (join ["home"] "/models") ".shards" = ["models", ".shards"] := by decide
    have hhome : join ["home"] ".shards" = ["home", ".shards"] := by decide
    rw [shardDir_plain plain_twins, hmodels, hhome] at hprefix
    exact absurd (List.cons_prefix_cons.mp hprefix).1 (by decide)
  refine ⟨files', hcontribute, hhosted.listing, fun cfg mintedAt scan serve => ?_⟩
  have hmem := hhosted.announced cfg mintedAt ["home"] scan
  rw [hcid] at hmem
  refine ⟨_, hmem, rfl, rfl, ?_⟩
  rintro ⟨c, -, -, -, hrecord, -⟩
  cases hrecord

end IntelNav.App
