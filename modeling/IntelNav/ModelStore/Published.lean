import IntelNav.ModelStore.Serve
import IntelNav.ModelStore.StitchedModel

/-! A split model that is served, pulled and stitched by somebody else: the pulled cache is as good
as the directory it was pulled from. -/

set_option autoImplicit false
set_option relaxedAutoImplicit false

namespace IntelNav.ModelStore

open IntelNav.Disk IntelNav.Layout IntelNav.Reading

variable {ar ar32 : Arith} {hash : Hashing}

/-- The server sends what it serves for a directory, whole and in any pieces. -/
structure ChunkServer.Publishes (server : ChunkServer) (files : Files)
    (root : Location) : Prop where
  manifest : ∀ body, serveManifest files root = .ok body → ∃ reply, server.manifest = some reply ∧
    sentBytes reply.body = some body ∧ ∀ len ∈ reply.contentLength, len = body.length
  chunk : ∀ cid body, serveChunk files root (cid ++ ".bin") = .ok body →
    ∃ reply, server.chunk cid 0 = some reply ∧ sentBytes reply.body = some body

theorem ChunkServer.Publishes.offers {server : ChunkServer} {files : Files} {root : Location}
    (h : server.Publishes files root) {bytes : Bytes} {cap : Nat}
    (hfile : files.lookup (root ++ ["manifest.json"]) = some bytes) (hcap : bytes.length ≤ cap) :
    server.Offers cap bytes := by
  have hserved : serveManifest files root = .ok bytes := by
    unfold serveManifest
    rw [join_plain plain_manifest, readFile_ok.mpr hfile]
  obtain ⟨reply, hreply, hsent, hlen⟩ := h.manifest bytes hserved
  exact ⟨reply, hreply, hsent, hcap, fun len hmem => hlen len hmem ▸ hcap⟩

theorem ChunkServer.Publishes.serves (hbase : hash.Base32) {server : ChunkServer} {files : Files}
    {root : Location} (h : server.Publishes files root) {bytes : Bytes}
    (hstored : StoredAs hash root files bytes) :
    server.Serves hash ⟨hash.cidStringFor bytes, bytes.length⟩ := by
  have hserved : serveChunk files root (hash.cidStringFor bytes ++ ".bin") = .ok bytes := by
    unfold serveChunk
    rw [if_pos (isValidChunkFilename_cid hbase bytes), join_chunk (hbase.noSlash bytes), hstored]
  obtain ⟨reply, hreply, hsent⟩ := h.chunk _ bytes hserved
  exact ⟨reply, bytes, hreply, hsent, rfl, rfl⟩

section Fetch

variable {chunksDir : Location} {chunk : Chunk} {resume : Bool} {server : ChunkServer}
  {files : Files} {chunks : List Chunk}

def NothingToResume (files : Files) (chunksDir : Location) (resume : Bool) (chunk : Chunk) : Prop :=
  (resumePoint files (join chunksDir (chunk.cid ++ ".bin.tmp")) chunk resume).1 = 0

private theorem resumePoint_congr {files' : Files} {tmp : Location}
    (h : files'.lookup tmp = files.lookup tmp) :
    (resumePoint files' tmp chunk resume).1 = (resumePoint files tmp chunk resume).1 := by
  unfold resumePoint
  rw [h]
  cases files.lookup tmp with
  | none => rfl
  | some existing =>
      dsimp only
      split_ifs <;> rfl

private theorem downloadChunk_served (hserves : server.Serves hash chunk)
    (hclean : NothingToResume files chunksDir resume chunk) :
    ∃ r, (downloadChunk hash chunksDir chunk resume server files).1 = .ok r := by
  obtain ⟨reply, bytes, hreply, hsent, hsize, hcid⟩ := hserves
  have hstart : ∀ files, startDownload files (join chunksDir (chunk.cid ++ ".bin.tmp")) 0 reply =
      ⟨[], [], 0⟩ := fun files => if_neg (by simp)
  have hzero : (resumePoint files (join chunksDir (chunk.cid ++ ".bin.tmp")) chunk resume).1 = 0 :=
    hclean
  refine ⟨⟨chunk.size, false⟩, ?_⟩
  simp only [downloadChunk, hzero, hreply, hstart, stream_sent _ hsent]
  simp [finishDownload, hsize, hcid]

private theorem fetchOne_again (hserves : server.Serves hash chunk)
    (hplain : '/' ∉ chunk.cid.toList) (hclean : NothingToResume files chunksDir resume chunk) :
    ∃ r, (fetchOne hash chunksDir chunk resume server files).1 = .ok r := by
  unfold fetchOne
  dsimp only
  split
  · split_ifs
    · exact ⟨_, rfl⟩
    · refine downloadChunk_served hserves ?_
      rw [NothingToResume, resumePoint_congr (AList.lookup_erase_ne ?_)]
      · exact hclean
      · rw [join_tmp hplain, join_bin hplain]
        intro heq
        have hnames := List.append_cancel_left heq
        simp only [List.cons.injEq, and_true] at hnames
        refine tmp_ne_bin (chunk.cid ++ ".bin") chunk.cid (Eq.trans ?_ hnames)
        rw [String.append_assoc]
        rfl
  · exact downloadChunk_served hserves hclean

private theorem fetchEach_again (hplain : ∀ c ∈ chunks, '/' ∉ c.cid.toList)
    (hnodup : (chunks.map Chunk.cid).Nodup) (hserves : ∀ c ∈ chunks, server.Serves hash c)
    (hclean : ∀ c ∈ chunks, NothingToResume files chunksDir resume c) :
    ∃ fetches, (fetchEach hash chunksDir resume server chunks files).1.mapM id = .ok fetches := by
  induction chunks generalizing files with
  | nil => exact ⟨[], rfl⟩
  | cons c chunks ih =>
      rw [List.map_cons, List.nodup_cons] at hnodup
      have hc := hplain c List.mem_cons_self
      obtain ⟨r, hfirst⟩ := fetchOne_again (hserves c List.mem_cons_self) hc
        (hclean c List.mem_cons_self)
      have hframe := fetchOne_frame hash chunksDir resume server files hc
      have hclean' : ∀ d ∈ chunks,
          NothingToResume (fetchOne hash chunksDir c resume server files).2 chunksDir resume d := by
        intro d hd
        rw [NothingToResume, resumePoint_congr (hframe _ ?_)]
        · exact hclean d (List.mem_cons_of_mem _ hd)
        · intro hplace
          have hown : ChunkPlace chunksDir d.cid (join chunksDir (d.cid ++ ".bin.tmp")) :=
            .inr (join_tmp (hplain d (List.mem_cons_of_mem _ hd)) chunksDir)
          exact hnodup.1 (List.mem_map.mpr ⟨d, hd, hown.unique hplace⟩)
      obtain ⟨fetches, hrest⟩ := ih (fun d hd => hplain d (List.mem_cons_of_mem _ hd)) hnodup.2
        (fun d hd => hserves d (List.mem_cons_of_mem _ hd)) hclean'
      refine ⟨r :: fetches, ?_⟩
      rw [fetchEach_cons, List.mapM_cons, hfirst]
      change ((fetchEach hash chunksDir resume server chunks _).1.mapM id >>= _) = _
      rw [hrest]
      rfl

private theorem fetchChunks_again (hbase : hash.Base32) (fetched : FetchedManifest)
    (opts : FetchOptions) {plan : FetchPlan} {wanted : List Chunk}
    (hwanted : wantedChunks fetched.manifest plan = .ok wanted)
    (hserves : ∀ c ∈ wanted, server.Serves hash c)
    (hclean : ∀ c ∈ wanted, NothingToResume files (join fetched.dir "chunks") opts.resume c) :
    ∃ outcome files', fetchChunks hash fetched plan opts server files = (.ok outcome, files') ∧
      outcome.manifestCid = fetched.manifestCid := by
  have hsub := dedupInPlace_sub [] wanted
  have hplain : ∀ c ∈ dedupInPlace [] wanted, '/' ∉ c.cid.toList := by
    intro c hc
    obtain ⟨reply, bytes, -, -, -, hcid⟩ := hserves c (hsub c hc)
    exact hcid ▸ hbase.noSlash bytes
  obtain ⟨fetches, hall⟩ := fetchEach_again hplain (dedupInPlace_nodup [] wanted).1
    (fun c hc => hserves c (hsub c hc)) (fun c hc => hclean c (hsub c hc))
  unfold fetchChunks
  rw [hwanted]
  dsimp only
  rw [hall]
  exact ⟨_, _, rfl, rfl⟩

end Fetch

section Same

variable {files files' : Files} {dir dir' : Location} {manifest : Manifest} {range : StitchRange}

/-- The chunk is found in both directories, with the same bytes, and these have its CID. -/
def SameChunk (hash : Hashing) (files : Files) (dir : Location) (files' : Files) (dir' : Location)
    (cid : String) : Prop :=
  ∃ bytes, files.lookup (chunksDirResolve files dir cid) = some bytes ∧
    files'.lookup (chunksDirResolve files' dir' cid) = some bytes ∧ hash.cidStringFor bytes = cid

theorem SameChunk.read {cid : String} (h : SameChunk hash files dir files' dir' cid) :
    readCachedChunk hash files dir cid = readCachedChunk hash files' dir' cid := by
  obtain ⟨bytes, hfile, hfile', hcid⟩ := h
  unfold readCachedChunk
  simp only [hfile, hfile', hcid, ne_eq, not_true_eq_false, if_false]

private theorem openBundles_same {bundles : List BundleEntry}
    (h : ∀ b ∈ bundles, includesBundle range b.name = .ok true →
      SameChunk hash files dir files' dir' b.cid) :
    openBundles files dir range bundles = openBundles files' dir' range bundles := by
  induction bundles with
  | nil => rfl
  | cons b bundles ih =>
      have hrest := ih fun c hc => h c (List.mem_cons_of_mem _ hc)
      rw [openBundles, openBundles, hrest]
      cases hincludes : includesBundle range b.name with
      | error e => rfl
      | ok included =>
          cases included with
          | false => rfl
          | true =>
              obtain ⟨bytes, hfile, hfile', -⟩ := h b List.mem_cons_self hincludes
              simp only [hfile, hfile']

private theorem stitchSubset_same
    (hheader : SameChunk hash files dir files' dir' manifest.headerChunk.cid)
    (hbundles : ∀ b ∈ manifest.bundles, includesBundle range b.name = .ok true →
      SameChunk hash files dir files' dir' b.cid) (outPath : Location) :
    (stitchSubset ar hash manifest dir range outPath files).1 =
        (stitchSubset ar hash manifest dir' range outPath files').1 ∧
      ∀ out after, stitchSubset ar hash manifest dir range outPath files = (.ok out, after) →
        (stitchSubset ar hash manifest dir' range outPath files').2.lookup outPath =
          after.lookup outPath := by
  have hassemble : assemble ar hash files manifest dir range =
      assemble ar hash files' manifest dir' range := by
    unfold assemble
    rw [hheader.read, openBundles_same hbundles]
  unfold stitchSubset
  rw [hassemble]
  cases assemble ar hash files' manifest dir' range with
  | error e => exact ⟨rfl, fun out after h => by cases (Prod.mk.inj h).1⟩
  | ok a =>
      dsimp only
      cases (writeTensors ar a.alignment a.dataOffset a.header a.tensors).2 with
      | error e => exact ⟨rfl, fun out after h => by cases (Prod.mk.inj h).1⟩
      | ok u =>
          refine ⟨rfl, fun out after h => ?_⟩
          rw [← (Prod.mk.inj h).2]
          rw [(lookup_renameFile _ _ _ _).1, (lookup_renameFile _ _ _ _).1]

end Same

private theorem findBundle_mem {manifest : Manifest} {name : String} {c : Chunk}
    (h : findBundle manifest name = .ok c) : ∃ b ∈ manifest.bundles, b.chunk = c := by
  unfold findBundle at h
  split at h
  · rename_i b hb
    exact ⟨b, List.mem_of_find?_eq_some hb, Except.ok.inj h⟩
  · cases h

private theorem wantedChunks_listed {manifest : Manifest} {plan : FetchPlan} {wanted : List Chunk}
    (h : wantedChunks manifest plan = .ok wanted) :
    manifest.headerChunk ∈ wanted ∧
      ∀ c ∈ wanted, c = manifest.headerChunk ∨ ∃ b ∈ manifest.bundles, b.chunk = c := by
  cases plan with
  | full =>
      obtain rfl := Except.ok.inj h
      refine ⟨List.mem_cons_self, fun c hc => ?_⟩
      rw [List.mem_cons, List.mem_map] at hc
      exact hc
  | bundles names =>
      obtain ⟨chunks, hchunks, h⟩ := bind_ok h
      obtain rfl := Except.ok.inj h
      refine ⟨List.mem_cons_self, fun c hc => ?_⟩
      rcases List.mem_cons.mp hc with rfl | hc
      · exact .inl rfl
      · obtain ⟨name, -, hfind⟩ := (mem_mapM_ok hchunks c).mp hc
        exact .inr (findBundle_mem hfind)

section Pulled

variable {dir : Location} {files : Files} {g : Gguf} {manifest : Manifest}
  {kinds : List (BundleKind × List TensorIndexEntry)}

theorem ChunksOf.wanted (h : ChunksOf hash g dir files kinds manifest) {plan : FetchPlan}
    {wanted : List Chunk} (hwanted : wantedChunks manifest plan = .ok wanted) {c : Chunk}
    (hc : c ∈ wanted) :
    ∃ bytes, StoredAs hash dir files bytes ∧ c = ⟨hash.cidStringFor bytes, bytes.length⟩ := by
  rcases (wantedChunks_listed hwanted).2 c hc with rfl | ⟨b, hb, rfl⟩
  · exact ⟨_, h.stored, h.header⟩
  · obtain ⟨k, -, hk⟩ := exists_of_forall₂ h.bundles hb
    exact ⟨_, hk.stored, hk.chunk⟩

private theorem chunkGguf_manifest {json : ManifestJson} {m : Mmap} {opts : ChunkerOptions}
    (hdry : opts.dryRun = false) {before : Files} {outcome : ChunkOutcome}
    (h : chunkGguf ar ar32 hash json m opts before = .ok (outcome, files)) :
    files.lookup (opts.outputDir ++ ["manifest.json"]) = some (json.toJsonBytes outcome.manifest) ∧
      outcome.manifestCid = hash.cidStringFor (json.toJsonBytes outcome.manifest) := by
  obtain ⟨g, kvs, d, ts, header, -, -, -, -, -, hparsed⟩ := chunkGguf_ok h
  obtain ⟨e, -, -, hcid, hfiles⟩ := chunkParsed_ok hparsed
  exact ⟨by rw [hfiles hdry, AList.lookup_insert], hcid⟩

private theorem fetchManifestOnly_published {json : ManifestJson} (hjson : json.RoundTrips)
    {server : ChunkServer} (hserver : server.Publishes files dir)
    (hfile : files.lookup (dir ++ ["manifest.json"]) = some (json.toJsonBytes manifest))
    (manifestUrl : String) (opts : FetchOptions)
    (hcap : (json.toJsonBytes manifest).length ≤ opts.maxManifestBytes) (cache : Files) :
    let cid := hash.cidStringFor (json.toJsonBytes manifest)
    fetchManifestOnly hash json manifestUrl opts server cache =
      .ok (⟨join opts.cacheRoot cid, manifest, cid, manifestUrl⟩,
        cache.insert (join (join opts.cacheRoot cid) "manifest.json")
          (json.toJsonBytes manifest)) := by
  have hbytes := fetchManifestBytes_offered (hserver.offers hfile hcap)
  unfold fetchManifestOnly
  rw [hbytes]
  simp only [bind, Except.bind, hjson manifest]

/-- A model that somebody splits and serves is stitched from the pulled chunks as it is stitched
where it was split, for every range whose bundles are pulled and whatever the cache held before. -/
theorem pulled_stitch_same (har : ar.Words 64) (hinj : Function.Injective hash.cidStringFor)
    (hbase : hash.Base32) {json : ManifestJson} (hjson : json.RoundTrips) {m : Mmap}
    {ts : List TensorIndexEntry} (hopen : Gguf.open ar m = .ok g) (hts : g.tensors ar = .ok ts)
    (hranges : ∀ t ∈ ts, g.Holds t)
    {copts : ChunkerOptions} (hdry : copts.dryRun = false) {before host : Files}
    {outcome : ChunkOutcome}
    (hchunk : chunkGguf ar ar32 hash json m copts before = .ok (outcome, host))
    {server : ChunkServer} (hserver : server.Publishes host copts.outputDir)
    (manifestUrl : String) {opts : FetchOptions}
    (hcap : (json.toJsonBytes outcome.manifest).length ≤ opts.maxManifestBytes)
    {plan : FetchPlan} {wanted : List Chunk}
    (hwanted : wantedChunks outcome.manifest plan = .ok wanted) {range : StitchRange}
    (hcovers : ∀ b ∈ outcome.manifest.bundles, includesBundle range b.name = .ok true →
      b.chunk ∈ wanted)
    {cache : Files} (hclean : ∀ c ∈ wanted, NothingToResume cache
      (join (join opts.cacheRoot outcome.manifestCid) "chunks") opts.resume c) :
    ∃ fetched cache₁ got cache₂,
      fetchManifestOnly hash json manifestUrl opts server cache = .ok (fetched, cache₁) ∧
        fetchChunks hash fetched plan opts server cache₁ = (.ok got, cache₂) ∧
        fetched.manifest = outcome.manifest ∧ got.manifestCid = outcome.manifestCid ∧
        ∀ outPath,
          (stitchSubset ar hash outcome.manifest fetched.dir range outPath cache₂).1 =
              (stitchSubset ar hash outcome.manifest copts.outputDir range outPath host).1 ∧
            ∀ out after, stitchSubset ar hash outcome.manifest fetched.dir range outPath cache₂ =
                (.ok out, after) →
              (stitchSubset ar hash outcome.manifest copts.outputDir range outPath host).2.lookup
                outPath = after.lookup outPath := by
  have hdata : g.tensorDataOffset ≤ m.bytes.length := chunkGguf_data hopen hchunk
  obtain ⟨hd, hword, rfl⟩ := (open_iff har).mp hopen
  obtain ⟨-, kinds, d, -, -, -, -, -, hchunks⟩ := chunkGguf_chunksOf har hinj hdry hword hdata
    (starts_fit har hword hts hranges) hchunk
  obtain ⟨hfile, hcid⟩ := chunkGguf_manifest hdry hchunk
  have hmanifest : fetchManifestOnly hash json manifestUrl opts server cache =
      .ok (⟨join opts.cacheRoot outcome.manifestCid, outcome.manifest, outcome.manifestCid,
        manifestUrl⟩, cache.insert (join (join opts.cacheRoot outcome.manifestCid) "manifest.json")
          (json.toJsonBytes outcome.manifest)) := by
    rw [hcid]
    exact fetchManifestOnly_published hjson hserver hfile manifestUrl opts hcap cache
  have hplain : ∀ c ∈ wanted, '/' ∉ c.cid.toList := by
    intro c hc
    obtain ⟨bytes, -, rfl⟩ := hchunks.wanted hwanted hc
    exact hbase.noSlash bytes
  have hserves : ∀ c ∈ wanted, server.Serves hash c := by
    intro c hc
    obtain ⟨bytes, hstored, rfl⟩ := hchunks.wanted hwanted hc
    exact hserver.serves hbase hstored
  have hresume : ∀ c ∈ wanted, NothingToResume (cache.insert
      (join (join opts.cacheRoot outcome.manifestCid) "manifest.json")
      (json.toJsonBytes outcome.manifest))
      (join (join opts.cacheRoot outcome.manifestCid) "chunks") opts.resume c := by
    intro c hc
    rw [NothingToResume, resumePoint_congr (AList.lookup_insert_ne ?_)]
    · exact hclean c hc
    · rw [join_tmp (hplain c hc), join_plain plain_manifest, join_plain plain_chunks]
      intro heq
      rw [List.append_assoc] at heq
      have hnames := List.append_cancel_left heq
      simp at hnames
  obtain ⟨got, cache₂, hfetch, hgot⟩ := fetchChunks_again hbase
    ⟨join opts.cacheRoot outcome.manifestCid, outcome.manifest, outcome.manifestCid, manifestUrl⟩
    opts hwanted hserves hresume
  obtain ⟨-, wanted', hwanted', hstored, -⟩ := fetchChunks_ok hbase hfetch
  obtain rfl : wanted = wanted' := Except.ok.inj (hwanted.symm.trans hwanted')
  have hsame : ∀ c ∈ wanted, SameChunk hash cache₂ (join opts.cacheRoot outcome.manifestCid) host
      copts.outputDir c.cid := by
    intro c hc
    obtain ⟨bytes, hhost, rfl⟩ := hchunks.wanted hwanted hc
    obtain ⟨bytes', hpulled, hcid'⟩ := hstored _ hc
    obtain rfl := hinj hcid'
    have hpulled' : StoredAs hash (join opts.cacheRoot outcome.manifestCid) cache₂ bytes' := by
      rw [StoredAs, ← join_chunk (hbase.noSlash bytes')]
      exact hpulled
    exact ⟨bytes', hpulled'.lookup hbase, hhost.lookup hbase, rfl⟩
  exact ⟨_, _, got, cache₂, hmanifest, hfetch, rfl, hgot, fun outPath =>
    stitchSubset_same (hsame _ (wantedChunks_listed hwanted).1)
      (fun b hb hincludes => hsame b.chunk (hcovers b hb hincludes)) outPath⟩

end Pulled

def directServer (files : Files) (root : Location) : ChunkServer where
  manifest :=
    match serveManifest files root with
    | .ok body => some ⟨false, some body.length, [some body]⟩
    | _ => none
  chunk cid _ :=
    match serveChunk files root (cid ++ ".bin") with
    | .ok body => some ⟨false, some body.length, [some body]⟩
    | _ => none

private theorem directServer_publishes (files : Files) (root : Location) :
    (directServer files root).Publishes files root where
  manifest body h := by
    refine ⟨⟨false, some body.length, [some body]⟩, ?_, by simp [sentBytes], by simp⟩
    simp only [directServer, h]
  chunk cid body h := by
    refine ⟨⟨false, some body.length, [some body]⟩, ?_, by simp [sentBytes]⟩
    simp only [directServer, h]

theorem pulled_stitch_same_second_layer :
    ∃ outcome host opts fetched cache₁ got cache₂,
      chunkGguf release release32 longHash prettyJson (sightedFile true) ⟨["out"], false, false⟩ ∅ =
        .ok (outcome, host) ∧
      fetchManifestOnly longHash prettyJson "http://10.0.0.7:7718/manifest.json" opts
        (directServer host ["out"]) ∅ = .ok (fetched, cache₁) ∧
      fetchChunks longHash fetched .full opts (directServer host ["out"]) cache₁ =
        (.ok got, cache₂) ∧
      (stitchSubset release longHash outcome.manifest fetched.dir secondLayer ["layer.gguf"]
          cache₂).1 =
        (stitchSubset release longHash outcome.manifest ["out"] secondLayer
          ["layer.gguf"] host).1 := by
  obtain ⟨outcome, host, hchunk⟩ := sighted_chunked true longHash_injective
  let opts : FetchOptions := ⟨["cache"], true, (prettyJson.toJsonBytes outcome.manifest).length⟩
  have hwanted : wantedChunks outcome.manifest .full =
      .ok (outcome.manifest.headerChunk :: outcome.manifest.bundles.map (·.chunk)) := rfl
  have hcovers : ∀ b ∈ outcome.manifest.bundles, includesBundle secondLayer b.name = .ok true →
      b.chunk ∈ outcome.manifest.headerChunk :: outcome.manifest.bundles.map (·.chunk) :=
    fun b hb _ => List.mem_cons_of_mem _ (List.mem_map_of_mem hb)
  have hcap : (prettyJson.toJsonBytes outcome.manifest).length ≤ opts.maxManifestBytes := le_rfl
  have hclean : ∀ c ∈ outcome.manifest.headerChunk :: outcome.manifest.bundles.map (·.chunk),
      NothingToResume ∅ (join (join opts.cacheRoot outcome.manifestCid) "chunks")
        opts.resume c := by
    intro c _
    simp [NothingToResume, resumePoint]
  obtain ⟨fetched, cache₁, got, cache₂, hmanifest, hfetch, -, -, hstitch⟩ :=
    pulled_stitch_same words_release longHash_injective longHash_base32 prettyJson_roundTrips
      sighted_source.opened sighted_tensors sighted_source.ranges rfl hchunk
      (directServer_publishes host ["out"]) "http://10.0.0.7:7718/manifest.json" hcap hwanted
      hcovers hclean
  exact ⟨outcome, host, opts, fetched, cache₁, got, cache₂, hchunk, hmanifest, hfetch,
    (hstitch ["layer.gguf"]).1⟩

end IntelNav.ModelStore
