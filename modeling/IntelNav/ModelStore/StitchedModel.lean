import IntelNav.ModelStore.HttpSpec
import IntelNav.ModelStore.SourceChunks
import IntelNav.ModelStore.StitchFaults
import IntelNav.ModelStore.StitchedData
import IntelNav.ModelStore.StitchedEntries

/-! A model that is split and stitched again: the tensors and the KV entries of the new file. -/

set_option autoImplicit false
set_option relaxedAutoImplicit false

namespace IntelNav.ModelStore

open IntelNav.Disk IntelNav.Reading IntelNav.Layout

variable {ar : Arith}

section Chunks

variable {hash : Hashing} {g : Gguf} {dir : Location} {files : Files}
  {kinds : List (BundleKind × List TensorIndexEntry)} {range : StitchRange}

theorem StoredAs.lookup (hbase : hash.Base32) {bytes : Bytes} (h : StoredAs hash dir files bytes) :
    files.lookup (chunksDirResolve files dir (hash.cidStringFor bytes)) = some bytes := by
  have hplace : files.lookup (join (join dir "chunks") (hash.cidStringFor bytes ++ ".bin")) =
      some bytes := by
    rw [join_chunk (hbase.noSlash bytes)]
    exact h
  have hresolve : chunksDirResolve files dir (hash.cidStringFor bytes) =
      join (join dir "chunks") (hash.cidStringFor bytes ++ ".bin") := by
    rw [chunksDirResolve]
    exact if_pos (by rw [hplace]; rfl)
  rw [hresolve, hplace]

theorem StoredAs.read (hbase : hash.Base32) {bytes : Bytes} (h : StoredAs hash dir files bytes) :
    readCachedChunk hash files dir (hash.cidStringFor bytes) = .ok bytes := by
  unfold readCachedChunk
  simp only [h.lookup hbase, ne_eq, not_true_eq_false, if_false]

private theorem openBundles_stored (hbase : hash.Base32) {bundles : List BundleEntry}
    (h : List.Forall₂ (BundleOf hash g dir files) kinds bundles) (range : StitchRange) :
    ∃ mmaps, openBundles files dir range bundles = .ok mmaps := by
  apply openBundles_ok_iff.mpr
  intro b hb
  obtain ⟨k, -, hk⟩ := exists_of_forall₂ h hb
  refine ⟨decide (range.Selects k.1), ?_, fun _ => ⟨k.2.flatMap g.dataOf, ?_, ?_⟩⟩
  · rw [hk.name, includesBundle_name]
  · rw [hk.cid_eq]
    exact hk.stored.lookup hbase
  · exact (congrArg Chunk.size hk.chunk).symm

private theorem keepTensors_opened (har : ar.Words 64) (hbase : hash.Base32)
    {bundles : List BundleEntry} (h : List.Forall₂ (BundleOf hash g dir files) kinds bundles)
    (hts : ∀ k ∈ kinds, (∀ t ∈ k.2, g.Holds t) ∧ (k.2.map TensorIndexEntry.nBytes).sum < 2 ^ 64)
    {mmaps : List (String × Bytes)} (hopened : openBundles files dir range bundles = .ok mmaps) :
    keepTensors ar range mmaps bundles = .ok ((range.tensorsOf kinds).map (g.kept range)) := by
  obtain ⟨hall, hfiles⟩ := openBundles_opened hopened
  refine keepTensors_chunks har h hts fun b hb hincluded => ?_
  obtain ⟨included, hname, hmapped⟩ := hall b hb
  obtain rfl := Except.ok.inj (hincluded.symm.trans hname)
  obtain ⟨bytes, hbytes, -⟩ := hmapped rfl
  obtain ⟨k, -, hk⟩ := exists_of_forall₂ h hb
  have hstored := hk.stored.lookup hbase
  rw [← hk.cid_eq, hfiles _ _ hbytes] at hstored
  rw [hbytes, hstored, hk.cid_eq]
  exact hk.stored.symm

end Chunks

section Selected

variable {ts : List TensorIndexEntry} {kinds : List (BundleKind × List TensorIndexEntry)}

theorem ByKind.tensorsOf_perm (h : ByKind ts kinds) (range : StitchRange) :
    (range.tensorsOf kinds).Perm (ts.filter fun t => range.Selects (classifyTensor t.name)) := by
  set chosen := kinds.filter fun k => range.Selects k.1 with hchosen
  have hnodup : (chosen.map Prod.fst).Nodup := by
    have hkeys : (kinds.map fun k => k.1.key).Nodup := h.ascending.imp fun hlt => ne_of_lt hlt
    have hkinds : (kinds.map Prod.fst).Nodup := by
      refine List.Nodup.of_map BundleKind.key ?_
      rw [List.map_map]
      exact hkeys
    exact hkinds.sublist (List.filter_sublist.map _)
  have hflat : range.tensorsOf kinds =
      (chosen.map Prod.fst).flatMap fun kind => ts.filter (classifyTensor ·.name = kind) := by
    rw [StitchRange.tensorsOf, List.flatMap_map, List.flatMap_def, List.flatMap_def]
    congr 1
    apply List.map_congr_left
    intro k hk
    exact h.tensors k (List.mem_filter.mp hk).1
  have hmem : ts.filter (classifyTensor ·.name ∈ chosen.map Prod.fst) =
      ts.filter fun t => range.Selects (classifyTensor t.name) := by
    apply List.filter_congr
    intro t ht
    rw [decide_eq_decide]
    constructor
    · intro hin
      obtain ⟨k, hk, heq⟩ := List.mem_map.mp hin
      rw [← heq]
      exact of_decide_eq_true (List.mem_filter.mp hk).2
    · intro hselects
      obtain ⟨k, hk, heq⟩ := List.mem_map.mp (h.all t ht)
      refine List.mem_map.mpr ⟨k, List.mem_filter.mpr ⟨hk, decide_eq_true ?_⟩, heq⟩
      rw [heq]
      exact hselects
  rw [hflat, ← hmem]
  exact perm_of_keys (fun t : TensorIndexEntry => classifyTensor t.name) ts hnodup

theorem ByKind.mem_tensorsOf (h : ByKind ts kinds) {range : StitchRange} {t : TensorIndexEntry}
    (ht : t ∈ range.tensorsOf kinds) : t ∈ ts ∧ range.Selects (classifyTensor t.name) := by
  have hmem := (h.tensorsOf_perm range).subset ht
  exact ⟨(List.mem_filter.mp hmem).1, of_decide_eq_true (List.mem_filter.mp hmem).2⟩

theorem ByKind.held (h : ByKind ts kinds) {m : Mmap} {hd : Header ar}
    {index : List TensorIndexEntry}
    (hmeasured : Measured (m.bytes.length - (hd.gguf m).tensorDataOffset) index ts)
    (hranges : ∀ t ∈ ts, (hd.gguf m).Holds t) : ∀ k ∈ kinds,
      (∀ t ∈ k.2, (hd.gguf m).Holds t) ∧ (k.2.map TensorIndexEntry.nBytes).sum < 2 ^ 64 := by
  intro k hk
  have hsub : k.2.Sublist ts := h.tensors k hk ▸ List.filter_sublist
  have hsum := (hsub.map TensorIndexEntry.nBytes).sum_le_sum fun _ _ => Nat.zero_le _
  have htotal := hmeasured.total
  have hlen := m.length_lt
  exact ⟨fun t ht => hranges t (hsub.subset ht), by omega⟩

end Selected

section Reopened

variable {hash : Hashing} {dir outPath : Location} {files files' : Files} {manifest : Manifest}
  {range : StitchRange} {kinds : List (BundleKind × List TensorIndexEntry)} {m : Mmap}
  {hd : Header ar}

private theorem word_scratch (hword : hd.word <+: m.bytes) (tensorDataOffset : Nat) :
    hd.word <+: scratchGgufFromHeader (m.bytes.take (hd.gguf m).tensorDataOffset)
      tensorDataOffset := by
  -- the chunk ends where the tensor data begins, after the whole header
  have hin : hd.word <+: m.bytes.take (hd.gguf m).tensorDataOffset :=
    List.prefix_take_iff.mpr ⟨hword, Header.le_alignedUp _ _⟩
  obtain ⟨pad, hscratch⟩ :=
    scratch_begins (m.bytes.take (hd.gguf m).tensorDataOffset) tensorDataOffset
  rw [hscratch]
  exact hin.trans (List.prefix_append _ _)

/-- How long the file gets: the header up to the next alignment, then the padded tensors. -/
def stitchedLength (arch : String) (range : StitchRange) (hd : Header ar) (kept : List KeptTensor) :
    Nat :=
  Header.alignedUp (24 + ((stitchedEntries arch range hd.entries).flatMap Entry.word).length +
      (kept.map fun t => indexLength t.newName t.shape).sum) (max hd.alignment 1) +
    (kept.map fun t => (t.padded (max hd.alignment 1)).length).sum

private theorem entries_within (hd : Header ar) :
    24 + (hd.entries.flatMap Entry.word).length ≤ (hd.gguf m).tensorDataOffset := by
  have hle := Header.le_alignedUp hd.word.length hd.alignment
  have hwords : hd.word.length = 24 + (hd.entries.flatMap Entry.word).length + hd.index.length := by
    rw [Header.word, List.length_append, List.length_append, hd.length_counts]
    rfl
  change _ ≤ Header.alignedUp hd.word.length hd.alignment
  omega

private theorem scratch_short (hdata : (hd.gguf m).tensorDataOffset ≤ m.bytes.length)
    (hlast : (hd.gguf m).tensorDataOffset + 1 < 2 ^ 63) :
    (scratchGgufFromHeader (m.bytes.take (hd.gguf m).tensorDataOffset)
      (hd.gguf m).tensorDataOffset).length < 2 ^ 63 := by
  have hlen : (m.bytes.take (hd.gguf m).tensorDataOffset).length =
      (hd.gguf m).tensorDataOffset := by
    rw [List.length_take]
    omega
  simp only [scratchGgufFromHeader, hlen, List.length_append, List.length_replicate]
  simpa using hlast

private theorem rewriteKvs_words (har : ar.Words 64) (hword : hd.word <+: m.bytes)
    (hdata : (hd.gguf m).tensorDataOffset ≤ m.bytes.length)
    (hlast : (hd.gguf m).tensorDataOffset + 1 < 2 ^ 63) (arch : String) (range : StitchRange) :
    rewriteKvs (m.bytes.take (hd.gguf m).tensorDataOffset) (arch ++ ".block_count") range 24
        (hd.entries.map Entry.kvEntry) =
      some ((hd.entries.map (Entry.stitched arch range)).flatMap Entry.word) := by
  have hscratch := word_scratch hword (hd.gguf m).tensorDataOffset
  have hfits := scratch_short hdata hlast
  have hlen : 24 + (hd.entries.flatMap Entry.word).length ≤
      (m.bytes.take (hd.gguf m).tensorDataOffset).length := by
    rw [List.length_take, min_eq_left hdata]
    exact entries_within hd
  obtain ⟨newKv, hnew⟩ := Option.ne_none_iff_exists'.mp (rewriteKvs_ne_none_iff.mpr (.inr hlen))
  have hparsed : Gguf.open ar ⟨_, hfits⟩ = .ok (hd.gguf ⟨_, hfits⟩) :=
    (open_iff har).mpr ⟨hd, hscratch, rfl⟩
  have hentries : (hd.gguf ⟨_, hfits⟩).kvEntries ar = .ok (hd.entries.map Entry.kvEntry) :=
    kvEntries_eq har hscratch
  obtain ⟨-, rfl⟩ := rewritten_words har hscratch hparsed hentries hnew
  exact hnew

theorem stitchSubset_returns (har : ar.Words 64) (hbase : hash.Base32)
    (hword : hd.word <+: m.bytes) (hdata : (hd.gguf m).tensorDataOffset ≤ m.bytes.length)
    (hlast : (hd.gguf m).tensorDataOffset + 1 < 2 ^ 63)
    (hchunks : ChunksOf hash (hd.gguf m) dir files kinds manifest)
    (hheld : ∀ k ∈ kinds, (∀ t ∈ k.2, (hd.gguf m).Holds t) ∧
      (k.2.map TensorIndexEntry.nBytes).sum < 2 ^ 64)
    (hvalid : validateRange manifest range = .ok ()) {arch : String}
    (harch : manifest.architecture = some arch) (hsome : range.tensorsOf kinds ≠ [])
    (hshort : stitchedLength arch range hd
      ((range.tensorsOf kinds).map ((hd.gguf m).kept range)) < 2 ^ 63) (outPath : Location) :
    ∃ out files', stitchSubset ar hash manifest dir range outPath files = (.ok out, files') := by
  obtain ⟨hoffset, halignment, -⟩ := hchunks.gguf
  have hread := hchunks.stored.read hbase
  rw [show hash.cidStringFor _ = manifest.headerChunk.cid from
    (congrArg Chunk.cid hchunks.header).symm] at hread
  have hscratch := word_scratch hword manifest.gguf.tensorDataOffset
  have hfits : (scratchGgufFromHeader (m.bytes.take (hd.gguf m).tensorDataOffset)
      manifest.gguf.tensorDataOffset).length < 2 ^ 63 := by
    rw [hoffset]
    exact scratch_short hdata hlast
  have hnew := rewriteKvs_words har hword hdata hlast arch range
  obtain ⟨mmaps, hopened⟩ := openBundles_stored hbase hchunks.bundles range
  have hkept := keepTensors_opened har hbase hchunks.bundles hheld hopened
  obtain ⟨kept, hkept_eq⟩ : ∃ kept, kept = (range.tensorsOf kinds).map ((hd.gguf m).kept range) :=
    ⟨_, rfl⟩
  rw [← hkept_eq] at hkept hshort
  have hcount : kept ≠ [] := fun h => hsome (List.map_eq_nil_iff.mp (hkept_eq.symm.trans h))
  -- the layout, at the alignment of the model
  obtain ⟨al, hal⟩ : ∃ al, al = max manifest.gguf.alignment 1 := ⟨_, rfl⟩
  have hmodel : max hd.alignment 1 = al := by
    rw [hal, halignment]
    rfl
  have hlt : al < 2 ^ 32 := by
    have hlt := hd.alignment_lt
    omega
  rw [stitchedLength, hmodel] at hshort
  obtain ⟨index, hindexed⟩ := writeIndex_starts har (show 0 < al by omega) hlt (Nat.dvd_zero al)
    (show 0 + (kept.map fun t => (t.padded al).length).sum < 2 ^ 63 by omega)
  obtain ⟨header, hheaded⟩ : ∃ header, header = ggufMagic ++ leBytes 4 manifest.gguf.ggufVersion ++
      leBytes 8 kept.length ++ leBytes 8 ((hd.entries.map Entry.kvEntry).length + 2) ++
      ((hd.entries.map (Entry.stitched arch range)).flatMap Entry.word ++
        writeKvBool "intelnav.has_embed" range.includeEmbed ++
        writeKvBool "intelnav.has_head" range.includeHead) ++ index := ⟨_, rfl⟩
  have hlong : header.length =
      24 + ((stitchedEntries arch range hd.entries).flatMap Entry.word).length +
        (kept.map fun t => indexLength t.newName t.shape).sum := by
    have hmagic : ggufMagic.length = 4 := rfl
    rw [hheaded, ← words_stitchedEntries, ← length_index hindexed]
    simp only [List.length_append, length_leBytes, hmagic]
  rw [← hlong] at hshort
  obtain ⟨haligned, bytes, hwrite⟩ :=
    written_short har (show 0 < al by omega) hlt header kept hshort
  subst hal
  have hassemble := (Assembles.intro hvalid hread (congrArg Chunk.size hchunks.header).symm hfits
    ((open_iff har).mpr ⟨hd, hscratch, rfl⟩) harch hopened hkept (kvEntries_eq har hscratch) hnew
    hindexed hheaded haligned).run (by
      intro hnil
      rcases List.zip_eq_nil_iff.mp hnil with hnone | hnone
      · exact hcount hnone
      · have hzero := congrArg List.length hnone
        rw [length_starts, List.length_map] at hzero
        exact hcount (List.length_eq_zero_iff.mp hzero))
  unfold stitchSubset
  rw [hassemble]
  dsimp only
  rw [hwrite]
  exact ⟨_, _, rfl⟩

theorem stitchSubset_reread (har : ar.Words 64) (hbase : hash.Base32) (hword : hd.word <+: m.bytes)
    (hchunks : ChunksOf hash (hd.gguf m) dir files kinds manifest)
    (hheld : ∀ k ∈ kinds, (∀ t ∈ k.2, (hd.gguf m).Holds t) ∧
      (k.2.map TensorIndexEntry.nBytes).sum < 2 ^ 64)
    (hfits : ∀ t ∈ range.tensorsOf kinds, ((hd.gguf m).kept range t).Fits)
    (hmany : (range.tensorsOf kinds).length ≤ ggufMaxTensors)
    (hroom : hd.entries.length + 2 ≤ ggufMaxKv) {out : StitchOutcome}
    (h : stitchSubset ar hash manifest dir range outPath files = (.ok out, files')) :
    ∃ arch bytes, manifest.architecture = some arch ∧ validateRange manifest range = .ok () ∧
      files'.lookup outPath = some bytes ∧ ∀ m' : Mmap, m'.bytes = bytes →
        ∃ (hd' : Header ar) (found : List TensorIndexEntry),
          hd'.entries = stitchedEntries arch range hd.entries ∧ hd'.word <+: m'.bytes ∧
          (hd'.gguf m').tensors ar = .ok found ∧
          List.Forall₂ (FindsTensor ar (hd'.gguf m') (max hd.alignment 1))
            ((range.tensorsOf kinds).map ((hd.gguf m).kept range)) found := by
  obtain ⟨a, bytes, hassemble, hwrite, rfl, rfl⟩ := stitchSubset_ok h
  obtain ⟨hvalid, hread, -, hlt, hopen, harch, hopened, hkept, hkvs, hnew, hindex, rfl, haligned⟩ :=
    assemble_ok hassemble
  rename_i arch mmaps kept kvs newKv index offsets dataOffset
  rw [hchunks.header, hchunks.stored.read hbase] at hread
  obtain rfl := Except.ok.inj hread
  obtain ⟨hcount, rfl⟩ := rewritten_words har (word_scratch hword _) hopen hkvs hnew
  rw [keepTensors_opened har hbase hchunks.bundles hheld hopened] at hkept
  obtain rfl := Except.ok.inj hkept
  refine ⟨arch, bytes, harch, hvalid, (lookup_renameFile _ _ _ _).1, fun m' hbytes => ?_⟩
  obtain ⟨-, halignment, hversion⟩ := hchunks.gguf
  subst hbytes
  rw [halignment] at hindex haligned hwrite
  rw [hversion] at haligned hwrite
  refine reread har (alignment_stitchedEntries arch range hd.entries _) ?_ ?_ ?_ hindex ?_
    haligned hwrite
  · rw [length_stitchedEntries]
    exact hroom
  · rw [List.length_map]
    exact hmany
  · intro t ht
    obtain ⟨u, hu, rfl⟩ := List.mem_map.mp ht
    exact hfits u hu
  · rw [length_stitchedEntries, words_stitchedEntries, hcount]
    rfl

end Reopened

/-- A model that is parsed into these entries and tensors; the tensors lie in it, have different
names and are named after their blocks, and it names its architecture once and counts its blocks. -/
structure SourceModel (ar : Arith) (m : Mmap) (g : Gguf) (kvs : List KvEntry)
    (ts : List TensorIndexEntry) (arch : String) : Prop where
  opened : Gguf.open ar m = .ok g
  entries : g.kvEntries ar = .ok kvs
  tensors : g.tensors ar = .ok ts
  data : g.tensorDataOffset ≤ m.bytes.length
  ranges : ∀ t ∈ ts, g.Holds t
  distinct : (ts.map TensorIndexEntry.name).Nodup
  blocks : ∀ t ∈ ts, ∀ n, classifyTensor t.name = .block n →
    ∃ field, field ≠ "" ∧ t.name = blockTensor n field
  architecture : ∃ kv, kvs.filter (fun kv => kv.IsArchitecture) = [kv] ∧
    readGgufString ar kv.value = some (some arch)
  count : ∃ kv ∈ kvs, kv.IsBlockCount arch
  room : g.nKv + 2 ≤ ggufMaxKv

/-- A tensor of the stitched file, and the one of the model that it was. -/
structure Carries (ar : Arith) (range : StitchRange) (g g' : Gguf) (t found : TensorIndexEntry) :
    Prop where
  name : range.Renames t.name found.name
  shape : found.shape = t.shape
  dtype : found.dtype = t.dtype
  bytes : ∃ data pad, g.tensorBytes ar t = some data ∧ pad < max g.alignment 1 ∧
    g'.tensorBytes ar found = some (data ++ List.replicate pad 0)

/-- The stitched file has the entries of the model and its tensors in the range, each once and in
the order of the manifest. -/
structure StitchedFrom (ar : Arith) (range : StitchRange) (arch : String)
    (bundles : List BundleEntry) (g : Gguf) (kvs : List KvEntry) (ts : List TensorIndexEntry)
    (kinds : List (BundleKind × List TensorIndexEntry)) (m' : Mmap) (g' : Gguf)
    (kvs' : List KvEntry) (ts' : List TensorIndexEntry) : Prop where
  opened : Gguf.open ar m' = .ok g'
  entries : g'.kvEntries ar = .ok kvs'
  tensors : g'.tensors ar = .ok ts'
  grouped : ByKind ts kinds
  listed : List.Forall₂ (fun k b => b.name = k.1.name ∧
    b.members.map BundleMember.name = k.2.map TensorIndexEntry.name) kinds bundles
  selected : (range.tensorsOf kinds).Perm (ts.filter fun t => range.Selects (classifyTensor t.name))
  carried : List.Forall₂ (Carries ar range g g') (range.tensorsOf kinds) ts'
  distinct : (ts'.map TensorIndexEntry.name).Nodup
  table : KeepsTable arch range kvs kvs'

theorem validateRange_le {manifest : Manifest} {range : StitchRange}
    (h : validateRange manifest range = .ok ()) : range.start ≤ range.stop := by
  unfold validateRange at h
  split_ifs at h with hlt
  exact UInt32.not_lt.mp hlt

private theorem renames_kept {range : StitchRange} {g : Gguf} {t : TensorIndexEntry}
    (hselects : range.Selects (classifyTensor t.name))
    (hblock : ∀ n, classifyTensor t.name = .block n → ∃ field, field ≠ "" ∧
      t.name = blockTensor n field) : range.Renames t.name (g.kept range t).newName := by
  change range.Renames t.name (renameTensor t.name range.start)
  by_cases h : ∃ n, classifyTensor t.name = .block n
  · obtain ⟨n, hn⟩ := h
    obtain ⟨field, hfield, hname⟩ := hblock n hn
    rw [hn] at hselects
    rw [hname, renameTensor_blockTensor hselects.1 hfield]
    exact .block hselects.1
  · have hother : ∀ n, classifyTensor t.name ≠ .block n := fun n hn => h ⟨n, hn⟩
    rw [renameTensor_other hother]
    exact .other hother

theorem FindsTensor.carries (har : ar.Words 64) {range : StitchRange} {g g' : Gguf}
    {t found : TensorIndexEntry} (hheld : g.Holds t)
    (hname : range.Renames t.name (g.kept range t).newName)
    (h : FindsTensor ar g' (max g.alignment 1) (g.kept range t) found) :
    Carries ar range g g' t found where
  name := h.name ▸ hname
  shape := h.shape
  dtype := h.dtype
  bytes := by
    refine ⟨g.dataOf t, _, Gguf.tensorBytes_eq har hheld, ?_, h.bytes⟩
    have hspec := @Header.alignedUp_spec (max g.alignment 1) (by omega)
      (g.kept range t).bytes.length
    omega

theorem kept_fits {stop : Nat} {hd : Header ar} {ts : List TensorIndexEntry}
    (h : Measured stop (hd.tensors.map TensorInfo.indexEntry) ts) (g : Gguf) (range : StitchRange)
    {t : TensorIndexEntry} (ht : t ∈ ts) : (g.kept range t).Fits := by
  have hmem : { t with nBytes := 0 } ∈ hd.tensors.map TensorInfo.indexEntry := by
    rw [← h.same]
    exact List.mem_map.mpr ⟨t, ht, rfl⟩
  obtain ⟨u, -, heq⟩ := List.mem_map.mp hmem
  have hshape : t.shape = u.indexEntry.shape := (congrArg TensorIndexEntry.shape heq).symm
  have hdtype : t.dtype = u.indexEntry.dtype := (congrArg TensorIndexEntry.dtype heq).symm
  constructor
  · change t.shape.length ≤ ggufMaxDims
    rw [hshape, TensorInfo.indexEntry, List.length_map]
    exact u.dims
  · change t.dtype < 2 ^ 32
    rw [hdtype]
    exact u.dtype.toNat_lt

/-- All that is found is what the model has. -/
private theorem carries_all (har : ar.Words 64) {range : StitchRange} {g g' : Gguf}
    {tensors found : List TensorIndexEntry}
    (h : List.Forall₂ (FindsTensor ar g' (max g.alignment 1)) (tensors.map (g.kept range)) found)
    (hts : ∀ t ∈ tensors, g.Holds t ∧ range.Renames t.name (g.kept range t).newName) :
    List.Forall₂ (Carries ar range g g') tensors found := by
  rw [List.forall₂_map_left_iff] at h
  refine List.forall₂_iff_zip.mpr ⟨h.length_eq, fun {t u} hmem => ?_⟩
  obtain ⟨hheld, hname⟩ := hts t (List.of_mem_zip hmem).1
  exact (List.forall₂_zip h hmem).carries har hheld hname

private theorem carried_nodup {range : StitchRange} {g g' : Gguf}
    {tensors found : List TensorIndexEntry} (h : List.Forall₂ (Carries ar range g g') tensors found)
    (hnodup : (tensors.map TensorIndexEntry.name).Nodup) :
    (found.map TensorIndexEntry.name).Nodup := by
  have hnames : List.Forall₂ range.Renames (tensors.map TensorIndexEntry.name)
      (found.map TensorIndexEntry.name) := by
    rw [List.forall₂_map_left_iff, List.forall₂_map_right_iff]
    exact h.imp fun _ _ hcarries => hcarries.name
  exact (List.rel_nodup range.renames_biUnique hnames).mp hnodup

/-- A model that is split and stitched again keeps its entries and the tensors of the range. -/
theorem chunk_then_stitch (ar ar32 : Arith) (har : ar.Words 64) (hash : Hashing)
    (hinj : Function.Injective hash.cidStringFor) (hbase : hash.Base32) (json : ManifestJson)
    (m : Mmap) (g : Gguf) (kvs : List KvEntry) (ts : List TensorIndexEntry) (arch : String)
    (hmodel : SourceModel ar m g kvs ts arch) (opts : ChunkerOptions) (hdry : opts.dryRun = false)
    (before files : Files) (outcome : ChunkOutcome)
    (hchunk : chunkGguf ar ar32 hash json m opts before = .ok (outcome, files))
    (range : StitchRange) (outPath : Location) (out : StitchOutcome) (files' : Files)
    (hstitch : stitchSubset ar hash outcome.manifest opts.outputDir range outPath files =
      (.ok out, files')) :
    ∃ bytes, files'.lookup outPath = some bytes ∧ ∀ m' : Mmap, m'.bytes = bytes →
      ∃ kinds g' kvs' ts',
        StitchedFrom ar range arch outcome.manifest.bundles g kvs ts kinds m' g' kvs' ts' := by
  obtain ⟨hd, hword, rfl⟩ := (open_iff har).mp hmodel.opened
  obtain rfl := Except.ok.inj ((kvEntries_eq har hword).symm.trans hmodel.entries)
  have hstarts := starts_fit har hword hmodel.tensors hmodel.ranges
  obtain ⟨ts₀, kinds, d, hts, hmeasured, hkinds, hd', harch, hchunks⟩ :=
    chunkGguf_chunksOf har hinj hdry hword hmodel.data hstarts hchunk
  obtain rfl := Except.ok.inj (hts.symm.trans hmodel.tensors)
  have hperm := hkinds.tensorsOf_perm range
  have hmany : (range.tensorsOf kinds).length ≤ ggufMaxTensors := by
    have hnames : ts₀.map TensorIndexEntry.name = _ := tensors_map har hword hts fun _ _ => rfl
    have hcount := congrArg List.length hnames
    rw [List.length_map, List.length_map] at hcount
    rw [hperm.length_eq]
    exact (List.length_filter_le _ _).trans (hcount ▸ hd.tensors_le)
  have hfits : ∀ t ∈ range.tensorsOf kinds, ((hd.gguf m).kept range t).Fits :=
    fun t ht => kept_fits hmeasured _ range (hkinds.mem_tensorsOf ht).1
  obtain ⟨arch', bytes, harch', hvalid, hbytes, hread⟩ :=
    stitchSubset_reread har hbase hword hchunks
    (hkinds.held hmeasured hmodel.ranges) hfits hmany hmodel.room hstitch
  obtain ⟨kv, hone, htext⟩ := hmodel.architecture
  rw [diagnostics_architecture hd' hone, ← harch, harch'] at htext
  obtain rfl := Option.some.inj (Option.some.inj htext)
  refine ⟨bytes, hbytes, fun m' hm' => ?_⟩
  obtain ⟨hd₁, found, hentries, hword₁, hfound, hfinds⟩ := hread m' hm'
  have hcarried := carries_all har (g := hd.gguf m) hfinds fun t ht => by
    obtain ⟨hin, hselects⟩ := hkinds.mem_tensorsOf ht
    exact ⟨hmodel.ranges t hin, renames_kept hselects (hmodel.blocks t hin)⟩
  have hdistinct : ((range.tensorsOf kinds).map TensorIndexEntry.name).Nodup := by
    rw [(hperm.map _).nodup_iff]
    exact hmodel.distinct.sublist (List.filter_sublist.map _)
  refine ⟨kinds, hd₁.gguf m', _, found, (open_iff har).mpr ⟨hd₁, hword₁, rfl⟩,
    kvEntries_eq har hword₁, hfound, hkinds, ?_, hperm, hcarried, carried_nodup hcarried hdistinct,
    ?_⟩
  · refine hchunks.bundles.imp fun k b h => ⟨h.name, ?_⟩
    have hmembers := congrArg (List.map Prod.fst) (@members_eq hash (hd.gguf m) 0 k.2)
    rw [List.map_map, List.map_map] at hmembers
    rw [h.members]
    exact hmembers
  · rw [hentries]
    exact keepsTable_stitched (validateRange_le hvalid) hmodel.count

def secondLayer : StitchRange := ⟨1, 2, false, false⟩

def sightedTensors : List TensorIndexEntry :=
  [⟨"blk.0.w", [8], 0, 0, 32⟩, ⟨"blk.1.w", [8], 0, 32, 32⟩]

theorem sighted_tensors :
    ((sighted true).gguf (sightedFile true)).tensors release = .ok sightedTensors := by
  have hread := tensors_ascending words_release (List.prefix_append (sighted true).word _)
    (sighted_data true) (by decide) (sighted_fits true)
  rw [sighted_offset, sightedFile_length] at hread
  exact hread

theorem sighted_source : SourceModel release (sightedFile true)
    ((sighted true).gguf (sightedFile true)) ((sighted true).entries.map Entry.kvEntry)
    sightedTensors "a" where
  opened := (open_iff words_release).mpr ⟨sighted true, List.prefix_append _ _, rfl⟩
  entries := kvEntries_eq words_release (List.prefix_append _ _)
  tensors := sighted_tensors
  data := sighted_data true
  ranges := by
    intro t ht
    change ((sighted true).gguf (sightedFile true)).tensorDataOffset + _ + _ ≤
      (sightedFile true).bytes.length
    rw [sighted_offset, sightedFile_length]
    rcases List.mem_cons.mp ht with rfl | ht
    · decide
    · obtain rfl := List.mem_singleton.mp ht
      decide
  distinct := by decide
  blocks := by
    intro t ht n hn
    rcases List.mem_cons.mp ht with rfl | ht
    · have hfirst : classifyTensor "blk.0.w" = .block 0 := by decide
      obtain rfl := BundleKind.block.inj (hfirst.symm.trans hn)
      exact ⟨"w", by decide, by decide⟩
    · obtain rfl := List.mem_singleton.mp ht
      have hsecond : classifyTensor "blk.1.w" = .block 1 := by decide
      obtain rfl := BundleKind.block.inj (hsecond.symm.trans hn)
      exact ⟨"w", by decide, by decide⟩
  architecture := ⟨_, rfl, by decide +kernel⟩
  count := ⟨_, List.mem_cons_of_mem _ List.mem_cons_self, rfl, rfl⟩
  room := by decide

/-- The second layer of two becomes a model of one layer. -/
theorem chunk_then_stitch_second_layer :
    ∃ outcome files out files' bytes,
      chunkGguf release release32 longHash prettyJson (sightedFile true) ⟨["out"], false, false⟩ ∅ =
        .ok (outcome, files) ∧
      stitchSubset release longHash outcome.manifest ["out"] secondLayer ["layer.gguf"] files =
        (.ok out, files') ∧
      files'.lookup ["layer.gguf"] = some bytes ∧ ∀ m' : Mmap, m'.bytes = bytes →
        ∃ kinds g' kvs' ts', StitchedFrom release secondLayer "a" outcome.manifest.bundles
          ((sighted true).gguf (sightedFile true)) ((sighted true).entries.map Entry.kvEntry)
          sightedTensors kinds m' g' kvs' ts' := by
  have hword : (sighted true).word <+: (sightedFile true).bytes := List.prefix_append _ _
  obtain ⟨outcome, files, hchunk⟩ := sighted_chunked true longHash_injective
  obtain ⟨ts, kinds, d, hts, hmeasured, hkinds, hd, harch, hchunks⟩ :=
    chunkGguf_chunksOf words_release longHash_injective rfl hword (sighted_data true)
      (sighted_fits true) hchunk
  obtain rfl := Except.ok.inj (hts.symm.trans sighted_tensors)
  have harch' : outcome.manifest.architecture = some "a" := by
    have hread := diagnostics_architecture hd rfl
    have htext : readGgufString release (leBytes 8 1 ++ [97]) = some (some "a") := by
      decide +kernel
    rw [harch]
    exact Option.some.inj (hread.symm.trans htext)
  obtain ⟨hd₀, ts₀, hword₀, hdescribes⟩ := chunkGguf_describes words_release hchunk
  obtain rfl := Header.unique hword₀ hword
  have hlayers : outcome.manifest.nLayers = 2 := by
    rw [hdescribes.nLayers, sighted_blockCount]
    rfl
  have hvalid : validateRange outcome.manifest secondLayer = .ok () := by
    rw [validateRange, hlayers]
    decide
  have hchosen : secondLayer.tensorsOf kinds = [⟨"blk.1.w", [8], 0, 32, 32⟩] :=
    List.perm_singleton.mp (hkinds.tensorsOf_perm secondLayer)
  obtain ⟨out, files', hstitch⟩ := stitchSubset_returns words_release longHash_base32 hword
    (sighted_data true) (by rw [sighted_offset]; decide) hchunks
    (hkinds.held hmeasured sighted_source.ranges) hvalid harch'
      (by rw [hchosen]; exact List.cons_ne_nil _ _)
    (by rw [hchosen]; decide +kernel) ["layer.gguf"]
  obtain ⟨bytes, hbytes, hread⟩ := chunk_then_stitch release release32 words_release longHash
    longHash_injective longHash_base32 prettyJson (sightedFile true)
    ((sighted true).gguf (sightedFile true)) ((sighted true).entries.map Entry.kvEntry)
    sightedTensors "a" sighted_source ⟨["out"], false, false⟩ rfl ∅ files outcome hchunk secondLayer
    ["layer.gguf"] out files' hstitch
  exact ⟨outcome, files, out, files', bytes, hchunk, hstitch, hbytes, hread⟩

end IntelNav.ModelStore
