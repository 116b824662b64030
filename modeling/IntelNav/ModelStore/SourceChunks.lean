import IntelNav.ModelStore.FullStitch

/-! The tensors of a model in the chunks of its split, and in what the stitcher keeps of them. -/

set_option autoImplicit false
set_option relaxedAutoImplicit false

namespace IntelNav.ModelStore

open IntelNav.Disk IntelNav.Reading IntelNav.Layout

variable {ar ar32 : Arith} {hash : Hashing} {g : Gguf} {opts : ChunkerOptions}

private theorem emitBundle_sound (hdry : opts.dryRun = false) {e e' : Emitted}
    {group : BundleKey × List TensorIndexEntry} (h : e.Sound hash opts.outputDir)
    (hs : emitBundle ar ar32 hash g opts e group = some e') : e'.Sound hash opts.outputDir := by
  unfold emitBundle at hs
  simp only [hdry, Bool.false_eq_true, if_false] at hs
  obtain ⟨d, -, hs⟩ := Option.bind_eq_some_iff.mp hs
  obtain ⟨stored, hstore, hs⟩ := Option.bind_eq_some_iff.mp hs
  obtain ⟨layerRange, -, hs⟩ := Option.bind_eq_some_iff.mp hs
  obtain rfl := Option.some.inj hs
  intro cid hcid
  exact h.store hstore cid hcid

private theorem emitBundles_sound (hdry : opts.dryRun = false)
    {groups : List (BundleKey × List TensorIndexEntry)} {e e' : Emitted}
    (h : e.Sound hash opts.outputDir)
    (hs : groups.foldlM (emitBundle ar ar32 hash g opts) e = some e') :
    e'.Sound hash opts.outputDir := by
  induction groups generalizing e with
  | nil =>
      obtain rfl := Option.some.inj hs
      exact h
  | cons group groups ih =>
      rw [List.foldlM_cons] at hs
      obtain ⟨e₁, hfirst, hrest⟩ := Option.bind_eq_some_iff.mp hs
      exact ih (emitBundle_sound hdry h hfirst) hrest

private theorem emitChunks_sound (hdry : opts.dryRun = false) {header : Bytes}
    {groups : List (BundleKey × List TensorIndexEntry)} {before : Files} {e : Emitted}
    (hs : emitChunks ar ar32 hash g opts header groups before = some e) :
    e.Sound hash opts.outputDir := by
  unfold emitChunks at hs
  simp only [hdry, Bool.false_eq_true, if_false] at hs
  obtain ⟨bytesWritten, -, hs⟩ := Option.bind_eq_some_iff.mp hs
  obtain ⟨start, hstart, hs⟩ := Option.bind_eq_some_iff.mp hs
  obtain rfl := Option.some.inj hstart
  exact emitBundles_sound hdry (writeChunk_sound before opts.outputDir header bytesWritten) hs

def StoredAs (hash : Hashing) (dir : Location) (files : Files) (bytes : Bytes) : Prop :=
  files.lookup (chunkLocation dir (hash.cidStringFor bytes)) = some bytes

/-- The entry lists the tensors of the kind, and its chunk has their bytes. -/
structure BundleOf (hash : Hashing) (g : Gguf) (dir : Location) (files : Files)
    (k : BundleKind × List TensorIndexEntry) (b : BundleEntry) : Prop where
  name : b.name = k.1.name
  chunk : b.chunk = ⟨hash.cidStringFor (k.2.flatMap g.dataOf), (k.2.flatMap g.dataOf).length⟩
  members : b.members = g.members hash 0 k.2
  stored : StoredAs hash dir files (k.2.flatMap g.dataOf)

theorem BundleOf.cid_eq {dir : Location} {files : Files} {k : BundleKind × List TensorIndexEntry}
    {b : BundleEntry} (h : BundleOf hash g dir files k b) :
    b.cid = hash.cidStringFor (k.2.flatMap g.dataOf) :=
  congrArg Chunk.cid h.chunk

/-- What the split of a model says and stores of it: its header, and its tensors by their kinds. -/
structure ChunksOf (hash : Hashing) (g : Gguf) (dir : Location) (files : Files)
    (kinds : List (BundleKind × List TensorIndexEntry)) (manifest : Manifest) : Prop where
  gguf : manifest.gguf.tensorDataOffset = g.tensorDataOffset ∧
    manifest.gguf.alignment = g.alignment ∧ manifest.gguf.ggufVersion = g.version
  header : manifest.headerChunk = ⟨hash.cidStringFor (g.mmap.bytes.take g.tensorDataOffset),
    (g.mmap.bytes.take g.tensorDataOffset).length⟩
  stored : StoredAs hash dir files (g.mmap.bytes.take g.tensorDataOffset)
  bundles : List.Forall₂ (BundleOf hash g dir files) kinds manifest.bundles

/-- The tensors by their kinds, the kinds in the order of their bundles. -/
structure ByKind (ts : List TensorIndexEntry) (kinds : List (BundleKind × List TensorIndexEntry)) :
    Prop where
  ascending : (kinds.map fun k => k.1.key).Pairwise (· < ·)
  tensors : ∀ k ∈ kinds, k.2 = ts.filter (classifyTensor ·.name = k.1)
  all : ∀ t ∈ ts, classifyTensor t.name ∈ kinds.map Prod.fst

section Stored

variable {e : Emitted} {manifestBytes : Bytes}

private theorem storedAs_of_written (hinj : Function.Injective hash.cidStringFor) {dir : Location}
    (hsound : e.Sound hash dir) {bytes : Bytes} (hcid : hash.cidStringFor bytes ∈ e.writtenCids) :
    StoredAs hash dir (e.files.insert (dir ++ ["manifest.json"]) manifestBytes) bytes := by
  rw [StoredAs, AList.lookup_insert_ne (manifest_ne_chunk dir _).symm]
  exact hsound.lookup hinj hcid

private theorem Emits.bundleOf (har : ar.Words 64) (hinj : Function.Injective hash.cidStringFor)
    {dir : Location} (hsound : e.Sound hash dir) {k : BundleKind × List TensorIndexEntry}
    {b : BundleEntry} (h : Emits ar hash g (k.1.key, k.2) b) (hcid : b.cid ∈ e.writtenCids)
    (hts : ∀ t ∈ k.2, g.Holds t) (hsize : (k.2.map TensorIndexEntry.nBytes).sum < 2 ^ 64) :
    BundleOf hash g dir (e.files.insert (dir ++ ["manifest.json"]) manifestBytes) k b := by
  obtain ⟨d, hd, hname, hcid', hsize', hmembers⟩ := h
  rw [foldlM_draft hash har hts (by rw [Nat.zero_add]; exact hsize)] at hd
  obtain rfl := Option.some.inj hd
  rw [List.nil_append] at hcid' hmembers
  have hlen : (k.2.flatMap g.dataOf).length = (k.2.map TensorIndexEntry.nBytes).sum := by
    rw [List.length_flatMap]
    congr 1
    exact List.map_congr_left fun t ht => Gguf.length_dataOf (hts t ht)
  refine ⟨by rw [hname, BundleKind.toKind_key], ?_, hmembers, ?_⟩
  · rw [BundleEntry.chunk, hcid', hsize', hlen, Nat.zero_add]
  · exact storedAs_of_written hinj hsound (hcid' ▸ hcid)

end Stored

theorem chunkGguf_chunksOf (har : ar.Words 64) (hinj : Function.Injective hash.cidStringFor)
    (hdry : opts.dryRun = false) {json : ManifestJson} {m : Mmap} {hd : Header ar}
    (hword : hd.word <+: m.bytes) (hdata : (hd.gguf m).tensorDataOffset ≤ m.bytes.length)
    (hfits : ∀ t ∈ hd.tensors,
      t.dataOffsetRel.toNat ≤ m.bytes.length - (hd.gguf m).tensorDataOffset)
    {before files : Files} {outcome : ChunkOutcome}
    (h : chunkGguf ar ar32 hash json m opts before = .ok (outcome, files)) :
    ∃ ts kinds d, (hd.gguf m).tensors ar = .ok ts ∧
      Measured (m.bytes.length - (hd.gguf m).tensorDataOffset)
        (hd.tensors.map TensorInfo.indexEntry) ts ∧
      ByKind ts kinds ∧
      (hd.entries.map Entry.kvEntry).foldlM (Diagnostics.read ar) ⟨none, none, none⟩ = some d ∧
      outcome.manifest.architecture = d.architecture ∧
      ChunksOf hash (hd.gguf m) opts.outputDir files kinds outcome.manifest := by
  obtain ⟨g, kvs, d, ts, header, hg, hkvs, hd', hts, hslice, hparsed⟩ := chunkGguf_ok h
  obtain ⟨hd₀, hword₀, rfl⟩ := (open_iff har).mp hg
  obtain rfl := Header.unique hword₀ hword
  rw [kvEntries_eq har hword] at hkvs
  obtain rfl := Except.ok.inj hkvs
  obtain ⟨ts', hts', hmeasured⟩ := tensors_measured har hword hdata hfits
  obtain rfl := Except.ok.inj (hts.symm.trans hts')
  unfold Mmap.slice at hslice
  split_ifs at hslice with hout
  obtain rfl := Option.some.inj hslice
  rw [Nat.sub_zero, List.drop_zero] at hparsed
  obtain ⟨kinds, hgroups, hascend, hitems, hall⟩ := groups_kinds ts
  obtain ⟨e, hemit, hmanifest, -, hfiles⟩ := chunkParsed_ok hparsed
  obtain ⟨hlisted, hheader⟩ := emitChunks_listed hdry hemit
  have hsound := emitChunks_sound hdry hemit
  have hemits := emitChunks_emits hemit
  rw [hfiles hdry, hmanifest]
  refine ⟨ts, kinds, d, hts, hmeasured, ⟨hascend, fun k hk => hitems k.1 k.2 hk, ?_⟩, hd', rfl,
    ⟨rfl, rfl, rfl⟩, rfl, storedAs_of_written hinj hsound hheader, ?_⟩
  · intro t ht
    obtain ⟨us, hus⟩ := hall t ht
    exact List.mem_map.mpr ⟨_, hus, rfl⟩
  · rw [hgroups, List.forall₂_map_left_iff] at hemits
    obtain ⟨hlength, hpairs⟩ := List.forall₂_iff_zip.mp hemits
    refine List.forall₂_iff_zip.mpr ⟨hlength, fun {k b} hmem => ?_⟩
    obtain ⟨hk, hb⟩ := List.of_mem_zip hmem
    have hgroup : (k.1.key, k.2) ∈ groups (fun t => (classifyTensor t.name).key) ts := by
      rw [hgroups]
      exact List.mem_map_of_mem hk
    have hsum := hmeasured.sum_group hgroup
    have hlen := m.length_lt
    refine (hpairs hmem).bundleOf har hinj hsound (hlisted.bundles b hb) ?_ (by omega)
    intro t ht
    rw [hitems k.1 k.2 hk] at ht
    exact hmeasured.holds hdata (List.mem_filter.mp ht).1

variable {range : StitchRange}

def Gguf.kept (g : Gguf) (range : StitchRange) (t : TensorIndexEntry) : KeptTensor where
  newName := renameTensor t.name range.start
  dtypeCode := t.dtype
  shape := t.shape
  bytes := g.dataOf t

private theorem keepMember_within (har : ar.Words 64) {name : String} {mmap : Bytes}
    {b : BundleMember}
    (hlt : b.offsetInBundle + b.size < 2 ^ 64) (hlen : b.offsetInBundle + b.size ≤ mmap.length) :
    keepMember ar range name mmap b =
      .ok { newName := renameTensor b.name range.start, dtypeCode := b.dtypeCode, shape := b.shape
            bytes := (mmap.drop b.offsetInBundle).take b.size } := by
  have horder : ¬b.offsetInBundle + b.size < b.offsetInBundle := by omega
  simp only [keepMember, har.below _ _ hlt, ofPanic]
  change (if _ then _ else _) = _
  rw [if_neg (Nat.not_lt.mpr hlen), if_neg horder, Nat.add_sub_cancel_left]
  rfl

private theorem keepMembers_eq (har : ar.Words 64) (name : String) {ts : List TensorIndexEntry}
    (hts : ∀ t ∈ ts, g.Holds t) (before : Bytes)
    (hsize : before.length + (ts.map TensorIndexEntry.nBytes).sum < 2 ^ 64) :
    (g.members hash before.length ts).mapM
      (keepMember ar range name (before ++ ts.flatMap g.dataOf)) = .ok (ts.map (g.kept range)) := by
  induction ts generalizing before with
  | nil => rfl
  | cons t ts ih =>
      have ht := Gguf.length_dataOf (hts t List.mem_cons_self)
      rw [List.map_cons, List.sum_cons] at hsize
      have hrest := ih (fun u hu => hts u (List.mem_cons_of_mem _ hu)) (before ++ g.dataOf t) (by
        rw [List.length_append, ht]
        omega)
      rw [List.length_append, ht, List.append_assoc, ← List.flatMap_cons] at hrest
      have hslice : ((before ++ (t :: ts).flatMap g.dataOf).drop before.length).take t.nBytes =
          g.dataOf t := by
        rw [List.drop_left, List.flatMap_cons, ← ht, List.take_left]
      have hlen : before.length + t.nBytes ≤ (before ++ (t :: ts).flatMap g.dataOf).length := by
        rw [List.flatMap_cons, List.length_append, List.length_append, ht]
        omega
      have hmember := @keepMember_within ar range har name
        (before ++ (t :: ts).flatMap g.dataOf) (g.member hash before.length t) (by
          change before.length + t.nBytes < 2 ^ 64
          omega) hlen
      simp only [Gguf.member, hslice] at hmember
      rw [Gguf.members, List.mapM_cons, Gguf.member, hmember, hrest]
      rfl

def StitchRange.tensorsOf (range : StitchRange)
    (kinds : List (BundleKind × List TensorIndexEntry)) : List TensorIndexEntry :=
  (kinds.filter fun k => range.Selects k.1).flatMap Prod.snd

/-- From the chunks of a model the stitcher keeps the tensors of the kinds in the range. -/
theorem keepTensors_chunks (har : ar.Words 64) {dir : Location} {files : Files}
    {kinds : List (BundleKind × List TensorIndexEntry)} {bundles : List BundleEntry}
    (h : List.Forall₂ (BundleOf hash g dir files) kinds bundles)
    (hts : ∀ k ∈ kinds, (∀ t ∈ k.2, g.Holds t) ∧
      (k.2.map TensorIndexEntry.nBytes).sum < 2 ^ 64)
    {mmaps : List (String × Bytes)}
    (hmmaps : ∀ b ∈ bundles, includesBundle range b.name = .ok true →
      mmaps.lookup b.cid = files.lookup (chunkLocation dir b.cid)) :
    keepTensors ar range mmaps bundles = .ok ((range.tensorsOf kinds).map (g.kept range)) := by
  induction h with
  | nil => rfl
  | @cons k b kinds bundles hb hbundles ih =>
      obtain ⟨hk, hkinds⟩ := List.forall_mem_cons.mp hts
      obtain ⟨hmap, hmaps⟩ := List.forall_mem_cons.mp hmmaps
      have hrest := ih hkinds hmaps
      have hincluded : includesBundle range b.name = .ok (decide (range.Selects k.1)) := by
        rw [hb.name, includesBundle_name]
      by_cases hselects : range.Selects k.1
      · rw [decide_eq_true hselects] at hincluded
        have hlookup : mmaps.lookup b.cid = some (k.2.flatMap g.dataOf) := by
          rw [hmap hincluded, hb.cid_eq]
          exact hb.stored
        have hmembers := @keepMembers_eq ar hash g range har b.name k.2 hk.1 []
          (by simpa using hk.2)
        rw [List.nil_append, List.length_nil, ← hb.members] at hmembers
        have hfilter : (k :: kinds).filter (fun k => range.Selects k.1) =
            k :: kinds.filter fun k => range.Selects k.1 :=
          List.filter_cons_of_pos (decide_eq_true hselects)
        rw [keepTensors, hincluded, StitchRange.tensorsOf, hfilter, List.flatMap_cons,
          List.map_append]
        simp only [ofStitch, hlookup, hmembers, hrest]
        rfl
      · rw [decide_eq_false hselects] at hincluded
        have hfilter : (k :: kinds).filter (fun k => range.Selects k.1) =
            kinds.filter fun k => range.Selects k.1 :=
          List.filter_cons_of_neg (by rwa [decide_eq_true_eq])
        rw [keepTensors, hincluded, StitchRange.tensorsOf, hfilter]
        exact hrest

end IntelNav.ModelStore
