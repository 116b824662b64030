import IntelNav.ModelStore.Chunker
import IntelNav.Reading.Reached

/-! The files of a split, whatever was in the directory before. -/

set_option autoImplicit false
set_option relaxedAutoImplicit false

namespace IntelNav.ModelStore

open IntelNav.Disk IntelNav.Reading IntelNav.Layout

/-- Where the chunker may write: the manifest, and entries of `chunks/`. -/
inductive ChunkerPlace (dir : Location) : Location → Prop
  | manifest : ChunkerPlace dir (dir ++ ["manifest.json"])
  | chunk (name : String) : ChunkerPlace dir (dir ++ ["chunks", name])

variable {ar ar32 : Arith} {hash : Hashing} {dir : Location} {before : Files}

def OnDisk (hash : Hashing) (dir : Location) (files : Files) (cid : String) : Prop :=
  (∃ bytes, cid = hash.cidStringFor bytes) ∧ (files.lookup (chunkLocation dir cid)).isSome

/-- Nothing else is written, and every chunk listed so far is on disk. -/
structure Emitted.Listed (hash : Hashing) (dir : Location) (before : Files) (e : Emitted) :
    Prop where
  frame : AgreeOff (ChunkerPlace dir) before e.files
  written : ∀ cid ∈ e.writtenCids, OnDisk hash dir e.files cid
  bundles : ∀ b ∈ e.bundles, b.cid ∈ e.writtenCids

def ChunkerOptions.bundleTmp (opts : ChunkerOptions) (kind : BundleKind) : Location :=
  opts.outputDir ++ ["chunks", ".bundle-" ++ kind.name ++ ".tmp"]

private theorem Emitted.store_cases {e e' : Emitted} {opts : ChunkerOptions} {kind : BundleKind}
    {d : Draft} (hs : e.store ar hash opts kind d = some e') :
    (hash.cidStringFor d.bytes ∈ e.writtenCids ∧ e' =
      { e with files := (e.files.insert (opts.bundleTmp kind) d.bytes).erase
                (opts.bundleTmp kind) }) ∨
    ∃ bytesWritten, e' =
      { e with files := renameFile (e.files.insert (opts.bundleTmp kind) d.bytes)
                (opts.bundleTmp kind)
                (chunkLocation opts.outputDir (hash.cidStringFor d.bytes))
               writtenCids := hash.cidStringFor d.bytes :: e.writtenCids
               bytesWritten } := by
  unfold Emitted.store at hs
  dsimp only at hs
  split_ifs at hs with hwritten
  · exact .inl ⟨hwritten, (Option.some.inj hs).symm⟩
  · obtain ⟨bytesWritten, -, hs⟩ := Option.bind_eq_some_iff.mp hs
    exact .inr ⟨bytesWritten, (Option.some.inj hs).symm⟩

theorem Emitted.lookup_store {e e' : Emitted} {opts : ChunkerOptions} {kind : BundleKind}
    {d : Draft} (hs : e.store ar hash opts kind d = some e') {cid : String}
    (hcid : cid ∈ e'.writtenCids) :
    cid ∈ e.writtenCids ∧ e'.files.lookup (chunkLocation opts.outputDir cid) =
        e.files.lookup (chunkLocation opts.outputDir cid) ∨
      cid = hash.cidStringFor d.bytes ∧
        e'.files.lookup (chunkLocation opts.outputDir cid) = some d.bytes := by
  have hne : chunkLocation opts.outputDir cid ≠ opts.bundleTmp kind :=
    (bundleTmp_ne opts.outputDir kind cid).symm
  obtain ⟨-, rfl⟩ | ⟨bytesWritten, rfl⟩ := Emitted.store_cases hs
  · exact .inl ⟨hcid, by rw [AList.lookup_erase_ne hne, AList.lookup_insert_ne hne]⟩
  · have hrename := lookup_renameFile e.files (opts.bundleTmp kind)
      (chunkLocation opts.outputDir (hash.cidStringFor d.bytes)) d.bytes
    by_cases heq : cid = hash.cidStringFor d.bytes
    · subst heq
      exact .inr ⟨rfl, hrename.1⟩
    · exact .inl ⟨(List.mem_cons.mp hcid).resolve_left heq,
        hrename.2 _ hne fun hsame => heq (chunkLocation_inj hsame)⟩

theorem Emitted.writtenCids_store {e e' : Emitted} {opts : ChunkerOptions} {kind : BundleKind}
    {d : Draft} (hs : e.store ar hash opts kind d = some e') :
    hash.cidStringFor d.bytes ∈ e'.writtenCids ∧ ∀ cid ∈ e.writtenCids, cid ∈ e'.writtenCids := by
  obtain ⟨hwritten, rfl⟩ | ⟨bytesWritten, rfl⟩ := Emitted.store_cases hs
  · exact ⟨hwritten, fun _ hcid => hcid⟩
  · exact ⟨List.mem_cons_self, fun _ hcid => List.mem_cons_of_mem _ hcid⟩

theorem Emitted.bundles_store {e e' : Emitted} {opts : ChunkerOptions} {kind : BundleKind}
    {d : Draft} (hs : e.store ar hash opts kind d = some e') : e'.bundles = e.bundles := by
  obtain ⟨-, rfl⟩ | ⟨bytesWritten, rfl⟩ := Emitted.store_cases hs <;> rfl

theorem Emitted.Listed.store {e e' : Emitted} {opts : ChunkerOptions} {kind : BundleKind}
    {d : Draft} (h : e.Listed hash opts.outputDir before)
    (hs : e.store ar hash opts kind d = some e') :
    e'.Listed hash opts.outputDir before ∧ hash.cidStringFor d.bytes ∈ e'.writtenCids := by
  have hplace : ChunkerPlace opts.outputDir (opts.bundleTmp kind) := .chunk _
  obtain ⟨hcid, hmono⟩ := Emitted.writtenCids_store hs
  refine ⟨⟨?_, ?_, ?_⟩, hcid⟩
  · obtain ⟨-, rfl⟩ | ⟨bytesWritten, rfl⟩ := Emitted.store_cases hs
    · exact h.frame.trans ((agreeOff_insert hplace _ _).trans (agreeOff_erase hplace _))
    · exact h.frame.trans ((agreeOff_insert hplace _ _).trans
        (agreeOff_renameFile hplace (.chunk _) _))
  · intro cid hcid
    rcases Emitted.lookup_store hs hcid with ⟨hold, hlookup⟩ | ⟨rfl, hlookup⟩
    · obtain ⟨hhash, hsome⟩ := h.written cid hold
      exact ⟨hhash, hlookup ▸ hsome⟩
    · exact ⟨⟨d.bytes, rfl⟩, Option.isSome_iff_exists.mpr ⟨_, hlookup⟩⟩
  · intro b hb
    rw [Emitted.bundles_store hs] at hb
    exact hmono _ (h.bundles b hb)

private theorem emitBundle_listed {g : Gguf} {e e' : Emitted} {opts : ChunkerOptions}
    {group : BundleKey × List TensorIndexEntry} (hdry : opts.dryRun = false)
    (h : e.Listed hash opts.outputDir before)
    (hs : emitBundle ar ar32 hash g opts e group = some e') :
    e'.Listed hash opts.outputDir before ∧ ∀ cid ∈ e.writtenCids, cid ∈ e'.writtenCids := by
  unfold emitBundle at hs
  simp only [hdry, Bool.false_eq_true, if_false] at hs
  obtain ⟨d, -, hs⟩ := Option.bind_eq_some_iff.mp hs
  obtain ⟨stored, hstore, hs⟩ := Option.bind_eq_some_iff.mp hs
  obtain ⟨layerRange, -, hs⟩ := Option.bind_eq_some_iff.mp hs
  obtain rfl := Option.some.inj hs
  obtain ⟨hlisted, hcid⟩ := h.store hstore
  have hmono := (Emitted.writtenCids_store hstore).2
  refine ⟨⟨hlisted.frame, hlisted.written, ?_⟩, hmono⟩
  intro b hb
  rcases List.mem_append.mp hb with hb | hb
  · exact hlisted.bundles b hb
  · obtain rfl := List.mem_singleton.mp hb
    exact hcid

private theorem emitBundles_listed {g : Gguf} {opts : ChunkerOptions} (hdry : opts.dryRun = false)
    {groups : List (BundleKey × List TensorIndexEntry)} {e e' : Emitted}
    (h : e.Listed hash opts.outputDir before)
    (hs : groups.foldlM (emitBundle ar ar32 hash g opts) e = some e') :
    e'.Listed hash opts.outputDir before ∧ ∀ cid ∈ e.writtenCids, cid ∈ e'.writtenCids := by
  induction groups generalizing e with
  | nil =>
      obtain rfl := Option.some.inj hs
      exact ⟨h, fun cid hcid => hcid⟩
  | cons group groups ih =>
      rw [List.foldlM_cons] at hs
      obtain ⟨e₁, hfirst, hrest⟩ := Option.bind_eq_some_iff.mp hs
      obtain ⟨hlisted, hmono⟩ := emitBundle_listed hdry h hfirst
      obtain ⟨hlisted', hmono'⟩ := ih hlisted hrest
      exact ⟨hlisted', fun cid hcid => hmono' cid (hmono cid hcid)⟩

private theorem writeChunk_listed (header : Bytes) (n : Nat) :
    Emitted.Listed hash dir before ⟨writeChunk before dir (hash.cidStringFor header) header,
      [hash.cidStringFor header], n, []⟩ := by
  have htmp : ChunkerPlace dir (dir ++ ["chunks", hash.cidStringFor header ++ ".bin.tmp"]) :=
    .chunk _
  refine ⟨?_, ?_, nofun⟩
  · exact (agreeOff_insert htmp _ _).trans (agreeOff_renameFile htmp (.chunk _) _)
  · intro cid hcid
    obtain rfl := List.mem_singleton.mp hcid
    exact ⟨⟨header, rfl⟩, Option.isSome_iff_exists.mpr ⟨_, (lookup_renameFile _ _ _ header).1⟩⟩

theorem emitChunks_listed {g : Gguf} {opts : ChunkerOptions} (hdry : opts.dryRun = false)
    {header : Bytes} {groups : List (BundleKey × List TensorIndexEntry)} {e : Emitted}
    (hs : emitChunks ar ar32 hash g opts header groups before = some e) :
    e.Listed hash opts.outputDir before ∧ hash.cidStringFor header ∈ e.writtenCids := by
  unfold emitChunks at hs
  simp only [hdry, Bool.false_eq_true, if_false] at hs
  obtain ⟨bytesWritten, -, hs⟩ := Option.bind_eq_some_iff.mp hs
  obtain ⟨start, hstart, hs⟩ := Option.bind_eq_some_iff.mp hs
  obtain rfl := Option.some.inj hstart
  obtain ⟨hlisted, hmono⟩ := emitBundles_listed hdry (writeChunk_listed header bytesWritten) hs
  exact ⟨hlisted, hmono _ List.mem_cons_self⟩

def Manifest.chunks (m : Manifest) : List Chunk :=
  m.headerChunk :: m.bundles.map BundleEntry.chunk

theorem ofPanic_ok {ε α : Type} {o : Option α} {a : α}
    (h : (ofPanic o : Except (Stop ε) α) = .ok a) : o = some a := by
  cases o with
  | none => cases h
  | some b => rw [Except.ok.inj h]

private theorem ofGguf_ok {α : Type} {r : Except (Stop GgufError) α} {a : α}
    (h : ofGguf r = .ok a) :
    r = .ok a := by
  cases r with
  | error e => cases e <;> cases h
  | ok b => rw [Except.ok.inj h]

private theorem ofPanic_bind_ok {ε α β : Type} {o : Option α} (h : o.isSome) (f : α → β) :
    ∃ b, ((ofPanic o : Except (Stop ε) α) >>= fun a => pure (f a)) = .ok b := by
  obtain ⟨a, rfl⟩ := Option.isSome_iff_exists.mp h
  exact ⟨f a, rfl⟩

/-- What a split leaves in its directory: the manifest, all its chunks, and what was there. -/
structure Split (hash : Hashing) (json : ManifestJson) (dir : Location) (before : Files)
    (outcome : ChunkOutcome) (files : Files) : Prop where
  cid : outcome.manifestCid = hash.cidStringFor (json.toJsonBytes outcome.manifest)
  listing : files.lookup (dir ++ ["manifest.json"]) = some (json.toJsonBytes outcome.manifest)
  chunks : ∀ c ∈ outcome.manifest.chunks, OnDisk hash dir files c.cid
  frame : AgreeOff (ChunkerPlace dir) before files

/-- The manifest of a parsed file, with the bundles that were emitted. -/
def parsedManifest (hash : Hashing) (g : Gguf) (d : Diagnostics) (tensors : List TensorIndexEntry)
    (header : Bytes) (bundles : List BundleEntry) : Manifest where
  format := "intelnav-model"
  version := manifestVersion
  name := d.name
  architecture := d.architecture
  nLayers := d.blockCount.getD ((maxBlock tensors + 1).toNat % 2 ^ 32)
  gguf := { ggufVersion := g.version, alignment := g.alignment
            tensorDataOffset := g.tensorDataOffset, nKv := g.nKv, nTensors := g.nTensors }
  headerChunk := ⟨hash.cidStringFor header, header.length⟩
  bundles := bundles

def parsedOutcome (hash : Hashing) (json : ManifestJson) (manifest : Manifest)
    (bytesWritten : Nat) : ChunkOutcome where
  manifest := manifest
  manifestCid := hash.cidStringFor (json.toJsonBytes manifest)
  manifestBytes := json.toJsonBytes manifest
  nBundles := manifest.bundles.length
  nTensors := (manifest.bundles.map fun b => b.members.length).sum
  bytesWritten := bytesWritten

@[simp] theorem parsedOutcome_manifestBytes (json : ManifestJson) (manifest : Manifest) (n : Nat) :
    (parsedOutcome hash json manifest n).manifestBytes = json.toJsonBytes manifest := rfl

section Parsed

variable {json : ManifestJson} {g : Gguf} {d : Diagnostics} {tensors : List TensorIndexEntry}
  {header : Bytes} {opts : ChunkerOptions} {files : Files} {e : Emitted}

theorem chunkParsed_run (hdry : opts.dryRun = false)
    (hprepare : prepareOutputDir files opts = .ok ()) (hemit : emitChunks ar ar32 hash g opts header
      (groups (fun t => (classifyTensor t.name).key) tensors) files = some e) {n : Nat}
    (hadd : ar.add e.bytesWritten (json.toJsonBytes
      (parsedManifest hash g d tensors header e.bundles)).length = some n) :
    chunkParsed ar ar32 hash json g d tensors header opts files =
      .ok (parsedOutcome hash json (parsedManifest hash g d tensors header e.bundles) n,
        e.files.insert (opts.outputDir ++ ["manifest.json"])
          (json.toJsonBytes (parsedManifest hash g d tensors header e.bundles))) := by
  rw [parsedManifest] at hadd
  simp only [chunkParsed, hdry, hprepare, hemit, ofPanic, bind, Except.bind, hadd]
  rfl

theorem chunkParsed_dryRun (hdry : opts.dryRun = true)
    (hemit : emitChunks ar ar32 hash g opts header
      (groups (fun t => (classifyTensor t.name).key) tensors) files = some e) :
    chunkParsed ar ar32 hash json g d tensors header opts files =
      .ok (parsedOutcome hash json (parsedManifest hash g d tensors header e.bundles)
        e.bytesWritten, e.files) := by
  simp only [chunkParsed, hdry, hemit]
  rfl

end Parsed

theorem chunkParsed_ok {json : ManifestJson} {g : Gguf} {d : Diagnostics}
    {tensors : List TensorIndexEntry}
    {header : Bytes} {opts : ChunkerOptions} {files : Files} {outcome : ChunkOutcome}
    {files' : Files}
    (h : chunkParsed ar ar32 hash json g d tensors header opts files = .ok (outcome, files')) :
    ∃ e, emitChunks ar ar32 hash g opts header
          (groups (fun t => (classifyTensor t.name).key) tensors) files = some e ∧
      outcome.manifest = parsedManifest hash g d tensors header e.bundles ∧
      outcome.manifestCid = hash.cidStringFor (json.toJsonBytes outcome.manifest) ∧
      (opts.dryRun = false → files' = e.files.insert (opts.outputDir ++ ["manifest.json"])
        (json.toJsonBytes outcome.manifest)) := by
  unfold chunkParsed at h
  by_cases hdry : opts.dryRun = true
  · simp only [hdry, not_true_eq_false, if_true, if_false] at h
    obtain ⟨e, hemit, h⟩ := bind_ok h
    obtain ⟨bytesWritten, -, h⟩ := bind_ok h
    obtain ⟨rfl, -⟩ := Prod.mk.inj (Except.ok.inj h)
    exact ⟨e, ofPanic_ok hemit, rfl, rfl, fun hwet => absurd (hdry.symm.trans hwet) (by decide)⟩
  · simp only [hdry] at h
    obtain ⟨-, -, h⟩ := bind_ok h
    obtain ⟨e, hemit, h⟩ := bind_ok h
    obtain ⟨bytesWritten, -, h⟩ := bind_ok h
    obtain ⟨rfl, rfl⟩ := Prod.mk.inj (Except.ok.inj h)
    exact ⟨e, ofPanic_ok hemit, rfl, rfl, fun _ => rfl⟩

private theorem chunkParsed_split {json : ManifestJson} {g : Gguf} {d : Diagnostics}
    {tensors : List TensorIndexEntry} {header : Bytes} {opts : ChunkerOptions}
    (hdry : opts.dryRun = false) {outcome : ChunkOutcome} {files : Files}
    (h : chunkParsed ar ar32 hash json g d tensors header opts before = .ok (outcome, files)) :
    Split hash json opts.outputDir before outcome files := by
  obtain ⟨e, hemit, hmanifest, hcid, hfiles⟩ := chunkParsed_ok h
  obtain ⟨hlisted, hheader⟩ := emitChunks_listed hdry hemit
  rw [hfiles hdry]
  refine ⟨hcid, AList.lookup_insert _, ?_, hlisted.frame.trans (agreeOff_insert .manifest _ _)⟩
  intro c hc
  rw [hmanifest] at hc
  have hcid : c.cid ∈ e.writtenCids := by
    rcases List.mem_cons.mp hc with rfl | hc
    · exact hheader
    · obtain ⟨b, hb, rfl⟩ := List.mem_map.mp hc
      exact hlisted.bundles b hb
  obtain ⟨hhash, hsome⟩ := hlisted.written c.cid hcid
  refine ⟨hhash, ?_⟩
  rw [AList.lookup_insert_ne (manifest_ne_chunk opts.outputDir c.cid).symm]
  exact hsome

theorem chunkParsed_json (hadd : ∀ a b, (ar.add a b).isSome) {json : ManifestJson} {g : Gguf}
    {d : Diagnostics} {tensors : List TensorIndexEntry} {header : Bytes} {opts : ChunkerOptions}
    (hdry : opts.dryRun = false) {outcome : ChunkOutcome} {files : Files}
    (h : chunkParsed ar ar32 hash json g d tensors header opts before = .ok (outcome, files))
    (json' : ManifestJson) : ∃ outcome' files',
      chunkParsed ar ar32 hash json' g d tensors header opts before = .ok (outcome', files') := by
  unfold chunkParsed at h ⊢
  simp only [hdry, Bool.false_eq_true, not_false_eq_true, if_true, if_false] at h ⊢
  obtain ⟨done, hprepare, h⟩ := bind_ok h
  obtain ⟨e, hemit, -⟩ := bind_ok h
  rw [hprepare, hemit]
  exact Prod.exists.mp (ofPanic_bind_ok (hadd e.bytesWritten _) _)

theorem chunkGguf_ok {json : ManifestJson} {m : Mmap} {opts : ChunkerOptions}
    {outcome : ChunkOutcome} {files : Files}
    (h : chunkGguf ar ar32 hash json m opts before = .ok (outcome, files)) :
    ∃ g kvs d tensors header, Gguf.open ar m = .ok g ∧ g.kvEntries ar = .ok kvs ∧
      kvs.foldlM (Diagnostics.read ar) ⟨none, none, none⟩ = some d ∧ g.tensors ar = .ok tensors ∧
      m.slice 0 g.tensorDataOffset = some header ∧
      chunkParsed ar ar32 hash json g d tensors header opts before = .ok (outcome, files) := by
  unfold chunkGguf at h
  obtain ⟨g, hg, h⟩ := bind_ok h
  obtain ⟨kvs, hkvs, h⟩ := bind_ok h
  obtain ⟨d, hd, h⟩ := bind_ok h
  obtain ⟨tensors, htensors, h⟩ := bind_ok h
  obtain ⟨header, hheader, h⟩ := bind_ok h
  exact ⟨g, kvs, d, tensors, header, ofGguf_ok hg, ofGguf_ok hkvs, ofPanic_ok hd,
    ofGguf_ok htensors, ofPanic_ok hheader, h⟩

theorem chunkGguf_data {json : ManifestJson} {m : Mmap} {g : Gguf}
    (hopen : Gguf.open ar m = .ok g) {opts : ChunkerOptions} {outcome : ChunkOutcome}
    {files : Files}
    (h : chunkGguf ar ar32 hash json m opts before = .ok (outcome, files)) :
    g.tensorDataOffset ≤ m.bytes.length := by
  obtain ⟨g', _, _, _, _, hg, -, -, -, hslice, -⟩ := chunkGguf_ok h
  obtain rfl := Except.ok.inj (hopen.symm.trans hg)
  unfold Mmap.slice at hslice
  split_ifs at hslice
  omega

theorem chunkGguf_split {json : ManifestJson} {m : Mmap} {opts : ChunkerOptions}
    (hdry : opts.dryRun = false) {outcome : ChunkOutcome} {files : Files}
    (h : chunkGguf ar ar32 hash json m opts before = .ok (outcome, files)) :
    Split hash json opts.outputDir before outcome files := by
  obtain ⟨g, kvs, d, tensors, header, -, -, -, -, -, h⟩ := chunkGguf_ok h
  exact chunkParsed_split hdry h

end IntelNav.ModelStore
