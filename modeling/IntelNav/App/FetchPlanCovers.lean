import IntelNav.App.Announced
import IntelNav.App.PulledSlice
import IntelNav.ModelStore.Selection

/-! The chunks that a pull fetches for a range of layers, and the ones that the stitcher opens for
the slice of that range. -/

set_option autoImplicit false
set_option relaxedAutoImplicit false

namespace IntelNav.App

open IntelNav.Disk IntelNav.Layout IntelNav.ModelStore IntelNav.Reading

def chunkFile (dir : Location) (cid : String) : Location :=
  join (join dir "chunks") (cid ++ ".bin")

def planFiles (manifest : Manifest) (plan : FetchPlan) (dir : Location) : List Location :=
  match wantedChunks manifest plan with
  | .ok wanted => wanted.map fun c => chunkFile dir c.cid
  | .error _ => []

/-- The range of the slice is valid for its manifest, and the stitcher opens exactly the files that
were fetched for it. -/
structure PlanCovers (ar : Arith) (hash : Hashing) (files : Files) (manifest : Manifest)
    (dir : Location) (start stop : UInt16) : Prop where
  valid : validateRange manifest (pulledRange (start, stop) manifest) = .ok ()
  opens : ∀ p, p ∈ stitchOpens ar hash files manifest dir (pulledRange (start, stop) manifest) ↔
    p ∈ planFiles manifest (.forRange manifest start.toNat stop.toNat) dir

variable {ar : Arith} {hash : Hashing} {m : Mmap} {manifest : Manifest} {dir : Location}
  {files : Files} {start stop : UInt16}

private theorem findBundle_ok (hlists : manifest.Lists ar hash m) {name : String} {c : Chunk} :
    findBundle manifest name = .ok c ↔ ∃ b ∈ manifest.bundles, b.name = name ∧ b.chunk = c := by
  unfold findBundle
  constructor
  · intro h
    cases hfind : manifest.bundles.find? (·.name = name) with
    | none =>
        rw [hfind] at h
        cases h
    | some b =>
        rw [hfind] at h
        have hname := List.find?_some hfind
        exact ⟨b, List.mem_of_find?_eq_some hfind, of_decide_eq_true hname, Except.ok.inj h⟩
  · rintro ⟨b, hb, hname, rfl⟩
    cases hfind : manifest.bundles.find? (·.name = name) with
    | none => exact absurd (List.find?_eq_none.mp hfind b hb) (by simp [hname])
    | some b' =>
        have hname' := List.find?_some hfind
        simp only [decide_eq_true_eq] at hname'
        have hsame : b' = b := List.inj_on_of_nodup_map hlists.distinct
          (List.mem_of_find?_eq_some hfind) hb (hname'.trans hname.symm)
        rw [hsame]

private theorem mem_wanted (hlists : manifest.Lists ar hash m) {names : List String}
    {wanted : List Chunk} (h : wantedChunks manifest (.bundles names) = .ok wanted) (c : Chunk) :
    c ∈ wanted ↔ c = manifest.headerChunk ∨
      ∃ b ∈ manifest.bundles, b.name ∈ names ∧ b.chunk = c := by
  unfold wantedChunks at h
  obtain ⟨chunks, hchunks, h⟩ := bind_ok h
  obtain rfl := Except.ok.inj h
  rw [List.mem_cons, mem_mapM_ok hchunks]
  refine or_congr Iff.rfl ?_
  constructor
  · rintro ⟨name, hname, hfind⟩
    obtain ⟨b, hb, rfl, hc⟩ := (findBundle_ok hlists).mp hfind
    exact ⟨b, hb, hname, hc⟩
  · rintro ⟨b, hb, hname, hc⟩
    exact ⟨b.name, hname, (findBundle_ok hlists).mpr ⟨b, hb, rfl, hc⟩⟩

private theorem weighs_wanted (hlists : manifest.Lists ar hash m) {names : List String}
    {wanted : List Chunk} (h : wantedChunks manifest (.bundles names) = .ok wanted) {c : Chunk}
    (hc : c ∈ wanted) : c.Weighs hash := by
  rcases (mem_wanted hlists h c).mp hc with rfl | ⟨b, hb, -, rfl⟩
  · obtain ⟨g, -, hle, -, hheader⟩ := hlists.header
    have hlt := m.length_lt
    refine ⟨m.bytes.take g.tensorDataOffset, by rw [hheader], ?_⟩
    rw [hheader, List.length_take, Nat.min_eq_left hle]
    show g.tensorDataOffset = g.tensorDataOffset % 2 ^ 64
    omega
  · exact (hlists.bundles b hb).2

private theorem stored_wanted (hbase : hash.Base32) (hinj : Function.Injective hash.cidStringFor)
    {fetched : FetchedManifest} (hlists : fetched.manifest.Lists ar hash m) {names : List String}
    {opts : FetchOptions} {server : ChunkServer} {before : Files} {outcome : FetchOutcome}
    (h : fetchChunks hash fetched (.bundles names) opts server before = (.ok outcome, files)) :
    ∃ wanted, wantedChunks fetched.manifest (.bundles names) = .ok wanted ∧
      ∀ c ∈ wanted, ∃ bytes, files.lookup (chunkFile fetched.dir c.cid) = some bytes ∧
        hash.cidStringFor bytes = c.cid ∧ bytes.length = c.size := by
  obtain ⟨-, wanted, hwanted, hstored, -⟩ := fetchChunks_stored hbase h
  refine ⟨wanted, hwanted, fun c hc => ?_⟩
  obtain ⟨d, hd, heq, bytes, hlookup, hcid, hle⟩ := hstored c hc
  obtain ⟨bytes₁, hcid₁, hsize₁⟩ := weighs_wanted hlists hwanted hc
  obtain ⟨bytes₂, hcid₂, hsize₂⟩ := weighs_wanted hlists hwanted hd
  obtain rfl : bytes = bytes₁ := hinj (hcid.trans (heq.trans hcid₁))
  obtain rfl : bytes = bytes₂ := hinj (hcid.trans hcid₂)
  have hmod := Nat.mod_le bytes.length (2 ^ 64)
  exact ⟨bytes, heq ▸ hlookup, hcid.trans heq, by omega⟩

/-- The layer count fits its two bytes in the sidecar, or is not taken for the end of the range. -/
def HeadKept (manifest : Manifest) (stop : UInt16) : Prop :=
  manifest.nLayers < 2 ^ 16 ∨ stop.toNat ≠ manifest.nLayers % 2 ^ 16

private theorem includeHead_iff (start stop : UInt16) (manifest : Manifest) :
    (pulledRange (start, stop) manifest).includeHead = true ↔
      stop.toNat = manifest.nLayers % 2 ^ 16 := by
  have hcount : (UInt16.ofNat manifest.nLayers).toNat = manifest.nLayers % 2 ^ 16 :=
    UInt16.toNat_ofNat'
  simp only [pulledRange, sliceRange, decide_eq_true_eq]
  rw [← hcount, UInt16.toNat_inj]

private theorem validateRange_iff (hle : start ≤ stop) (hstop : stop.toNat ≤ manifest.nLayers) :
    validateRange manifest (pulledRange (start, stop) manifest) = .ok () ↔
      HeadKept manifest stop := by
  have hle' : start.toNat ≤ stop.toNat := hle
  have hstart' : (pulledRange (start, stop) manifest).start.toNat = start.toNat :=
    UInt16.toNat_toUInt32 start
  have hstop' : (pulledRange (start, stop) manifest).stop.toNat = stop.toNat :=
    UInt16.toNat_toUInt32 stop
  have horder : ¬ (pulledRange (start, stop) manifest).stop <
      (pulledRange (start, stop) manifest).start := by
    rw [UInt32.lt_iff_toNat_lt, hstart', hstop']
    omega
  have hwithin : ¬ manifest.nLayers < (pulledRange (start, stop) manifest).stop.toNat := by
    rw [hstop']
    omega
  have hembed : ¬ ((pulledRange (start, stop) manifest).includeEmbed = true ∧
      (pulledRange (start, stop) manifest).start ≠ 0) := by
    rintro ⟨hzero, hne⟩
    have hzero : start = 0 := of_decide_eq_true hzero
    apply hne
    apply UInt32.toNat_inj.mp
    rw [hstart', hzero]
    rfl
  have hhead := includeHead_iff start stop manifest
  unfold validateRange
  rw [if_neg horder, if_neg hwithin, if_neg hembed, hstop']
  constructor
  · intro h
    split_ifs at h with hbad
    rw [hhead] at hbad
    unfold HeadKept
    omega
  · intro h
    rw [if_neg]
    rw [hhead]
    unfold HeadKept at h
    omega

private theorem selects_iff (hstop : stop.toNat ≤ manifest.nLayers)
    (hkept : HeadKept manifest stop) (kind : BundleKind) :
    (pulledRange (start, stop) manifest).Selects kind ↔
      kind.name ∈ planNames manifest start.toNat stop.toNat := by
  have hlt := stop.toNat_lt
  rw [name_mem_planNames (by omega)]
  cases kind with
  | embed =>
      show decide (start = 0) = true ↔ start.toNat = 0
      rw [decide_eq_true_eq, ← UInt16.toNat_inj]
      rfl
  | block n =>
      show start.toUInt32 ≤ n ∧ n < stop.toUInt32 ↔ _
      rw [UInt32.le_iff_toNat_le, UInt32.lt_iff_toNat_lt, UInt16.toNat_toUInt32,
        UInt16.toNat_toUInt32]
  | head =>
      show (pulledRange (start, stop) manifest).includeHead = true ↔ stop.toNat = manifest.nLayers
      rw [includeHead_iff]
      unfold HeadKept at hkept
      omega

private theorem resolve_stored {cid : String} {bytes : Bytes}
    (h : files.lookup (chunkFile dir cid) = some bytes) :
    chunksDirResolve files dir cid = chunkFile dir cid := by
  unfold chunksDirResolve
  exact if_pos (by
    show (files.lookup (chunkFile dir cid)).isSome = true
    rw [h, Option.isSome_some])

private theorem bundleOpens_stored {range : StitchRange} {bundles : List BundleEntry}
    (hkinds : ∀ b ∈ bundles, ∃ kind : BundleKind, b.name = kind.name)
    (hstored : ∀ b ∈ bundles, ∀ kind : BundleKind, b.name = kind.name → range.Selects kind →
      ∃ bytes, files.lookup (chunkFile dir b.cid) = some bytes ∧ bytes.length = b.size)
    (p : Location) :
    p ∈ bundleOpens files dir range bundles ↔
      ∃ b ∈ bundles, (∃ kind : BundleKind, b.name = kind.name ∧ range.Selects kind) ∧
        p = chunkFile dir b.cid := by
  induction bundles with
  | nil => simp [bundleOpens]
  | cons b bundles ih =>
      have hrest := ih (fun c hc => hkinds c (List.mem_cons_of_mem _ hc))
        (fun c hc => hstored c (List.mem_cons_of_mem _ hc))
      obtain ⟨kind, hname⟩ := hkinds b List.mem_cons_self
      have hincludes := includesBundle_name range kind
      rw [← hname] at hincludes
      rw [List.exists_mem_cons_iff, ← hrest, bundleOpens, hincludes]
      by_cases hselects : range.Selects kind
      · obtain ⟨bytes, hlookup, hsize⟩ := hstored b List.mem_cons_self kind hname hselects
        rw [decide_eq_true hselects]
        dsimp only
        rw [resolve_stored hlookup, hlookup]
        dsimp only
        rw [if_neg (by simp [hsize]), List.mem_cons]
        refine or_congr ?_ Iff.rfl
        exact ⟨fun hp => ⟨⟨kind, hname, hselects⟩, hp⟩, fun hp => hp.2⟩
      · rw [decide_eq_false hselects]
        constructor
        · exact .inr
        · rintro (⟨⟨kind', hname', hselects'⟩, -⟩ | hp)
          · obtain rfl := BundleKind.name_injective (hname.symm.trans hname')
            exact absurd hselects' hselects
          · exact hp

/-- The stitcher gets as far as the bundles: there is an architecture, and the header leaves room
for the one byte after it. -/
def Stitchable (manifest : Manifest) : Prop :=
  manifest.architecture.isSome = true ∧ manifest.headerChunk.size + 1 < 2 ^ 63

private theorem reachesBundles_iff (har : ar.Words 64) (hinj : Function.Injective hash.cidStringFor)
    (hlists : manifest.Lists ar hash m) {bytes : Bytes}
    (hcid : hash.cidStringFor bytes = manifest.headerChunk.cid) :
    reachesBundles ar manifest bytes = true ↔ Stitchable manifest := by
  obtain ⟨g, hopen, hle, hoffset, hheader⟩ := hlists.header
  obtain ⟨hd, hword, rfl⟩ := (open_iff har).mp hopen
  set data := (hd.gguf m).tensorDataOffset with hdata
  rw [hheader] at hcid
  obtain rfl : bytes = m.bytes.take data := hinj hcid
  have hlen : (m.bytes.take data).length = data := by
    rw [List.length_take]
    omega
  have hpad : (Int64.ofNat data - Int64.ofNat data).toInt.toNat = 0 := by simp
  have hscratch : scratchGgufFromHeader (m.bytes.take data) manifest.gguf.tensorDataOffset =
      m.bytes.take data ++ [0] := by
    simp only [scratchGgufFromHeader, hoffset, hlen, hpad, List.replicate_zero, List.append_nil]
  have hfits : hd.word.length ≤ data := by
    have hup := Header.le_alignedUp hd.word.length hd.alignment
    exact hup
  have hprefix : hd.word <+: m.bytes.take data ++ [0] :=
    (List.prefix_take_iff.mpr ⟨hword, hfits⟩).trans (List.prefix_append _ _)
  have hparses : ∀ hlt, (Gguf.open ar ⟨m.bytes.take data ++ [0], hlt⟩).isOk = true := by
    intro hlt
    rw [(open_iff har).mpr ⟨hd, hprefix, rfl⟩]
    rfl
  have hsize : (m.bytes.take data ++ [0]).length = manifest.headerChunk.size + 1 := by
    rw [hheader, List.length_append, hlen]
    rfl
  have hsame : (m.bytes.take data).length = manifest.headerChunk.size := by
    rw [hheader, hlen]
  unfold reachesBundles Stitchable
  simp only [hscratch, hsame, decide_true, Bool.true_and]
  split_ifs with hlt
  · rw [hsize] at hlt
    rw [hparses, Bool.and_true]
    exact ⟨fun harch => ⟨harch, hlt⟩, fun hboth => hboth.1⟩
  · rw [hsize] at hlt
    exact iff_of_false id fun hboth => hlt hboth.2

private theorem mem_stitchOpens (har : ar.Words 64) (hinj : Function.Injective hash.cidStringFor)
    (hlists : manifest.Lists ar hash m) (hstop : stop.toNat ≤ manifest.nLayers)
    (hkept : HeadKept manifest stop)
    (hvalid : validateRange manifest (pulledRange (start, stop) manifest) = .ok ())
    {wanted : List Chunk}
    (hwanted : wantedChunks manifest (.forRange manifest start.toNat stop.toNat) = .ok wanted)
    (hstored : ∀ c ∈ wanted, ∃ bytes, files.lookup (chunkFile dir c.cid) = some bytes ∧
      hash.cidStringFor bytes = c.cid ∧ bytes.length = c.size) (p : Location) :
    p ∈ stitchOpens ar hash files manifest dir (pulledRange (start, stop) manifest) ↔
      p = chunkFile dir manifest.headerChunk.cid ∨ (Stitchable manifest ∧
        ∃ b ∈ manifest.bundles, b.name ∈ planNames manifest start.toNat stop.toNat ∧
          p = chunkFile dir b.cid) := by
  have hmem := mem_wanted hlists hwanted
  obtain ⟨headerBytes, hlookup, hcid, -⟩ := hstored _ ((hmem _).mpr (.inl rfl))
  have hread : readCachedChunk hash files dir manifest.headerChunk.cid = .ok headerBytes := by
    unfold readCachedChunk
    rw [resolve_stored hlookup]
    dsimp only
    rw [hlookup]
    exact if_neg (not_not.mpr hcid)
  have hreach := reachesBundles_iff har hinj hlists hcid
  have hsizes : ∀ b ∈ manifest.bundles, ∀ kind : BundleKind, b.name = kind.name →
      (pulledRange (start, stop) manifest).Selects kind →
      ∃ bytes, files.lookup (chunkFile dir b.cid) = some bytes ∧ bytes.length = b.size := by
    intro b hb kind hname hselects
    have hplan := (selects_iff hstop hkept kind).mp hselects
    rw [← hname] at hplan
    obtain ⟨bytes, hlookup, -, hsize⟩ := hstored _ ((hmem _).mpr (.inr ⟨b, hb, hplan, rfl⟩))
    exact ⟨bytes, hlookup, hsize⟩
  have hbundles := bundleOpens_stored (fun b hb => (hlists.bundles b hb).1) hsizes p
  have hnames : ∀ b ∈ manifest.bundles,
      (∃ kind : BundleKind, b.name = kind.name ∧
        (pulledRange (start, stop) manifest).Selects kind) ↔
        b.name ∈ planNames manifest start.toNat stop.toNat := by
    intro b hb
    obtain ⟨kind, hname⟩ := (hlists.bundles b hb).1
    constructor
    · rintro ⟨kind', hname', hselects⟩
      rw [hname']
      exact (selects_iff hstop hkept kind').mp hselects
    · intro hplan
      rw [hname] at hplan
      exact ⟨kind, hname, (selects_iff hstop hkept kind).mpr hplan⟩
  unfold stitchOpens
  rw [hvalid]
  dsimp only
  rw [hread, resolve_stored hlookup, List.mem_cons]
  refine or_congr Iff.rfl ?_
  dsimp only
  by_cases hstitch : Stitchable manifest
  · rw [if_pos (hreach.mpr hstitch), hbundles]
    constructor
    · rintro ⟨b, hb, hkind, hp⟩
      exact ⟨hstitch, b, hb, (hnames b hb).mp hkind, hp⟩
    · rintro ⟨-, b, hb, hplan, hp⟩
      exact ⟨b, hb, (hnames b hb).mpr hplan, hp⟩
  · rw [if_neg fun h => hstitch (hreach.mp h)]
    exact iff_of_false List.not_mem_nil fun h => hstitch h.1

/-- What is fetched for a range of layers is what the stitcher opens for its slice exactly when the
layer count was not cut down to the end of the range, and the stitcher gets as far as the bundles or
wants none. -/
theorem fetch_plan_covers_stitch_iff (ar ar32 : Arith) (har : ar.Words 64) (hmod : Modular ar)
    (hash : Hashing) (hbase : hash.Base32) (hinj : Function.Injective hash.cidStringFor)
    (json : ManifestJson) (m : Mmap) (chunkOpts : ChunkerOptions) (disk : Files)
    (chunked : ChunkOutcome) (disk' : Files)
    (hchunk : chunkGguf ar ar32 hash json m chunkOpts disk = .ok (chunked, disk'))
    (start stop : UInt16) (hle : start ≤ stop) (hstop : stop.toNat ≤ chunked.manifest.nLayers)
    (fetched : FetchedManifest) (hfetched : fetched.manifest = chunked.manifest)
    (opts : FetchOptions) (server : ChunkServer) (before : Files) (outcome : FetchOutcome)
    (files : Files)
    (hfetch : fetchChunks hash fetched (.forRange fetched.manifest start.toNat stop.toNat) opts
      server before = (.ok outcome, files)) :
    PlanCovers ar hash files fetched.manifest fetched.dir start stop ↔
      HeadKept fetched.manifest stop ∧ (Stitchable fetched.manifest ∨
        ∀ p ∈ planFiles fetched.manifest (.forRange fetched.manifest start.toNat stop.toNat)
          fetched.dir, p = chunkFile fetched.dir fetched.manifest.headerChunk.cid) := by
  have hlists : fetched.manifest.Lists ar hash m := hfetched ▸ chunkGguf_lists hmod hchunk
  rw [← hfetched] at hstop
  obtain ⟨wanted, hwanted, hstored⟩ := stored_wanted hbase hinj hlists hfetch
  have hplan : ∀ p, p ∈ planFiles fetched.manifest
      (.forRange fetched.manifest start.toNat stop.toNat) fetched.dir ↔
      p = chunkFile fetched.dir fetched.manifest.headerChunk.cid ∨
        ∃ b ∈ fetched.manifest.bundles,
          b.name ∈ planNames fetched.manifest start.toNat stop.toNat ∧
          p = chunkFile fetched.dir b.cid := by
    intro p
    have hwanted' : wantedChunks fetched.manifest
        (.forRange fetched.manifest start.toNat stop.toNat) = .ok wanted := hwanted
    unfold planFiles
    rw [hwanted']
    dsimp only
    rw [List.mem_map]
    constructor
    · rintro ⟨c, hc, rfl⟩
      rcases (mem_wanted hlists hwanted c).mp hc with rfl | ⟨b, hb, hname, rfl⟩
      · exact .inl rfl
      · exact .inr ⟨b, hb, hname, rfl⟩
    · rintro (rfl | ⟨b, hb, hname, rfl⟩)
      · exact ⟨_, (mem_wanted hlists hwanted _).mpr (.inl rfl), rfl⟩
      · exact ⟨b.chunk, (mem_wanted hlists hwanted _).mpr (.inr ⟨b, hb, hname, rfl⟩), rfl⟩
  by_cases hkept : HeadKept fetched.manifest stop
  · have hvalid := (validateRange_iff hle hstop).mpr hkept
    have hopens := mem_stitchOpens har hinj hlists hstop hkept hvalid hwanted hstored
    constructor
    · intro hcovers
      refine ⟨hkept, or_iff_not_imp_left.mpr fun hnot p hp => ?_⟩
      rcases (hopens p).mp ((hcovers.opens p).mpr hp) with heq | ⟨hstitch, -⟩
      · exact heq
      · exact absurd hstitch hnot
    · rintro ⟨-, hreached⟩
      refine ⟨hvalid, fun p => ?_⟩
      rw [hopens, hplan]
      refine ⟨Or.imp_right And.right, fun hp => ?_⟩
      rcases hreached with hstitch | hnone
      · exact hp.imp_right fun hbundle => ⟨hstitch, hbundle⟩
      · exact .inl (hnone p ((hplan p).mpr hp))
  · refine iff_of_false (fun hcovers => hkept ?_) fun h => hkept h.1
    exact (validateRange_iff hle hstop).mp hcovers.valid

theorem oneDim : ([8] : List UInt64).length ≤ ggufMaxDims := by decide

theorem blockCountKey : (utf8 "a.block_count").length < 2 ^ 64 := by decide

def tower (deep : Bool) : Header release where
  entries :=
    [⟨⟨"general.architecture", by decide⟩, .string ⟨[97], by decide⟩⟩,
      ⟨⟨"a.block_count", blockCountKey⟩,
        .scalar .u32 [if deep then 2 else 3, 0, if deep then 1 else 0, 0] rfl⟩]
  tensors := [⟨⟨"blk.1.w", by decide⟩, [8], 0, 0, oneDim⟩]
  entries_le := by
    show 2 ≤ _
    decide
  tensors_le := by decide

private theorem tower_length (deep : Bool) : (tower deep).word.length = 133 := by
  revert deep
  decide +kernel

def towerFile (deep : Bool) : Mmap where
  bytes := (tower deep).word ++ List.replicate (27 + 32) 0
  length_lt := by
    rw [List.length_append, tower_length, List.length_replicate]
    decide

private theorem towerFile_length (deep : Bool) : (towerFile deep).bytes.length = 192 := by
  rw [towerFile, List.length_append, tower_length, List.length_replicate]

private theorem tower_offset (deep : Bool) :
    ((tower deep).gguf (towerFile deep)).tensorDataOffset = 160 := by
  revert deep
  decide +kernel

def towerTensor : TensorIndexEntry := ⟨"blk.1.w", [8], 0, 0, 32⟩

private theorem tower_tensors (deep : Bool) :
    ((tower deep).gguf (towerFile deep)).tensors release = .ok [towerTensor] := by
  have hsorted : sortedIndex ((tower deep).tensors.map TensorInfo.indexEntry) =
      [(0, ⟨"blk.1.w", [8], 0, 0, 0⟩)] := by
    rw [sortedIndex]
    exact List.mergeSort_singleton _
  rw [tensors_run words_release (List.prefix_append _ _), hsorted, tower_offset, towerFile_length]
  rfl

def towerHeight (deep : Bool) : Nat := if deep then 65538 else 3

private theorem tower_diagnostics (deep : Bool) :
    ((tower deep).entries.map Entry.kvEntry).foldlM (Diagnostics.read release)
      ⟨none, none, none⟩ = some ⟨none, some "a", some (towerHeight deep)⟩ := by
  revert deep
  decide +kernel

def towerHeader (deep : Bool) : Bytes := (towerFile deep).bytes.take 160

private theorem towerHeader_length (deep : Bool) : (towerHeader deep).length = 160 := by
  rw [towerHeader, List.length_take, towerFile_length]
  rfl

def towerBlock : Bytes := List.replicate 32 0

private theorem tower_emitted (deep : Bool) :
    ((emitChunks release release32 longHash ((tower deep).gguf (towerFile deep)) ⟨[], true, true⟩
      (towerHeader deep) (groups (fun t => (classifyTensor t.name).key) [towerTensor]) ∅).map
        fun e => e.bundles.map fun b => (b.name, b.chunk)) =
      some [("blk.1", ⟨longHash.cidStringFor towerBlock, 32⟩)] := by
  revert deep
  decide +kernel

structure TowerManifest (deep : Bool) (manifest : Manifest) : Prop where
  layers : manifest.nLayers = towerHeight deep
  architecture : manifest.architecture = some "a"
  header : manifest.headerChunk = ⟨longHash.cidStringFor (towerHeader deep), 160⟩
  bundles : manifest.bundles.map (fun b => (b.name, b.chunk)) =
    [("blk.1", ⟨longHash.cidStringFor towerBlock, 32⟩)]

private theorem tower_chunked (json : ManifestJson) (deep : Bool) :
    ∃ outcome disk, chunkGguf release release32 longHash json (towerFile deep) ⟨[], true, true⟩ ∅ =
        .ok (outcome, disk) ∧ TowerManifest deep outcome.manifest := by
  have hdata : ((tower deep).gguf (towerFile deep)).tensorDataOffset ≤
      (towerFile deep).bytes.length := by
    rw [tower_offset, towerFile_length]
    decide
  obtain ⟨d, hd, hrun⟩ := chunkGguf_eq longHash words_release (List.prefix_append _ _) hdata
    (tower_tensors deep) json ⟨[], true, true⟩ ∅
  rw [tower_diagnostics] at hd
  obtain rfl := Option.some.inj hd
  rw [tower_offset] at hrun
  obtain ⟨e, hemit, hbundles⟩ := Option.map_eq_some_iff.mp (tower_emitted deep)
  have hparsed : ∃ outcome disk, chunkParsed release release32 longHash json
      ((tower deep).gguf (towerFile deep)) ⟨none, some "a", some (towerHeight deep)⟩ [towerTensor]
      (towerHeader deep) ⟨[], true, true⟩ ∅ = .ok (outcome, disk) ∧
      outcome.manifest.nLayers = towerHeight deep ∧ outcome.manifest.architecture = some "a" ∧
      outcome.manifest.headerChunk =
        ⟨longHash.cidStringFor (towerHeader deep), (towerHeader deep).length⟩ ∧
      outcome.manifest.bundles = e.bundles := by
    unfold chunkParsed
    dsimp only
    rw [hemit]
    exact ⟨_, _, rfl, rfl, rfl, rfl, rfl⟩
  obtain ⟨outcome, disk, hok, hlayers, harch, hheader, hsame⟩ := hparsed
  rw [towerHeader_length] at hheader
  exact ⟨outcome, disk, hrun.trans hok, hlayers, harch, hheader, hsame ▸ hbundles⟩

def towerServer (deep : Bool) : ChunkServer where
  manifest := none
  chunk cid _ := ([towerHeader deep, towerBlock].find? fun b => longHash.cidStringFor b = cid).map
    fun b => ⟨false, none, [some b]⟩

private theorem towerServer_serves (deep : Bool) {bytes : Bytes}
    (h : bytes ∈ [towerHeader deep, towerBlock]) :
    (towerServer deep).Serves longHash ⟨longHash.cidStringFor bytes, bytes.length⟩ := by
  have hfind : [towerHeader deep, towerBlock].find?
      (fun b => longHash.cidStringFor b = longHash.cidStringFor bytes) = some bytes := by
    have hsome : ([towerHeader deep, towerBlock].find? fun b =>
        longHash.cidStringFor b = longHash.cidStringFor bytes).isSome := by
      rw [List.find?_isSome]
      exact ⟨bytes, h, decide_eq_true rfl⟩
    obtain ⟨b, hb⟩ := Option.isSome_iff_exists.mp hsome
    have hfound := List.find?_some hb
    have hcid := of_decide_eq_true hfound
    rw [hb, longHash_injective hcid]
  refine ⟨⟨false, none, [some bytes]⟩, bytes, ?_, by simp [sentBytes], rfl, rfl⟩
  show Option.map _ (List.find? _ _) = _
  rw [hfind, Option.map_some]

private theorem tower_wanted {deep : Bool} {manifest : Manifest} (h : TowerManifest deep manifest) :
    wantedChunks manifest (.forRange manifest 1 2) =
      .ok [⟨longHash.cidStringFor (towerHeader deep), 160⟩,
        ⟨longHash.cidStringFor towerBlock, 32⟩] := by
  have hnames : planNames manifest 1 2 = ["blk.1"] := by
    have hne : 2 ≠ manifest.nLayers := by
      have hheight : ∀ deep, 2 ≠ towerHeight deep := by decide
      rw [h.layers]
      exact hheight deep
    rw [planNames, if_neg hne]
    rfl
  obtain ⟨b, bs, hbundles, hb, hbs⟩ := List.map_eq_cons_iff.mp h.bundles
  obtain rfl := List.map_eq_nil_iff.mp hbs
  obtain ⟨hname, hchunk⟩ := Prod.mk.inj hb
  have hfind : findBundle manifest "blk.1" = .ok b.chunk := by
    rw [findBundle, hbundles, List.find?_cons_of_pos (by simpa using hname)]
  rw [forRange_eq, hnames, wantedChunks, h.header]
  simp only [List.mapM_cons, List.mapM_nil, hfind, hchunk]
  rfl

private theorem tower_fetched {deep : Bool} {manifest : Manifest}
    (h : TowerManifest deep manifest) :
    ∃ outcome files, fetchChunks longHash ⟨["slices"], manifest, "", ""⟩ (.forRange manifest 1 2)
      (.default ["slices"]) (towerServer deep) ∅ = (.ok outcome, files) := by
  refine fetchChunks_served longHash_base32 ⟨["slices"], manifest, "", ""⟩ (.default ["slices"])
    (tower_wanted h) ?_ fun p => AList.lookup_empty _
  intro c hc
  rcases List.mem_cons.mp hc with rfl | hc
  · have hmem : towerHeader deep ∈ [towerHeader deep, towerBlock] := List.mem_cons_self
    have hserves := towerServer_serves deep hmem
    rwa [towerHeader_length] at hserves
  · obtain rfl := List.mem_singleton.mp hc
    exact towerServer_serves deep (List.mem_cons_of_mem _ (List.mem_singleton.mpr rfl))

/-- The second layer of 65538 is fetched and not stitched: it is taken for the last one. -/
theorem range_end_taken_for_last :
    ∃ chunked disk outcome files,
      chunkGguf release release32 longHash prettyJson (towerFile true) ⟨[], true, true⟩ ∅ =
        .ok (chunked, disk) ∧
      (2 : UInt16).toNat ≤ chunked.manifest.nLayers ∧
      fetchChunks longHash ⟨["slices"], chunked.manifest, "", ""⟩
        (.forRange chunked.manifest (1 : UInt16).toNat (2 : UInt16).toNat) (.default ["slices"])
        (towerServer true) ∅ = (.ok outcome, files) ∧
      ¬ PlanCovers release longHash files chunked.manifest ["slices"] 1 2 := by
  obtain ⟨chunked, disk, hchunk, htower⟩ := tower_chunked prettyJson true
  obtain ⟨outcome, files, hfetch⟩ := tower_fetched htower
  have hstop : (2 : UInt16).toNat ≤ chunked.manifest.nLayers := by
    rw [htower.layers]
    decide
  refine ⟨chunked, disk, outcome, files, hchunk, hstop, hfetch, fun hcovers => ?_⟩
  have hkept := (validateRange_iff (by decide) hstop).mp hcovers.valid
  unfold HeadKept at hkept
  rw [htower.layers] at hkept
  exact absurd hkept (by decide)

/-- The second layer of three is fetched and stitched. -/
theorem fetch_plan_covers_tower :
    ∃ chunked disk outcome files,
      chunkGguf release release32 longHash prettyJson (towerFile false) ⟨[], true, true⟩ ∅ =
        .ok (chunked, disk) ∧
      fetchChunks longHash ⟨["slices"], chunked.manifest, "", ""⟩
        (.forRange chunked.manifest (1 : UInt16).toNat (2 : UInt16).toNat) (.default ["slices"])
        (towerServer false) ∅ = (.ok outcome, files) ∧
      PlanCovers release longHash files chunked.manifest ["slices"] 1 2 := by
  obtain ⟨chunked, disk, hchunk, htower⟩ := tower_chunked prettyJson false
  obtain ⟨outcome, files, hfetch⟩ := tower_fetched htower
  have hstop : (2 : UInt16).toNat ≤ chunked.manifest.nLayers := by
    rw [htower.layers]
    decide
  refine ⟨chunked, disk, outcome, files, hchunk, hfetch, ?_⟩
  refine (fetch_plan_covers_stitch_iff release release32 words_release modular_release longHash
    longHash_base32 longHash_injective prettyJson (towerFile false) ⟨[], true, true⟩ ∅ chunked disk
    hchunk 1 2 (by decide) hstop ⟨["slices"], chunked.manifest, "", ""⟩ rfl (.default ["slices"])
    (towerServer false) ∅ outcome files hfetch).mpr ⟨?_, .inl ⟨?_, ?_⟩⟩
  · left
    show chunked.manifest.nLayers < 2 ^ 16
    rw [htower.layers]
    decide
  · show chunked.manifest.architecture.isSome = true
    rw [htower.architecture]
    rfl
  · show chunked.manifest.headerChunk.size + 1 < 2 ^ 63
    rw [htower.header]
    decide

end IntelNav.App
