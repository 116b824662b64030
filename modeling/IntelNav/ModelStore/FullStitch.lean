import IntelNav.ModelStore.Selection

/-! The stitch of all layers: which files come back whole. -/

set_option autoImplicit false
set_option relaxedAutoImplicit false

namespace IntelNav.ModelStore

open IntelNav.Disk IntelNav.Reading IntelNav.Layout

variable {ar ar32 : Arith} {hash : Hashing}

/-- The count under a key that ends in `.block_count`. -/
def Entry.blockCount (count : Option Nat) (e : Entry ar) : Option Nat :=
  if e.value.ty = .u32 ∧ ".block_count".toList <:+ e.key.text.toList then
    some (ofLeBytes (e.value.word.take 4))
  else count

def Header.blockCount (hd : Header ar) : Option Nat := hd.entries.foldl Entry.blockCount none

def Header.HasBlock (hd : Header ar) (n : UInt32) : Prop :=
  ∃ t ∈ hd.tensors, classifyTensor t.name.text = .block n

/-- The last block count is above every block; where there is none, no block is the highest of all
`u32`. -/
def Header.CountsBlocks (hd : Header ar) : Prop :=
  ∀ n, hd.HasBlock n →
    match hd.blockCount with
    | some count => n.toNat < count
    | none => n.toNat + 1 < 2 ^ 32

def Mmap.CountsBlocks (ar : Arith) (m : Mmap) : Prop :=
  ∃ hd : Header ar, hd.word <+: m.bytes ∧ hd.CountsBlocks

def fullRange (manifest : Manifest) : StitchRange :=
  ⟨0, UInt32.ofNat manifest.nLayers, true, true⟩

def selected (manifest : Manifest) : List BundleEntry :=
  manifest.bundles.filter fun b => (includesBundle (fullRange manifest) b.name).toOption = some true

structure KeepsWhole (ar : Arith) (hash : Hashing) (manifest : Manifest) : Prop where
  valid : validateRange manifest (fullRange manifest) = .ok ()
  selects : ∀ b ∈ manifest.bundles, includesBundle (fullRange manifest) b.name = .ok true
  below : ∀ n : UInt32, (BundleKind.block n).name ∈ manifest.bundles.map BundleEntry.name →
    n.toNat < manifest.nLayers
  members : ((selected manifest).map fun b => b.members.length).sum = manifest.gguf.nTensors
  output : ∀ cacheDir outPath files out files',
    stitchSubset ar hash manifest cacheDir (fullRange manifest) outPath files = (.ok out, files') →
    out.nTensors = manifest.gguf.nTensors

theorem Value.length_u32 {v : Value ar} (h : v.ty = .u32) : v.word.length = 4 := by
  cases v with
  | scalar ty payload hsize =>
      obtain rfl : ty = .u32 := h
      exact (Option.some.inj hsize).symm
  | string text => cases h
  | scalars ty size n payload hsize hn hlen => cases h
  | strings texts hn => cases h

theorem Diagnostics.read_blockCount {d d' : Diagnostics} {e : Entry ar}
    (h : Diagnostics.read ar d e.kvEntry = some d') :
    d'.blockCount = e.blockCount d.blockCount := by
  unfold Diagnostics.read at h
  unfold Entry.blockCount
  by_cases hcount : e.value.ty = .u32 ∧ ".block_count".toList <:+ e.key.text.toList
  · have hty : e.kvEntry.ty ≠ .string := by
      intro hstring
      rw [show e.kvEntry.ty = .u32 from hcount.1] at hstring
      cases hstring
    have hlen : 4 ≤ e.kvEntry.value.length := (Value.length_u32 hcount.1).ge
    rw [if_neg fun hname => hty hname.1, if_neg fun harch => hty harch.1,
      if_pos ⟨hcount.1, hcount.2, hlen⟩] at h
    rw [if_pos hcount, ← Option.some.inj h]
    rfl
  · rw [if_neg hcount]
    have hother : ¬(e.kvEntry.ty = .u32 ∧ ".block_count".toList <:+ e.kvEntry.key.toList ∧
        4 ≤ e.kvEntry.value.length) := fun hall => hcount ⟨hall.1, hall.2.1⟩
    rw [if_neg hother] at h
    split_ifs at h
    · obtain ⟨name, -, hd⟩ := Option.bind_eq_some_iff.mp h
      rw [← Option.some.inj hd]
    · obtain ⟨architecture, -, hd⟩ := Option.bind_eq_some_iff.mp h
      rw [← Option.some.inj hd]
    · rw [← Option.some.inj h]

private theorem diagnostics_blockCount {es : List (Entry ar)} {d d' : Diagnostics}
    (h : (es.map Entry.kvEntry).foldlM (Diagnostics.read ar) d = some d') :
    d'.blockCount = es.foldl Entry.blockCount d.blockCount := by
  induction es generalizing d with
  | nil =>
      obtain rfl := Option.some.inj h
      rfl
  | cons e es ih =>
      rw [List.map_cons, List.foldlM_cons] at h
      obtain ⟨d₁, hfirst, hrest⟩ := Option.bind_eq_some_iff.mp h
      rw [List.foldl_cons, ← Diagnostics.read_blockCount hfirst]
      exact ih hrest

private theorem Header.blockCount_lt (hd : Header ar) {count : Nat}
    (h : hd.blockCount = some count) :
    count < 2 ^ 32 := by
  have hfold : ∀ (es : List (Entry ar)) (c : Option Nat), (∀ n, c = some n → n < 2 ^ 32) →
      ∀ n, es.foldl Entry.blockCount c = some n → n < 2 ^ 32 := by
    intro es
    induction es with
    | nil => exact fun c hc => hc
    | cons e es ih =>
        intro c hc
        apply ih
        intro n hn
        unfold Entry.blockCount at hn
        split_ifs at hn with hcount
        · obtain rfl := Option.some.inj hn
          have hlt := ofLeBytes_lt (e.value.word.take 4)
          rw [List.length_take, Value.length_u32 hcount.1] at hlt
          exact hlt
        · exact hc n hn
  exact hfold hd.entries none (fun n hn => by cases hn) count h

def higherBlock (m : Int) (t : TensorIndexEntry) : Int :=
  match classifyTensor t.name with
  | .block n => if (n.toNat : Int) > m then n.toNat else m
  | _ => m

private theorem maxBlock_eq (ts : List TensorIndexEntry) :
    maxBlock ts = ts.foldl higherBlock (-1) := rfl

private theorem higherBlock_spec (m : Int) (t : TensorIndexEntry) :
    m ≤ higherBlock m t ∧
      (∀ n : UInt32, classifyTensor t.name = .block n → (n.toNat : Int) ≤ higherBlock m t) ∧
      (higherBlock m t = m ∨
        ∃ n : UInt32, classifyTensor t.name = .block n ∧ higherBlock m t = n.toNat) := by
  unfold higherBlock
  cases hkind : classifyTensor t.name with
  | embed => exact ⟨le_refl m, fun n hn => (by cases hn), .inl rfl⟩
  | head => exact ⟨le_refl m, fun n hn => (by cases hn), .inl rfl⟩
  | block n =>
      dsimp only
      split_ifs with hlt
      · refine ⟨hlt.le, ?_, .inr ⟨n, rfl, rfl⟩⟩
        rintro k hk
        rw [BundleKind.block.inj hk]
      · refine ⟨le_refl m, ?_, .inl rfl⟩
        intro k hk
        rw [← BundleKind.block.inj hk]
        omega

private theorem maxBlock_spec (ts : List TensorIndexEntry) :
    (∀ t ∈ ts, ∀ n : UInt32, classifyTensor t.name = .block n → (n.toNat : Int) ≤ maxBlock ts) ∧
      (maxBlock ts = -1 ∨ ∃ t ∈ ts, ∃ n : UInt32, classifyTensor t.name = .block n ∧
        maxBlock ts = n.toNat) := by
  have hfold : ∀ (ts : List TensorIndexEntry) (m : Int), m ≤ ts.foldl higherBlock m ∧
      (∀ t ∈ ts, ∀ n : UInt32, classifyTensor t.name = .block n →
        (n.toNat : Int) ≤ ts.foldl higherBlock m) ∧
      (ts.foldl higherBlock m = m ∨ ∃ t ∈ ts, ∃ n : UInt32, classifyTensor t.name = .block n ∧
        ts.foldl higherBlock m = n.toNat) := by
    intro ts
    induction ts with
    | nil => exact fun m => ⟨le_refl m, fun t ht => (by cases ht), .inl rfl⟩
    | cons t ts ih =>
        intro m
        obtain ⟨hmono, hblock, hhere⟩ := higherBlock_spec m t
        obtain ⟨hle, hall, hattained⟩ := ih (higherBlock m t)
        rw [List.foldl_cons]
        refine ⟨hmono.trans hle, ?_, ?_⟩
        · intro u hu n hn
          rcases List.mem_cons.mp hu with rfl | hu
          · exact (hblock n hn).trans hle
          · exact hall u hu n hn
        · rcases hattained with hsame | ⟨u, hu, n, hn, heq⟩
          · rcases hhere with hsame' | ⟨n, hn, heq⟩
            · exact .inl (hsame.trans hsame')
            · exact .inr ⟨t, List.mem_cons_self, n, hn, hsame.trans heq⟩
          · exact .inr ⟨u, List.mem_cons_of_mem _ hu, n, hn, heq⟩
  rw [maxBlock_eq]
  exact (hfold ts (-1)).2

private theorem hasBlock_iff {hd : Header ar} {ts : List TensorIndexEntry}
    (hnames : ts.map TensorIndexEntry.name = hd.tensors.map fun t => t.name.text) (n : UInt32) :
    (∃ t ∈ ts, classifyTensor t.name = .block n) ↔ hd.HasBlock n := by
  have hread : (∃ t ∈ ts, classifyTensor t.name = .block n) ↔
      ∃ s ∈ ts.map TensorIndexEntry.name, classifyTensor s = .block n := by
    simp only [List.mem_map, exists_exists_and_eq_and]
  rw [hread, hnames]
  simp only [Header.HasBlock, List.mem_map, exists_exists_and_eq_and]

/-- The layers of the manifest are above every block just when the file counts its blocks. -/
private theorem nLayers_above_iff (hd : Header ar) {ts : List TensorIndexEntry}
    (hnames : ts.map TensorIndexEntry.name = hd.tensors.map fun t => t.name.text) :
    (∀ n : UInt32, (∃ t ∈ ts, classifyTensor t.name = .block n) →
        n.toNat < hd.blockCount.getD ((maxBlock ts + 1).toNat % 2 ^ 32)) ↔ hd.CountsBlocks := by
  have hhas := hasBlock_iff hnames
  simp only [hhas, Header.CountsBlocks]
  cases hcount : hd.blockCount with
  | some count => exact Iff.rfl
  | none =>
      rw [Option.getD_none]
      obtain ⟨hle, hattained⟩ := maxBlock_spec ts
      constructor
      · intro h n hn
        dsimp only
        have hlt := n.toNat_lt
        by_contra hbig
        obtain ⟨t, ht, hkind⟩ := (hhas n).mpr hn
        have hmax := hle t ht n hkind
        have habove := h n hn
        rcases hattained with hneg | ⟨u, hu, k, hk, heq⟩
        · omega
        · have hklt := k.toNat_lt
          have hall : (maxBlock ts + 1).toNat = 2 ^ 32 := by omega
          rw [hall, Nat.mod_self] at habove
          omega
      · intro h n hn
        obtain ⟨t, ht, hkind⟩ := (hhas n).mpr hn
        have hmax := hle t ht n hkind
        rcases hattained with hneg | ⟨u, hu, k, hk, heq⟩
        · omega
        · have hk' := h k ((hhas k).mp ⟨u, hu, hk⟩)
          dsimp only at hk'
          rw [Nat.mod_eq_of_lt (by omega)]
          omega

private theorem length_keepTensors {range : StitchRange} {mmaps : List (String × Bytes)}
    {bundles : List BundleEntry} {kept : List KeptTensor}
    (hall : ∀ b ∈ bundles, includesBundle range b.name = .ok true)
    (h : keepTensors ar range mmaps bundles = .ok kept) :
    kept.length = (bundles.map fun b => b.members.length).sum := by
  induction bundles generalizing kept with
  | nil =>
      obtain rfl := Except.ok.inj h
      rfl
  | cons b bundles ih =>
      unfold keepTensors at h
      obtain ⟨included, hincluded, h⟩ := bind_ok h
      have htrue := hall b List.mem_cons_self
      rw [ofStitch_ok hincluded] at htrue
      obtain rfl := Except.ok.inj htrue
      rw [if_pos rfl] at h
      cases hlook : mmaps.lookup b.cid with
      | none =>
          rw [hlook] at h
          cases h
      | some mmap =>
          rw [hlook] at h
          obtain ⟨members, hmembers, h⟩ := bind_ok h
          obtain ⟨rest, hrest, h⟩ := bind_ok h
          obtain rfl := Except.ok.inj h
          have hih := ih (fun c hc => hall c (List.mem_cons_of_mem _ hc)) hrest
          rw [List.length_append, length_mapM_ok hmembers, hih, List.map_cons, List.sum_cons]

theorem length_writeIndex {alignment cursor : Nat} {kept : List KeptTensor} {index : Bytes}
    {offsets : List Nat} (h : writeIndex ar alignment cursor kept = some (index, offsets)) :
    offsets.length = kept.length := by
  induction kept generalizing cursor index offsets with
  | nil =>
      obtain ⟨-, rfl⟩ := Prod.mk.inj (Option.some.inj h)
      rfl
  | cons t kept ih =>
      unfold writeIndex at h
      obtain ⟨stop, -, h⟩ := Option.bind_eq_some_iff.mp h
      obtain ⟨next, -, h⟩ := Option.bind_eq_some_iff.mp h
      obtain ⟨⟨rest, offsets'⟩, hrest, h⟩ := Option.bind_eq_some_iff.mp h
      obtain ⟨-, rfl⟩ := Prod.mk.inj (Option.some.inj h)
      rw [List.length_cons, List.length_cons, ih hrest]

private theorem assemble_kept {files : Files} {manifest : Manifest} {cacheDir : Location}
    {range : StitchRange} {a : Assembly}
    (h : assemble ar hash files manifest cacheDir range = .ok a) :
    ∃ mmaps kept, keepTensors ar range mmaps manifest.bundles = .ok kept ∧
      a.tensors.length = kept.length := by
  obtain ⟨-, -, -, -, -, -, -, hkept, -, -, hindex, -, -⟩ := assemble_ok h
  refine ⟨_, _, hkept, ?_⟩
  dsimp only
  rw [List.length_zip, length_writeIndex hindex, min_self]

private theorem stitchSubset_tensors {files files' : Files} {manifest : Manifest}
    {cacheDir outPath : Location} {range : StitchRange} {out : StitchOutcome}
    (h : stitchSubset ar hash manifest cacheDir range outPath files = (.ok out, files')) :
    ∃ a, assemble ar hash files manifest cacheDir range = .ok a ∧
      out.nTensors = a.tensors.length := by
  obtain ⟨a, result, hassemble, -, rfl, -⟩ := stitchSubset_ok h
  exact ⟨a, hassemble, rfl⟩

private theorem length_draft {g : Gguf} {ts : List TensorIndexEntry} {d d' : Draft}
    (h : ts.foldlM (Draft.add ar hash g) d = some d') :
    d'.members.length = d.members.length + ts.length := by
  induction ts generalizing d with
  | nil =>
      obtain rfl := Option.some.inj h
      rfl
  | cons t ts ih =>
      rw [List.foldlM_cons] at h
      obtain ⟨d₁, hfirst, hrest⟩ := Option.bind_eq_some_iff.mp h
      unfold Draft.add at hfirst
      obtain ⟨bytes, -, hfirst⟩ := Option.bind_eq_some_iff.mp hfirst
      obtain ⟨size, -, hfirst⟩ := Option.bind_eq_some_iff.mp hfirst
      obtain rfl := Option.some.inj hfirst
      rw [ih hrest, List.length_append, List.length_singleton, List.length_cons]
      omega

private theorem Emits.length_members {g : Gguf} {group : BundleKey × List TensorIndexEntry}
    {b : BundleEntry} (h : Emits ar hash g group b) : b.members.length = group.2.length := by
  obtain ⟨d, hd, -, -, -, hmembers⟩ := h
  have hlen := length_draft hd
  rw [hmembers, hlen]
  exact Nat.zero_add _

/-- What a manifest of the chunker says of the tensors in the file. -/
structure Manifest.Describes (ar : Arith) (hash : Hashing) (hd : Header ar)
    (ts : List TensorIndexEntry) (manifest : Manifest) : Prop where
  names : ts.map TensorIndexEntry.name = hd.tensors.map fun t => t.name.text
  nTensors : manifest.gguf.nTensors = ts.length
  nLayers : manifest.nLayers = hd.blockCount.getD ((maxBlock ts + 1).toNat % 2 ^ 32)
  bundles : ∃ g, List.Forall₂ (Emits ar hash g) (groups (fun t => (classifyTensor t.name).key) ts)
    manifest.bundles

theorem chunkGguf_describes (har : ar.Words 64) {json : ManifestJson} {m : Mmap}
    {opts : ChunkerOptions} {files files' : Files} {outcome : ChunkOutcome}
    (h : chunkGguf ar ar32 hash json m opts files = .ok (outcome, files')) :
    ∃ (hd : Header ar) (ts : List TensorIndexEntry), hd.word <+: m.bytes ∧
      outcome.manifest.Describes ar hash hd ts := by
  obtain ⟨g, kvs, d, ts, header, hg, hkvs, hd, hts, -, hparsed⟩ := chunkGguf_ok h
  obtain ⟨hd₀, hword, rfl⟩ := (open_iff har).mp hg
  rw [kvEntries_eq har hword] at hkvs
  obtain rfl := Except.ok.inj hkvs
  obtain ⟨e, hemit, hmanifest, -⟩ := chunkParsed_ok hparsed
  have hnames : ts.map TensorIndexEntry.name = hd₀.tensors.map fun t => t.name.text :=
    tensors_map har hword hts fun _ _ => rfl
  rw [hmanifest]
  refine ⟨hd₀, ts, hword, hnames, ?_, ?_, hd₀.gguf m, emitChunks_emits hemit⟩
  · have hlen := congrArg List.length hnames
    rw [List.length_map, List.length_map] at hlen
    rw [hlen]
    rfl
  · rw [parsedManifest, diagnostics_blockCount hd]
    rfl

namespace Manifest.Describes

variable {hd : Header ar} {ts : List TensorIndexEntry} {manifest : Manifest}

private theorem nLayers_lt (h : manifest.Describes ar hash hd ts) : manifest.nLayers < 2 ^ 32 := by
  rw [h.nLayers]
  cases hcount : hd.blockCount with
  | some count => exact hd.blockCount_lt hcount
  | none => exact Nat.mod_lt _ (by decide)

theorem members (h : manifest.Describes ar hash hd ts) :
    (manifest.bundles.map fun b => b.members.length).sum = manifest.gguf.nTensors := by
  obtain ⟨g, hemits⟩ := h.bundles
  rw [map_eq_of_forall₂ hemits fun _ _ hgroup => hgroup.length_members, sum_length_groups,
    h.nTensors]

theorem kinds (h : manifest.Describes ar hash hd ts) (kind : BundleKind) :
    kind.name ∈ manifest.bundles.map BundleEntry.name ↔
      ∃ t ∈ ts, classifyTensor t.name = kind := by
  obtain ⟨g, hemits⟩ := h.bundles
  have hgrouped := grouped_groups (fun t : TensorIndexEntry => (classifyTensor t.name).key) ts
  rw [map_eq_of_forall₂ hemits fun _ _ hgroup => hgroup.choose_spec.2.1, List.mem_map]
  constructor
  · rintro ⟨⟨key, us⟩, hmem, hname⟩
    obtain ⟨t, ht⟩ := List.exists_mem_of_ne_nil us (hgrouped.nonempty key us hmem)
    rw [hgrouped.items_eq key us hmem] at ht
    obtain ⟨hts, hkey⟩ := List.mem_filter.mp ht
    have hkind : key.toKind = classifyTensor t.name := by
      rw [← of_decide_eq_true hkey, BundleKind.toKind_key]
    exact ⟨t, hts, hkind.symm.trans (BundleKind.name_injective hname)⟩
  · rintro ⟨t, ht, rfl⟩
    obtain ⟨group, hgroup, hkey⟩ := List.mem_map.mp (hgrouped.all t ht)
    exact ⟨group, hgroup, by rw [hkey, BundleKind.toKind_key]⟩

private theorem below_iff (h : manifest.Describes ar hash hd ts) :
    (∀ n : UInt32, (BundleKind.block n).name ∈ manifest.bundles.map BundleEntry.name →
      n.toNat < manifest.nLayers) ↔ hd.CountsBlocks := by
  simp only [h.kinds, h.nLayers]
  exact nLayers_above_iff hd h.names

private theorem keepsWhole (h : manifest.Describes ar hash hd ts)
    (hbelow : ∀ n : UInt32, (BundleKind.block n).name ∈ manifest.bundles.map BundleEntry.name →
      n.toNat < manifest.nLayers) : KeepsWhole ar hash manifest := by
  have hstop : (fullRange manifest).stop.toNat = manifest.nLayers :=
    UInt32.toNat_ofNat_of_lt' h.nLayers_lt
  have hselects : ∀ b ∈ manifest.bundles,
      includesBundle (fullRange manifest) b.name = .ok true := by
    intro b hb
    have hmem := List.mem_map_of_mem (f := BundleEntry.name) hb
    obtain ⟨g, hemits⟩ := h.bundles
    obtain ⟨group, -, -, -, hname, -⟩ := exists_of_forall₂ hemits hb
    rw [hname] at hmem ⊢
    rw [includesBundle_name]
    apply congrArg Except.ok
    apply decide_eq_true
    cases hkind : group.1.toKind with
    | embed => exact rfl
    | head => exact rfl
    | block n =>
        rw [hkind] at hmem
        have hlt := hbelow n hmem
        refine ⟨UInt32.le_iff_toNat_le.mpr (Nat.zero_le _), UInt32.lt_iff_toNat_lt.mpr ?_⟩
        rw [hstop]
        exact hlt
  have hselected : selected manifest = manifest.bundles := by
    apply List.filter_eq_self.mpr
    intro b hb
    rw [hselects b hb]
    rfl
  refine ⟨?_, hselects, hbelow, ?_, ?_⟩
  · have hzero : ¬(fullRange manifest).stop < (fullRange manifest).start := by
      rw [UInt32.lt_iff_toNat_lt]
      exact Nat.not_lt_zero _
    rw [validateRange, if_neg hzero, if_neg (by omega), if_neg (fun hstart => hstart.2 rfl),
      if_neg (fun hhead => hhead.2 hstop)]
  · rw [hselected]
    exact h.members
  · intro cacheDir outPath files out files' hout
    obtain ⟨a, ha, hcount⟩ := stitchSubset_tensors hout
    obtain ⟨mmaps, kept, hkept, hlen⟩ := assemble_kept ha
    rw [hcount, hlen, length_keepTensors hselects hkept, h.members]

end Manifest.Describes

/-- A stitch of all layers is the whole model just when the file counts its blocks. -/
theorem full_stitch_whole_iff (ar ar32 : Arith) (har : ar.Words 64) (hash : Hashing)
    (json : ManifestJson) (m : Mmap) (opts : ChunkerOptions) (files files' : Files)
    (outcome : ChunkOutcome)
    (h : chunkGguf ar ar32 hash json m opts files = .ok (outcome, files')) :
    KeepsWhole ar hash outcome.manifest ↔ m.CountsBlocks ar := by
  obtain ⟨hd, ts, hword, hdescribes⟩ := chunkGguf_describes har h
  constructor
  · intro hwhole
    exact ⟨hd, hword, hdescribes.below_iff.mp hwhole.below⟩
  · rintro ⟨hd', hword', hcounts⟩
    obtain rfl := Header.unique hword' hword
    exact hdescribes.keepsWhole (hdescribes.below_iff.mpr hcounts)

private theorem oneDimension : ([8] : List UInt64).length ≤ ggufMaxDims := by decide

private theorem oneLetter : ([97] : Bytes).length < 2 ^ 64 := by decide

private theorem architectureKey : (utf8 "general.architecture").length < 2 ^ 64 := by decide

private theorem ownCountKey : (utf8 "a.block_count").length < 2 ^ 64 := by decide

private theorem towerCountKey : (utf8 "v.block_count").length < 2 ^ 64 := by decide

private theorem firstName : (utf8 "blk.0.w").length < 2 ^ 64 := by decide

private theorem secondName : (utf8 "blk.1.w").length < 2 ^ 64 := by decide

private theorem fourBytes (a : UInt8) : KvType.u32.scalarSize = some [a, 0, 0, 0].length := rfl

private theorem threeEntries : 3 ≤ ggufMaxKv := by decide

private theorem twoTensors : 2 ≤ ggufMaxTensors := by decide

/-- A model of two layers, and after its own block count that of a vision tower of two layers or of
one. -/
def sighted (deep : Bool) : Header release where
  entries :=
    [⟨⟨"general.architecture", architectureKey⟩, .string ⟨[97], oneLetter⟩⟩,
      ⟨⟨"a.block_count", ownCountKey⟩, .scalar .u32 [2, 0, 0, 0] (fourBytes 2)⟩,
      ⟨⟨"v.block_count", towerCountKey⟩,
        .scalar .u32 [if deep then 2 else 1, 0, 0, 0] (fourBytes _)⟩]
  tensors :=
    [⟨⟨"blk.0.w", firstName⟩, [8], 0, 0, oneDimension⟩,
      ⟨⟨"blk.1.w", secondName⟩, [8], 0, 32, oneDimension⟩]
  entries_le := threeEntries
  tensors_le := twoTensors

private theorem sighted_length (deep : Bool) : (sighted deep).word.length = 201 := by
  revert deep
  decide +kernel

def sightedFile (deep : Bool) : Mmap where
  bytes := (sighted deep).word ++ List.replicate (23 + 64) 0
  length_lt := by
    rw [List.length_append, sighted_length, List.length_replicate]
    decide

theorem sighted_offset (deep : Bool) :
    ((sighted deep).gguf (sightedFile deep)).tensorDataOffset = 224 := by
  revert deep
  decide +kernel

theorem sighted_blockCount (deep : Bool) :
    (sighted deep).blockCount = some (if deep then 2 else 1) := by
  revert deep
  decide +kernel

private theorem sighted_hasBlock (deep : Bool) (n : UInt32) : (sighted deep).HasBlock n ↔
    n = 0 ∨ n = 1 := by
  have hfirst : classifyTensor "blk.0.w" = .block 0 := by decide
  have hsecond : classifyTensor "blk.1.w" = .block 1 := by decide
  simp [Header.HasBlock, sighted, hfirst, hsecond, eq_comm]

theorem sightedFile_length (deep : Bool) : (sightedFile deep).bytes.length = 288 := by
  rw [sightedFile, List.length_append, sighted_length, List.length_replicate]

theorem sighted_data (deep : Bool) :
    ((sighted deep).gguf (sightedFile deep)).tensorDataOffset ≤
    (sightedFile deep).bytes.length := by
  rw [sighted_offset, sightedFile_length]
  decide

theorem sighted_fits (deep : Bool) : ∀ t ∈ (sighted deep).tensors, t.dataOffsetRel.toNat ≤
    (sightedFile deep).bytes.length -
      ((sighted deep).gguf (sightedFile deep)).tensorDataOffset := by
  rw [sighted_offset, sightedFile_length]
  intro t ht
  rcases List.mem_cons.mp ht with rfl | ht
  · decide
  · obtain rfl := List.mem_singleton.mp ht
    decide

theorem sighted_chunked (deep : Bool) {hash : Hashing}
    (hinj : Function.Injective hash.cidStringFor) :
    ∃ outcome disk, chunkGguf release release32 hash prettyJson (sightedFile deep)
      ⟨["out"], false, false⟩ ∅ = .ok (outcome, disk) := by
  obtain ⟨-, outcome, disk, -, hrun, -⟩ := chunkGguf_fits hash prettyJson hinj
    prettyJson_roundTrips (List.prefix_append _ _) (sighted_data deep) (sighted_fits deep)
    ⟨["out"], false, false⟩ rfl ∅ nofun
  exact ⟨outcome, disk, hrun⟩

/-- The vision tower of two layers does no harm. -/
theorem full_stitch_whole_sighted :
    ∃ outcome disk, chunkGguf release release32 spelledHash prettyJson (sightedFile true)
        ⟨["out"], false, false⟩ ∅ = .ok (outcome, disk) ∧
      KeepsWhole release spelledHash outcome.manifest := by
  obtain ⟨outcome, disk, hrun⟩ := sighted_chunked true spelledHash_injective
  refine ⟨outcome, disk, hrun, ?_⟩
  apply (full_stitch_whole_iff release release32 words_release spelledHash prettyJson
    (sightedFile true) ⟨["out"], false, false⟩ ∅ disk outcome hrun).mpr
  refine ⟨sighted true, List.prefix_append _ _, ?_⟩
  intro n hn
  rw [sighted_blockCount]
  rcases (sighted_hasBlock true n).mp hn with rfl | rfl <;> decide

/-- The vision tower of one layer hides the second layer of the model. -/
theorem vision_block_count_drops_layer :
    ∃ outcome disk, chunkGguf release release32 spelledHash prettyJson (sightedFile false)
        ⟨["out"], false, false⟩ ∅ = .ok (outcome, disk) ∧
      "blk.1" ∈ outcome.manifest.bundles.map BundleEntry.name ∧
      includesBundle (fullRange outcome.manifest) "blk.1" = .ok false ∧
      ¬KeepsWhole release spelledHash outcome.manifest := by
  obtain ⟨outcome, disk, hrun⟩ := sighted_chunked false spelledHash_injective
  obtain ⟨hd, ts, hword, hdescribes⟩ := chunkGguf_describes words_release hrun
  obtain rfl := Header.unique hword (List.prefix_append (sighted false).word _)
  have hmem : "blk.1" ∈ outcome.manifest.bundles.map BundleEntry.name := by
    have hname : (BundleKind.block 1).name = "blk.1" := by decide
    rw [← hname, hdescribes.kinds, hasBlock_iff hdescribes.names]
    exact (sighted_hasBlock false 1).mpr (.inr rfl)
  have hlayers : outcome.manifest.nLayers = 1 := by
    rw [hdescribes.nLayers, sighted_blockCount]
    rfl
  have hout : includesBundle (fullRange outcome.manifest) "blk.1" = .ok false := by
    rw [fullRange, hlayers]
    decide
  refine ⟨outcome, disk, hrun, hmem, hout, ?_⟩
  intro hwhole
  obtain ⟨b, hb, hname⟩ := List.mem_map.mp hmem
  have hin := hwhole.selects b hb
  rw [hname, hout] at hin
  cases hin

end IntelNav.ModelStore
