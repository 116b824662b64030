import Mathlib.Data.List.Induction
import IntelNav.ModelStore.StitchedModel
import IntelNav.Text.Lossy

/-! What a model picker reads of a GGUF file (`crates/model-store/src/metadata.rs`), and what
becomes of it when a range of the model is stitched. -/

set_option autoImplicit false
set_option relaxedAutoImplicit false

namespace IntelNav.ModelStore

open IntelNav.Disk IntelNav.Reading IntelNav.Layout

structure ModelMetadata where
  name : Option String := none
  architecture : Option String := none
  blockCount : Option Nat := none
  embeddingLength : Option Nat := none
  headCount : Option Nat := none
  expertCount : Option Nat := none
  expertUsedCount : Option Nat := none
  expertSharedCount : Option Nat := none
  deriving DecidableEq

namespace ModelMetadata

def isMoe (md : ModelMetadata) : Bool := md.expertCount.any (1 < ·)

def moeLabel (md : ModelMetadata) : Option String := do
  let n ← md.expertCount
  if n ≤ 1 then none
  else
    let k := md.expertUsedCount.getD 0
    if k = 0 then some s!"MoE ×{n}" else some s!"MoE {n}×top-{k}"

theorem isSome_moeLabel (md : ModelMetadata) : md.moeLabel.isSome = md.isMoe := by
  unfold moeLabel isMoe
  cases md.expertCount with
  | none => rfl
  | some n =>
      by_cases h : n ≤ 1
      · simp [h]
      · by_cases hk : md.expertUsedCount.getD 0 = 0 <;> simp [h, hk] <;> omega

end ModelMetadata

/-- `read_u32` -/
def numberOf (bytes : Bytes) : Option Nat :=
  if bytes.length < 4 then none else some (ofLeBytes (bytes.take 4))

/-- `read_str`; no value is the overflow of `8 + len`. -/
def readStr (ar : Arith) (bytes : Bytes) : Option (Option String) :=
  if bytes.length < 8 then some none
  else do
    let stop ← ar.add 8 (ofLeBytes (bytes.take 8))
    if stop < 8 ∨ bytes.length < stop then some none
    else some (some (String.ofList (Text.lossy ((bytes.drop 8).take (stop - 8)))))

namespace KvEntry

def EndsWith (kv : KvEntry) (suffix : String) : Prop := suffix.toList <:+ kv.key.toList

instance (kv : KvEntry) (suffix : String) : Decidable (kv.EndsWith suffix) :=
  inferInstanceAs (Decidable (_ <:+ _))

/-- A count of blocks, of this model or of a part such as its vision tower. -/
def Counts (kv : KvEntry) : Prop := kv.ty = .u32 ∧ kv.EndsWith ".block_count"

instance (kv : KvEntry) : Decidable kv.Counts := inferInstanceAs (Decidable (_ ∧ _))

instance (arch : String) (kv : KvEntry) : Decidable (kv.IsBlockCount arch) :=
  inferInstanceAs (Decidable (_ ∧ _))

theorem IsBlockCount.counts {arch : String} {kv : KvEntry} (h : kv.IsBlockCount arch) :
    kv.Counts := by
  refine ⟨h.2, ?_⟩
  rw [EndsWith, h.1, String.toList_append]
  exact List.suffix_append _ _

end KvEntry

namespace ModelMetadata

def readNumber (md : ModelMetadata) (kv : KvEntry) : ModelMetadata :=
  let n := numberOf kv.value
  if kv.EndsWith ".block_count" then { md with blockCount := n }
  else if kv.EndsWith ".embedding_length" then { md with embeddingLength := n }
  else if kv.EndsWith ".attention.head_count" then { md with headCount := n }
  else if kv.EndsWith ".expert_count" then { md with expertCount := n }
  else if kv.EndsWith ".expert_used_count" then { md with expertUsedCount := n }
  else if kv.EndsWith ".expert_shared_count" then { md with expertSharedCount := n }
  else md

def read (ar : Arith) (md : ModelMetadata) (kv : KvEntry) : Option ModelMetadata :=
  if kv.ty = .string ∧ kv.key = "general.name" then do
    let name ← readStr ar kv.value
    pure { md with name }
  else if kv.ty = .string ∧ kv.key = "general.architecture" then do
    let architecture ← readStr ar kv.value
    pure { md with architecture }
  else if kv.ty = .u32 then some (md.readNumber kv)
  else some md

def withBlocks (md : ModelMetadata) (n : Option Nat) : ModelMetadata := { md with blockCount := n }

end ModelMetadata

/-- `read_model_metadata` -/
def readModelMetadata (ar : Arith) (m : Mmap) : Except (Stop GgufError) ModelMetadata := do
  let g ← Gguf.open ar m
  let kvs ← g.kvEntries ar
  ofPanic (kvs.foldlM (ModelMetadata.read ar) {})

private theorem Value.eq_string {ar : Arith} {v : Value ar} (h : v.ty = .string) :
    ∃ text, v = .string text := by
  cases v with
  | scalar ty payload hs =>
      obtain rfl : ty = .string := h
      cases hs
  | string text => exact ⟨text, rfl⟩
  | scalars ty size n payload hs hn hlen => cases h
  | strings texts hn => cases h

private theorem readStr_word {ar : Arith} (har : ar.Words 64) {b : Blob}
    (h : b.word.length < 2 ^ 63) :
    readStr ar b.word = some (some (String.ofList (Text.lossy b.bytes))) := by
  have hlen : b.word.length = 8 + b.bytes.length := by simp [Blob.word]
  have hcount : ofLeBytes (b.word.take 8) = b.bytes.length := by
    rw [Blob.word, List.take_append_of_le_length (by simp), List.take_of_length_le (by simp),
      ofLeBytes_leBytes_of_lt b.length_lt]
  have hsum : ar.add 8 b.bytes.length = some (8 + b.bytes.length) := har.below _ _ (by omega)
  have hrest : b.word.drop 8 = b.bytes := by
    rw [Blob.word, List.drop_left' (by simp)]
  rw [readStr, if_neg (by omega), hcount, hsum, hrest, hlen]
  simp

def countsLast (arch : String) (kvs : List KvEntry) : Bool :=
  (kvs.filter fun kv => kv.Counts).getLast?.any fun kv => kv.IsBlockCount arch

private theorem countsLast_append (arch : String) (kvs : List KvEntry) (kv : KvEntry) :
    countsLast arch (kvs ++ [kv]) =
      if kv.Counts then decide (kv.IsBlockCount arch) else countsLast arch kvs := by
  unfold countsLast
  rw [List.filter_append]
  by_cases h : kv.Counts <;> simp [h]

namespace ModelMetadata

variable {ar : Arith} {md md' : ModelMetadata} {kv : KvEntry}

private theorem readNumber_withBlocks (hty : kv.ty = .u32) (n : Option Nat) :
    (md.withBlocks n).readNumber kv =
      (md.readNumber kv).withBlocks (if kv.Counts then (md.readNumber kv).blockCount else n) := by
  unfold readNumber
  by_cases hends : kv.EndsWith ".block_count"
  · rw [if_pos hends, if_pos hends, if_pos ⟨hty, hends⟩]
    rfl
  · have hcounts : ¬kv.Counts := fun hc => hends hc.2
    rw [if_neg hcounts, if_neg hends, if_neg hends]
    repeat' split
    all_goals rfl

private theorem read_withBlocks (h : md.read ar kv = some md') (n : Option Nat) :
    (md.withBlocks n).read ar kv =
      some (md'.withBlocks (if kv.Counts then md'.blockCount else n)) := by
  have hcounts : ∀ {ty : KvType}, kv.ty = ty → ty ≠ .u32 → ¬kv.Counts :=
    fun hty hne hc => hne (hty.symm.trans hc.1)
  unfold read at h ⊢
  by_cases hname : kv.ty = .string ∧ kv.key = "general.name"
  · rw [if_pos hname] at h ⊢
    obtain ⟨name, hread, h⟩ := Option.bind_eq_some_iff.mp h
    obtain rfl := Option.some.inj h
    rw [hread, if_neg (hcounts hname.1 (by decide))]
    rfl
  rw [if_neg hname] at h ⊢
  by_cases harch : kv.ty = .string ∧ kv.key = "general.architecture"
  · rw [if_pos harch] at h ⊢
    obtain ⟨architecture, hread, h⟩ := Option.bind_eq_some_iff.mp h
    obtain rfl := Option.some.inj h
    rw [hread, if_neg (hcounts harch.1 (by decide))]
    rfl
  rw [if_neg harch] at h ⊢
  by_cases hty : kv.ty = .u32
  · rw [if_pos hty] at h ⊢
    obtain rfl := Option.some.inj h
    rw [readNumber_withBlocks hty]
  · rw [if_neg hty] at h ⊢
    obtain rfl := Option.some.inj h
    rw [if_neg (fun hc => hty hc.1)]

theorem read_blockCount {arch : String} (h : kv.IsBlockCount arch) :
    md.read ar kv = some (md.withBlocks (numberOf kv.value)) := by
  have hends := h.counts.2
  have hty : kv.ty ≠ .string := by rw [h.2]; decide
  rw [read, if_neg (fun hs => hty hs.1), if_neg (fun hs => hty hs.1), if_pos h.2, readNumber,
    if_pos hends]
  rfl

private theorem read_flag (h : kv.ty = .bool) : md.read ar kv = some md := by
  have hstring : ∀ key : String, ¬(kv.ty = .string ∧ kv.key = key) := by
    intro key hs
    cases h.symm.trans hs.1
  have hnumber : kv.ty ≠ .u32 := by
    rw [h]
    decide
  rw [read, if_neg (hstring _), if_neg (hstring _), if_neg hnumber]

private theorem numberOf_stitched {arch : String} {range : StitchRange}
    (hle : range.start ≤ range.stop) {e : Entry ar} (h : e.kvEntry.IsBlockCount arch) :
    numberOf (e.stitched arch range).kvEntry.value =
      some (range.stop.toNat - range.start.toNat) := by
  have hkeeps := keepsKv_stitched arch hle e
  rw [numberOf, if_neg ?_, hkeeps.count h]
  have hvalue : e.stitched arch range =
      { e with value := scalarU32 (range.stop - range.start).toNat } := if_pos h
  rw [hvalue]
  change ¬(leBytes 4 (range.stop - range.start).toNat).length < 4
  rw [length_leBytes]
  decide

private theorem read_stitched {arch : String} {range : StitchRange} (hle : range.start ≤ range.stop)
    {es : List (Entry ar)} (h : (es.map Entry.kvEntry).foldlM (read ar) md = some md') :
    ((es.map (Entry.stitched arch range)).map Entry.kvEntry).foldlM (read ar) md =
      some (md'.withBlocks (if countsLast arch (es.map Entry.kvEntry) then
        some (range.stop.toNat - range.start.toNat) else md'.blockCount)) := by
  induction es using List.reverseRecOn generalizing md' with
  | nil =>
      obtain rfl := Option.some.inj h
      rfl
  | append_singleton es e ih =>
      rw [List.map_append, List.foldlM_append] at h
      obtain ⟨md₁, hes, h⟩ := Option.bind_eq_some_iff.mp h
      rw [List.map_append, List.map_append, List.foldlM_append, ih hes, List.map_append]
      change md₁.read ar e.kvEntry >>= pure = _ at h
      change (md₁.withBlocks _).read ar (e.stitched arch range).kvEntry >>= pure = _
      rw [bind_pure] at h ⊢
      change _ = some (md'.withBlocks (if countsLast arch (es.map Entry.kvEntry ++ [e.kvEntry]) then
        _ else _))
      rw [countsLast_append]
      by_cases hcount : e.kvEntry.IsBlockCount arch
      · -- the entry that is rewritten
        have hkeeps := keepsKv_stitched arch hle e
        rw [read_blockCount hcount] at h
        obtain rfl := Option.some.inj h
        rw [read_blockCount ⟨hkeeps.key.trans hcount.1, hkeeps.ty.trans hcount.2⟩,
          numberOf_stitched hle hcount, if_pos hcount.counts, decide_eq_true hcount, if_pos rfl]
        rfl
      · have hsame : e.stitched arch range = e := if_neg hcount
        rw [hsame, read_withBlocks h]
        by_cases hother : e.kvEntry.Counts
        · rw [if_pos hother, if_pos hother, decide_eq_false hcount, if_neg Bool.false_ne_true]
        · -- the count that came before stays
          have hbefore := read_withBlocks h md₁.blockCount
          rw [if_neg hother] at hbefore
          have hkept : md'.blockCount = md₁.blockCount := by
            have hfull : md₁.read ar e.kvEntry = some (md'.withBlocks md₁.blockCount) := hbefore
            rw [h] at hfull
            rw [Option.some.inj hfull]
            rfl
          rw [if_neg hother, if_neg hother, hkept]

private theorem read_stitchedEntries {arch : String} {range : StitchRange}
    (hle : range.start ≤ range.stop)
    {es : List (Entry ar)} (h : (es.map Entry.kvEntry).foldlM (read ar) md = some md') :
    ((stitchedEntries arch range es).map Entry.kvEntry).foldlM (read ar) md =
      some (md'.withBlocks (if countsLast arch (es.map Entry.kvEntry) then
        some (range.stop.toNat - range.start.toNat) else md'.blockCount)) := by
  rw [stitchedEntries, List.map_append, List.foldlM_append, read_stitched hle h,
    Option.bind_eq_bind,
    Option.bind_some, List.map_cons, List.foldlM_cons, read_flag rfl, Option.bind_eq_bind,
    Option.bind_some, List.map_cons, List.foldlM_cons, read_flag rfl]
  rfl

theorem read_ne_none (har : ar.Words 64) {m : Mmap} {hd : Header ar} (h : hd.word <+: m.bytes)
    {e : Entry ar} (he : e ∈ hd.entries) (md : ModelMetadata) : md.read ar e.kvEntry ≠ none := by
  have hshort : e.value.word.length < 2 ^ 63 :=
    (Header.length_value_le he).trans_lt (h.length_le.trans_lt m.length_lt)
  have hkept : ∀ f : Option String → ModelMetadata, e.value.ty = .string →
      (readStr ar e.value.word >>= fun s => some (f s)) ≠ none := by
    intro f hty hnone
    obtain ⟨text, htext⟩ := Value.eq_string hty
    rw [htext] at hshort hnone
    change (readStr ar text.word >>= fun s => some (f s)) = none at hnone
    rw [readStr_word har hshort] at hnone
    cases hnone
  unfold read
  by_cases hname : e.kvEntry.ty = .string ∧ e.kvEntry.key = "general.name"
  · rw [if_pos hname]
    exact hkept (fun name => { md with name }) hname.1
  rw [if_neg hname]
  by_cases harch : e.kvEntry.ty = .string ∧ e.kvEntry.key = "general.architecture"
  · rw [if_pos harch]
    exact hkept (fun architecture => { md with architecture }) harch.1
  rw [if_neg harch]
  split <;> exact nofun

end ModelMetadata

private theorem readModelMetadata_eq {ar : Arith} (har : ar.Words 64) {m : Mmap} {hd : Header ar}
    (h : hd.word <+: m.bytes) :
    ∃ md, (hd.entries.map Entry.kvEntry).foldlM (ModelMetadata.read ar) {} = some md ∧
      readModelMetadata ar m = .ok md := by
  have hreads : (hd.entries.map Entry.kvEntry).foldlM (ModelMetadata.read ar) {} ≠ none := by
    refine foldlM_ne_none (fun md kv hkv => ?_) _
    obtain ⟨e, he, rfl⟩ := List.mem_map.mp hkv
    exact ModelMetadata.read_ne_none har h he md
  obtain ⟨md, hmd⟩ := Option.ne_none_iff_exists'.mp hreads
  refine ⟨md, hmd, ?_⟩
  have hopen : Gguf.open ar m = .ok (hd.gguf m) := (open_iff har).mpr ⟨hd, h, rfl⟩
  simp only [readModelMetadata, hopen, kvEntries_eq har h, bind, Except.bind, hmd, ofPanic]

section Stitched

variable {ar ar32 : Arith} {hash : Hashing} {json : ManifestJson} {m : Mmap} {g : Gguf}
  {kvs : List KvEntry} {ts : List TensorIndexEntry} {arch : String} {opts : ChunkerOptions}
  {before files files' : Files} {outcome : ChunkOutcome} {range : StitchRange} {outPath : Location}
  {out : StitchOutcome}

/-- A stitched range of a model is picked by the metadata of the model, but for its count of
blocks. -/
theorem metadata_stitched (har : ar.Words 64) (hinj : Function.Injective hash.cidStringFor)
    (hbase : hash.Base32) (hmodel : SourceModel ar m g kvs ts arch) (hdry : opts.dryRun = false)
    (hchunk : chunkGguf ar ar32 hash json m opts before = .ok (outcome, files))
    (hstitch : stitchSubset ar hash outcome.manifest opts.outputDir range outPath files =
      (.ok out, files')) :
    ∃ bytes md, files'.lookup outPath = some bytes ∧ readModelMetadata ar m = .ok md ∧
      ∀ m' : Mmap, m'.bytes = bytes → readModelMetadata ar m' =
        .ok (md.withBlocks (if countsLast arch kvs then
          some (range.stop.toNat - range.start.toNat) else md.blockCount)) := by
  obtain ⟨hd, hword, rfl⟩ := (open_iff har).mp hmodel.opened
  obtain rfl := Except.ok.inj ((kvEntries_eq har hword).symm.trans hmodel.entries)
  obtain ⟨ts₀, kinds, d, hts, hmeasured, hkinds, hd', harch, hchunks⟩ :=
    chunkGguf_chunksOf har hinj hdry hword hmodel.data
      (starts_fit har hword hmodel.tensors hmodel.ranges) hchunk
  obtain rfl := Except.ok.inj (hts.symm.trans hmodel.tensors)
  have hmany : (range.tensorsOf kinds).length ≤ ggufMaxTensors := by
    have hcount := congrArg List.length (tensors_map har hword hts (fun _ _ => rfl) :
      ts₀.map TensorIndexEntry.name = _)
    rw [List.length_map, List.length_map] at hcount
    rw [(hkinds.tensorsOf_perm range).length_eq]
    exact (List.length_filter_le _ _).trans (hcount ▸ hd.tensors_le)
  have hfits : ∀ t ∈ range.tensorsOf kinds, ((hd.gguf m).kept range t).Fits :=
    fun t ht => kept_fits hmeasured _ range (hkinds.mem_tensorsOf ht).1
  obtain ⟨arch', bytes, harch', hvalid, hbytes, hread⟩ :=
    stitchSubset_reread har hbase hword hchunks
    (hkinds.held hmeasured hmodel.ranges) hfits hmany hmodel.room hstitch
  obtain ⟨kv, hone, htext⟩ := hmodel.architecture
  rw [diagnostics_architecture hd' hone, ← harch, harch'] at htext
  obtain rfl := Option.some.inj (Option.some.inj htext)
  obtain ⟨md, hmd, hmetadata⟩ := readModelMetadata_eq har hword
  refine ⟨bytes, md, hbytes, hmetadata, fun m' hm' => ?_⟩
  obtain ⟨hd₁, -, hentries, hword₁, -⟩ := hread m' hm'
  obtain ⟨md', hmd', hmetadata'⟩ := readModelMetadata_eq har hword₁
  rw [hmetadata']
  congr 1
  rw [hentries, ModelMetadata.read_stitchedEntries (validateRange_le hvalid) hmd] at hmd'
  exact (Option.some.inj hmd').symm

end Stitched

private theorem sighted_stitched :
    ∃ outcome files out files',
      chunkGguf release release32 longHash prettyJson (sightedFile true) ⟨["out"], false, false⟩ ∅ =
        .ok (outcome, files) ∧
      stitchSubset release longHash outcome.manifest ["out"] secondLayer ["layer.gguf"] files =
        (.ok out, files') := by
  have hword : (sighted true).word <+: (sightedFile true).bytes := List.prefix_append _ _
  obtain ⟨outcome, files, hchunk⟩ := sighted_chunked true longHash_injective
  obtain ⟨ts, kinds, d, hts, hmeasured, hkinds, hd, harch, hchunks⟩ :=
    chunkGguf_chunksOf words_release longHash_injective rfl hword (sighted_data true)
      (sighted_fits true) hchunk
  obtain rfl := Except.ok.inj (hts.symm.trans sighted_tensors)
  have harch' : outcome.manifest.architecture = some "a" := by
    have hread := diagnostics_architecture hd rfl
    have htext : readGgufString release (leBytes 8 1 ++ [97]) = some (some "a") := by
      decide +kernel
    rw [harch]
    exact Option.some.inj (hread.symm.trans htext)
  obtain ⟨hd₀, ts₀, hword₀, hdescribes⟩ := chunkGguf_describes words_release hchunk
  obtain rfl := Header.unique hword₀ hword
  have hlayers : outcome.manifest.nLayers = 2 := by
    rw [hdescribes.nLayers, sighted_blockCount]
    rfl
  have hvalid : validateRange outcome.manifest secondLayer = .ok () := by
    rw [validateRange, hlayers]
    decide
  have hchosen : secondLayer.tensorsOf kinds = [⟨"blk.1.w", [8], 0, 32, 32⟩] :=
    List.perm_singleton.mp (hkinds.tensorsOf_perm secondLayer)
  have hnonempty : secondLayer.tensorsOf kinds ≠ [] := by
    rw [hchosen]
    exact List.cons_ne_nil _ _
  obtain ⟨out, files', hstitch⟩ := stitchSubset_returns words_release longHash_base32 hword
    (sighted_data true) (by rw [sighted_offset]; decide) hchunks
    (hkinds.held hmeasured sighted_source.ranges) hvalid harch' hnonempty
    (by rw [hchosen]; decide +kernel) ["layer.gguf"]
  exact ⟨outcome, files, out, files', hchunk, hstitch⟩

/-- The tower of the model comes last, and its count is still read. -/
theorem metadata_stitched_second_layer :
    ∃ outcome files out files' bytes md,
      chunkGguf release release32 longHash prettyJson (sightedFile true) ⟨["out"], false, false⟩ ∅ =
        .ok (outcome, files) ∧
      stitchSubset release longHash outcome.manifest ["out"] secondLayer ["layer.gguf"] files =
        (.ok out, files') ∧
      files'.lookup ["layer.gguf"] = some bytes ∧
      readModelMetadata release (sightedFile true) = .ok md ∧
      ∀ m' : Mmap, m'.bytes = bytes → readModelMetadata release m' = .ok md := by
  obtain ⟨outcome, files, out, files', hchunk, hstitch⟩ := sighted_stitched
  obtain ⟨bytes, md, hbytes, hmd, hread⟩ := metadata_stitched words_release longHash_injective
    longHash_base32 sighted_source rfl hchunk hstitch
  have hlast : countsLast "a" ((sighted true).entries.map Entry.kvEntry) = false := by
    decide +kernel
  refine ⟨outcome, files, out, files', bytes, md, hchunk, hstitch, hbytes, hmd, fun m' hm' => ?_⟩
  have hpicked := hread m' hm'
  rw [hlast] at hpicked
  exact hpicked

end IntelNav.ModelStore
