import IntelNav.ModelStore.GgufIndex
import IntelNav.ModelStore.SplitFiles
import IntelNav.ModelStore.StitchRuns

/-! The KV table of a stitched file (`crates/model-store/src/stitch.rs`). -/

set_option autoImplicit false
set_option relaxedAutoImplicit false

namespace IntelNav.ModelStore

open IntelNav.Disk IntelNav.Reading

/-! KV tables. -/

/-- The entries of the KV table of a file: as many as `n_kv` says, from byte 24 on. -/
def KvTable (ar : Arith) (bytes : Bytes) (es : List (Entry ar)) : Prop :=
  ofLeBytes ((bytes.drop 16).take 8) = es.length ∧ es.flatMap Entry.word <+: bytes.drop 24

theorem KvTable.unique {ar : Arith} {bytes : Bytes} {es es' : List (Entry ar)}
    (h : KvTable ar bytes es) (h' : KvTable ar bytes es') : es = es' := by
  obtain ⟨s, hs⟩ := h.2
  obtain ⟨s', hs'⟩ := h'.2
  exact (Entry.unambiguous.flatMap (h.1.symm.trans h'.1) (hs.trans hs'.symm)).1

variable {ar : Arith}

/-- The truth value of an entry of type `bool`. -/
def Value.asBool : Value ar → Option Bool
  | .scalar .bool [b] _ => some (b ≠ 0)
  | _ => none

def readFlag (es : List (Entry ar)) (key : String) : Option Bool :=
  (es.find? fun e => e.key.text = key).bind fun e => e.value.asBool

/-- No key stands twice, and the two flags are those of the range. -/
structure KeyedOnce (range : StitchRange) (es : List (Entry ar)) : Prop where
  nodup : (es.map fun e => e.key.text).Nodup
  embed : readFlag es "intelnav.has_embed" = some range.includeEmbed
  head : readFlag es "intelnav.has_head" = some range.includeHead

/-! What the stitcher makes of the table. -/

def scalarU32 (n : Nat) : Value ar := .scalar .u32 (leBytes 4 n) (by simp [KvType.scalarSize])

def scalarBool (b : Bool) : Value ar := .scalar .bool [if b then 1 else 0] rfl

def Entry.stitched (arch : String) (range : StitchRange) (e : Entry ar) : Entry ar :=
  if e.key.text = arch ++ ".block_count" ∧ e.value.ty = .u32 then
    { e with value := scalarU32 (range.stop - range.start).toNat }
  else e

def hasEmbed : Name := ⟨"intelnav.has_embed", by decide⟩

def hasHead : Name := ⟨"intelnav.has_head", by decide⟩

/-- The entries of a stitched file: those of the model, then the two flags. -/
def stitchedEntries (arch : String) (range : StitchRange) (es : List (Entry ar)) :
    List (Entry ar) :=
  es.map (Entry.stitched arch range) ++
    [⟨hasEmbed, scalarBool range.includeEmbed⟩, ⟨hasHead, scalarBool range.includeHead⟩]

private theorem key_stitched (arch : String) (range : StitchRange) (e : Entry ar) :
    (e.stitched arch range).key = e.key := by
  unfold Entry.stitched
  split <;> rfl

private theorem asBool_scalarBool (b : Bool) : (scalarBool b : Value ar).asBool = some b := by
  cases b <;> rfl

private theorem keys_stitchedEntries (arch : String) (range : StitchRange) (es : List (Entry ar)) :
    (stitchedEntries arch range es).map (fun e => e.key.text) =
      es.map (fun e => e.key.text) ++ ["intelnav.has_embed", "intelnav.has_head"] := by
  have hkeys : (es.map (Entry.stitched arch range)).map (fun e => e.key.text) =
      es.map fun e => e.key.text := by
    rw [List.map_map]
    exact List.map_congr_left fun e _ => by rw [Function.comp_apply, key_stitched]
  rw [stitchedEntries, List.map_append, hkeys]
  rfl

private theorem readFlag_append {es es' : List (Entry ar)} {key : String}
    (h : key ∉ es.map fun e => e.key.text) : readFlag (es ++ es') key = readFlag es' key := by
  have hnone : es.find? (fun e => e.key.text = key) = none := by
    rw [List.find?_eq_none]
    intro e he hkey
    exact h (List.mem_map.mpr ⟨e, he, by simpa using hkey⟩)
  rw [readFlag, List.find?_append, hnone]
  rfl

/-- With distinct keys before, the stitched table has distinct keys just when the two flags were
not there. -/
private theorem keyedOnce_stitchedEntries (arch : String) (range : StitchRange)
    {es : List (Entry ar)} (hnodup : (es.map fun e => e.key.text).Nodup) :
    KeyedOnce range (stitchedEntries arch range es) ↔
      "intelnav.has_embed" ∉ es.map (fun e => e.key.text) ∧
        "intelnav.has_head" ∉ es.map fun e => e.key.text := by
  have hkeys := keys_stitchedEntries arch range es
  have hmapped : (es.map (Entry.stitched arch range)).map (fun e => e.key.text) =
      es.map fun e => e.key.text := by
    have h := hkeys
    rw [stitchedEntries, List.map_append] at h
    exact List.append_cancel_right h
  constructor
  · intro h
    have hapart := h.nodup
    rw [hkeys, List.nodup_append] at hapart
    constructor
    · intro hmem
      exact hapart.2.2 _ hmem _ (by simp) rfl
    · intro hmem
      exact hapart.2.2 _ hmem _ (by simp) rfl
  · rintro ⟨hembed, hhead⟩
    constructor
    · rw [hkeys, List.nodup_append]
      refine ⟨hnodup, by decide, ?_⟩
      intro a ha b hb hab
      subst hab
      rcases List.mem_cons.mp hb with rfl | hb
      · exact hembed ha
      · obtain rfl := List.mem_singleton.mp hb
        exact hhead ha
    · rw [stitchedEntries, readFlag_append (hmapped ▸ hembed)]
      exact @asBool_scalarBool ar range.includeEmbed
    · rw [stitchedEntries, readFlag_append (hmapped ▸ hhead)]
      exact @asBool_scalarBool ar range.includeHead

/-! The bytes of the table. -/

private theorem word_scalarBool (key : Name) (b : Bool) :
    (⟨key, scalarBool b⟩ : Entry ar).word = writeKvBool key.text b := rfl

private theorem rewriteKvs_eq {headerBytes rest : Bytes} {arch : String}
    {range : StitchRange} {pos : Nat} {es : List (Entry ar)} {bytes : Bytes}
    (h : rewriteKvs headerBytes (arch ++ ".block_count") range pos (es.map Entry.kvEntry) =
      some bytes)
    (hword : es.flatMap Entry.word <+: (headerBytes ++ rest).drop pos) :
    bytes = (es.map (Entry.stitched arch range)).flatMap Entry.word := by
  induction es generalizing pos bytes with
  | nil => exact (Option.some.inj h).symm
  | cons e es ih =>
      rw [List.map_cons, rewriteKvs] at h
      simp only at h
      split at h
      · cases h
      · rename_i hfits
        have hlen : pos + e.word.length ≤ headerBytes.length := Nat.le_of_not_lt hfits
        obtain ⟨tail, htail, heq⟩ := Option.bind_eq_some_iff.mp h
        obtain rfl := Option.some.inj heq
        rw [List.flatMap_cons] at hword
        have hone : e.word <+: (headerBytes ++ rest).drop pos :=
          (List.prefix_append _ _).trans hword
        have hslice : (headerBytes.drop pos).take e.word.length = e.word := by
          rw [List.prefix_iff_eq_take, List.drop_append_of_le_length (by omega),
            List.take_append_of_le_length (by rw [List.length_drop]; omega)] at hone
          exact hone.symm
        rw [ih htail (word_after hword), List.map_cons, List.flatMap_cons]
        congr 1
        by_cases hcount : e.kvEntry.key = arch ++ ".block_count" ∧ e.kvEntry.ty = .u32
        · rw [if_pos hcount, show e.stitched arch range = _ from if_pos hcount]
          rfl
        · rw [if_neg hcount, show e.stitched arch range = _ from if_neg hcount]
          exact hslice

theorem header_writeTensors (alignment dataOffset : Nat) (out : Bytes)
    (kept : List (KeptTensor × Nat)) :
    out <+: (writeTensors ar alignment dataOffset out kept).1 := by
  induction kept generalizing out with
  | nil => exact List.prefix_refl out
  | cons t kept ih =>
      unfold writeTensors
      split
      · exact List.prefix_refl out
      · split
        · exact List.prefix_refl out
        · dsimp only
          split
          · exact List.prefix_append _ _
          · refine List.IsPrefix.trans ?_ (ih _)
            rw [List.append_assoc]
            exact List.prefix_append _ _

/-! The stitched file. -/

variable {hash : Hashing} {files files' : Files} {manifest : Manifest} {cacheDir outPath : Location}
  {range : StitchRange} {outcome : StitchOutcome}

def SourceHeader (hash : Hashing) (files : Files) (cacheDir : Location) (manifest : Manifest)
    (hd : Header ar) : Prop :=
  ∃ headerBytes, readCachedChunk hash files cacheDir manifest.headerChunk.cid = .ok headerBytes ∧
    hd.word <+: scratchGgufFromHeader headerBytes manifest.gguf.tensorDataOffset

theorem scratch_begins (headerBytes : Bytes) (tensorDataOffset : Nat) :
    ∃ pad, scratchGgufFromHeader headerBytes tensorDataOffset = headerBytes ++ pad :=
  ⟨_, List.append_assoc _ _ _⟩

theorem length_stitchedEntries (arch : String) (range : StitchRange) (es : List (Entry ar)) :
    (stitchedEntries arch range es).length = es.length + 2 := by
  simp [stitchedEntries]

theorem words_stitchedEntries (arch : String) (range : StitchRange) (es : List (Entry ar)) :
    (stitchedEntries arch range es).flatMap Entry.word =
      (es.map (Entry.stitched arch range)).flatMap Entry.word ++
        writeKvBool "intelnav.has_embed" range.includeEmbed ++
        writeKvBool "intelnav.has_head" range.includeHead := by
  simp only [stitchedEntries, List.flatMap_append, List.flatMap_cons, List.flatMap_nil,
    word_scalarBool, hasEmbed, hasHead, List.append_assoc, List.append_nil]

theorem rewritten_words (har : ar.Words 64) {headerBytes : Bytes} {tensorDataOffset : Nat}
    {hd : Header ar} (hword : hd.word <+: scratchGgufFromHeader headerBytes tensorDataOffset)
    {hlt : (scratchGgufFromHeader headerBytes tensorDataOffset).length < 2 ^ 63} {original : Gguf}
    (hopen : Gguf.open ar ⟨scratchGgufFromHeader headerBytes tensorDataOffset, hlt⟩ = .ok original)
    {kvs : List KvEntry} (hkvs : original.kvEntries ar = .ok kvs) {arch : String} {newKv : Bytes}
    (hnew : rewriteKvs headerBytes (arch ++ ".block_count") range 24 kvs = some newKv) :
    kvs.length = hd.entries.length ∧
      newKv = (hd.entries.map (Entry.stitched arch range)).flatMap Entry.word := by
  obtain ⟨hd', hword', rfl⟩ := (open_iff har).mp hopen
  obtain rfl := Header.unique hword' hword
  rw [kvEntries_eq har hword'] at hkvs
  obtain rfl := Except.ok.inj hkvs
  obtain ⟨pad, hscratch⟩ := scratch_begins headerBytes tensorDataOffset
  have hkv := Header.kv_prefix hword
  rw [hscratch] at hkv
  exact ⟨List.length_map _, rewriteKvs_eq hnew hkv⟩

private theorem assemble_table (har : ar.Words 64) {a : Assembly}
    (h : assemble ar hash files manifest cacheDir range = .ok a) {hd : Header ar}
    (hsource : SourceHeader hash files cacheDir manifest hd) :
    ∃ arch, manifest.architecture = some arch ∧ a.nKv = hd.entries.length + 2 ∧
      ∃ fixed rest, fixed.length = 16 ∧
        a.header = fixed ++ leBytes 8 (hd.entries.length + 2) ++
          (stitchedEntries arch range hd.entries).flatMap Entry.word ++ rest := by
  obtain ⟨headerBytes, hread, hword⟩ := hsource
  obtain ⟨-, hread', -, hlt, hopen, harch, -, -, hkvs, hnew, -, rfl, -⟩ := assemble_ok h
  rename_i kept kvs newKv index offsets dataOffset
  obtain rfl := Except.ok.inj (hread.symm.trans hread')
  obtain ⟨hcount, rfl⟩ := rewritten_words har hword hopen hkvs hnew
  generalize List.replicate (dataOffset - _) (0 : UInt8) = padding
  refine ⟨_, harch, by rw [hcount], ggufMagic ++
    leBytes 4 manifest.gguf.ggufVersion ++ leBytes 8 kept.length, index ++ padding, ?_, ?_⟩
  · simp [ggufMagic]
  · simp only [hcount, words_stitchedEntries, List.append_assoc]

/-- The KV table of a stitched file. -/
private theorem stitchSubset_table (har : ar.Words 64)
    (h : stitchSubset ar hash manifest cacheDir range outPath files = (.ok outcome, files'))
    {hd : Header ar} (hsource : SourceHeader hash files cacheDir manifest hd) :
    ∃ arch out, manifest.architecture = some arch ∧ files'.lookup outPath = some out ∧
      outcome.nKv = hd.entries.length + 2 ∧
      KvTable ar out (stitchedEntries arch range hd.entries) := by
  obtain ⟨a, out, hassemble, hwrite, rfl, rfl⟩ := stitchSubset_ok h
  obtain ⟨arch, harch, hnKv, fixed, rest, hfixed, hheader⟩ := assemble_table har hassemble hsource
  have hstart := @header_writeTensors ar a.alignment a.dataOffset a.header a.tensors
  rw [hwrite] at hstart
  refine ⟨arch, out, harch, (lookup_renameFile _ _ _ _).1, hnKv, ?_⟩
  obtain ⟨tail, rfl⟩ := hstart
  have hle := hd.entries_le
  have hcount := length_stitchedEntries arch range hd.entries
  have hlt : hd.entries.length + 2 < 256 ^ 8 := by
    have : ggufMaxKv = 65536 := rfl
    omega
  rw [hheader]
  constructor
  · have hdrop : (fixed ++ leBytes 8 (hd.entries.length + 2) ++
        (stitchedEntries arch range hd.entries).flatMap Entry.word ++ rest ++ tail).drop 16 =
          leBytes 8 (hd.entries.length + 2) ++
            ((stitchedEntries arch range hd.entries).flatMap Entry.word ++ rest ++ tail) := by
      simp only [List.append_assoc]
      exact List.drop_left' hfixed
    rw [hdrop, List.take_left' (length_leBytes 8 _), ofLeBytes_leBytes_of_lt hlt, hcount]
  · have hdrop : (fixed ++ leBytes 8 (hd.entries.length + 2) ++
        (stitchedEntries arch range hd.entries).flatMap Entry.word ++ rest ++ tail).drop 24 =
          (stitchedEntries arch range hd.entries).flatMap Entry.word ++ (rest ++ tail) := by
      simp only [List.append_assoc]
      rw [← List.append_assoc]
      exact List.drop_left' (by simp [hfixed])
    rw [hdrop]
    exact List.prefix_append _ _

/-- For a model whose keys are distinct, the stitched file counts the entries written, and they have
distinct keys and the flags of the range just when the model has neither flag. -/
theorem stitched_keys_unique_iff (har : ar.Words 64)
    (h : stitchSubset ar hash manifest cacheDir range outPath files = (.ok outcome, files'))
    {hd : Header ar} (hsource : SourceHeader hash files cacheDir manifest hd)
    (hkeys : (hd.entries.map fun e => e.key.text).Nodup) :
    ∃ arch out, manifest.architecture = some arch ∧ files'.lookup outPath = some out ∧
      outcome.nKv = (stitchedEntries arch range hd.entries).length ∧
      KvTable ar out (stitchedEntries arch range hd.entries) ∧
      (KeyedOnce range (stitchedEntries arch range hd.entries) ↔
        "intelnav.has_embed" ∉ hd.entries.map (fun e => e.key.text) ∧
          "intelnav.has_head" ∉ hd.entries.map fun e => e.key.text) := by
  obtain ⟨arch, out, harch, hout, hnKv, htable⟩ := stitchSubset_table har h hsource
  refine ⟨arch, out, harch, hout, ?_, htable, keyedOnce_stitchedEntries arch range hkeys⟩
  rw [hnKv, length_stitchedEntries]

private theorem stitch_ok {r : Except (Stop StitchError) StitchOutcome × Files}
    (h : r.1.toOption.isSome = true) : ∃ outcome files', r = (.ok outcome, files') := by
  obtain ⟨e | outcome, files'⟩ := r
  · cases h
  · exact ⟨outcome, files', rfl⟩

def lengthHash : Hashing :=
  { spelledHash with sha256 := fun bytes => [UInt8.ofNat bytes.length] }

/-- The header of a model that counts its own blocks and those of a tower. -/
def countedHeader : Header release where
  entries :=
    [⟨⟨"a.block_count", by decide⟩, scalarU32 1⟩, ⟨⟨"v.block_count", by decide⟩, scalarU32 4⟩]
  tensors := [⟨⟨"blk.0.w", by decide⟩, [1], 24, 0, by decide⟩]
  entries_le := by decide
  tensors_le := by decide

def countedChunk : Bytes := countedHeader.word ++ List.replicate 7 0

def countedManifest : Manifest :=
  { bareManifest with
    gguf := { ggufVersion := 3, alignment := 32, tensorDataOffset := 128, nKv := 2, nTensors := 1 }
    headerChunk := ⟨lengthHash.cidStringFor countedChunk, 128⟩
    bundles := [⟨"blk.0", some (0, 1), lengthHash.cidStringFor [7], 1,
      [⟨"blk.0.w", [1], "I8", 24, 0, lengthHash.cidStringFor [7], 1, 0⟩]⟩] }

def countedFiles : Files :=
  ((∅ : Files).insert ["slices", "chunks", lengthHash.cidStringFor countedChunk ++ ".bin"]
    countedChunk).insert ["slices", "chunks", lengthHash.cidStringFor [7] ++ ".bin"] [7]

theorem stitched_keys_unique_iff_counted :
    ∃ outcome files' out,
      stitchSubset release lengthHash countedManifest ["slices"] bareRange bareOut countedFiles =
        (.ok outcome, files') ∧
      files'.lookup bareOut = some out ∧ outcome.nKv = 4 ∧
      KvTable release out (stitchedEntries "a" bareRange countedHeader.entries) ∧
      KeyedOnce bareRange (stitchedEntries "a" bareRange countedHeader.entries) := by
  obtain ⟨outcome, files', h⟩ := stitch_ok (show (stitchSubset release lengthHash countedManifest
    ["slices"] bareRange bareOut countedFiles).1.toOption.isSome = true by decide +kernel)
  have hsource : SourceHeader lengthHash countedFiles ["slices"] countedManifest countedHeader :=
    ⟨countedChunk, by decide +kernel, by decide +kernel⟩
  obtain ⟨arch, out, harch, hout, hnKv, htable, hiff⟩ :=
    stitched_keys_unique_iff words_release h hsource (by decide)
  obtain rfl : "a" = arch := Option.some.inj harch
  exact ⟨outcome, files', out, h, hout, hnKv, htable, hiff.mpr ⟨by decide, by decide⟩⟩

/-- The header of a file that was itself stitched, with its embeddings and its head. -/
def stitchedHeader : Header release where
  entries := [⟨hasEmbed, scalarBool true⟩, ⟨hasHead, scalarBool true⟩]
  tensors := [⟨⟨"blk.0.w", by decide⟩, [1], 24, 0, by decide⟩]
  entries_le := by decide
  tensors_le := by decide

def stitchedChunk : Bytes := stitchedHeader.word ++ List.replicate 4 0

def restitchManifest : Manifest :=
  { bareManifest with
    gguf := { ggufVersion := 3, alignment := 32, tensorDataOffset := 128, nKv := 2, nTensors := 1 }
    headerChunk := ⟨lengthHash.cidStringFor stitchedChunk, 128⟩
    bundles := [⟨"blk.0", some (0, 1), lengthHash.cidStringFor [7], 1,
      [⟨"blk.0.w", [1], "I8", 24, 0, lengthHash.cidStringFor [7], 1, 0⟩]⟩] }

def restitchFiles : Files :=
  ((∅ : Files).insert ["slices", "chunks", lengthHash.cidStringFor stitchedChunk ++ ".bin"]
    stitchedChunk).insert ["slices", "chunks", lengthHash.cidStringFor [7] ++ ".bin"] [7]

/-- Stitched again without them, the file has both flags twice, and a reader finds the old ones. -/
theorem restitched_flags_stale :
    ∃ outcome files' out,
      stitchSubset release lengthHash restitchManifest ["slices"] bareRange bareOut
        restitchFiles = (.ok outcome, files') ∧
      SourceHeader lengthHash restitchFiles ["slices"] restitchManifest stitchedHeader ∧
      (stitchedHeader.entries.map fun e => e.key.text).Nodup ∧
      files'.lookup bareOut = some out ∧
      KvTable release out (stitchedEntries "a" bareRange stitchedHeader.entries) ∧
      readFlag (stitchedEntries "a" bareRange stitchedHeader.entries) "intelnav.has_embed" =
        some true ∧
      ¬ KeyedOnce bareRange (stitchedEntries "a" bareRange stitchedHeader.entries) := by
  obtain ⟨outcome, files', h⟩ := stitch_ok (show (stitchSubset release lengthHash restitchManifest
    ["slices"] bareRange bareOut restitchFiles).1.toOption.isSome = true by decide +kernel)
  have hsource : SourceHeader lengthHash restitchFiles ["slices"] restitchManifest
      stitchedHeader := ⟨stitchedChunk, by decide +kernel, by decide +kernel⟩
  obtain ⟨arch, out, harch, hout, -, htable⟩ := stitchSubset_table words_release h hsource
  obtain rfl : "a" = arch := Option.some.inj harch
  refine ⟨outcome, files', out, h, hsource, by decide, hout, htable, by decide +kernel, ?_⟩
  intro hkeyed
  exact absurd hkeyed.embed (by decide +kernel)

end IntelNav.ModelStore
