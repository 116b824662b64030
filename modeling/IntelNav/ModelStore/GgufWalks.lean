import IntelNav.ModelStore.GgufIndex

/-! What `Gguf::open` locates and what `kv_entries` and `tensors` read again: the same entries, and
tensors that partition the data region. -/

set_option autoImplicit false
set_option relaxedAutoImplicit false

namespace IntelNav.ModelStore

open IntelNav.Reading IntelNav.Layout

/-- Each range begins where the one before it ends, the first at `lo`, and the last ends at `hi`. -/
def Contiguous : Nat → List (Nat × Nat) → Nat → Prop
  | lo, [], hi => lo = hi
  | lo, r :: rest, hi => r.1 = lo ∧ r.1 ≤ r.2 ∧ Contiguous r.2 rest hi

/-- `&buf[range]`, of a range within the buffer. -/
def slab (buf : Bytes) (range : Nat × Nat) : Bytes := (buf.drop range.1).take (range.2 - range.1)

namespace Contiguous

theorem le {lo hi : Nat} {ranges : List (Nat × Nat)} (h : Contiguous lo ranges hi) : lo ≤ hi := by
  induction ranges generalizing lo with
  | nil => exact Nat.le_of_eq h
  | cons r rest ih =>
      obtain ⟨hstart, hle, hrest⟩ := h
      have hend := ih hrest
      omega

private theorem flatMap_slab {lo hi : Nat} {ranges : List (Nat × Nat)} (h : Contiguous lo ranges hi)
    (buf : Bytes) : ranges.flatMap (slab buf) = slab buf (lo, hi) := by
  induction ranges generalizing lo with
  | nil =>
      obtain rfl : lo = hi := h
      simp [slab]
  | cons r rest ih =>
      obtain ⟨rfl, hle, hrest⟩ := h
      have hend := hrest.le
      have hsplit : hi - r.1 = (r.2 - r.1) + (hi - r.2) := by omega
      have hdrop : (buf.drop r.1).drop (r.2 - r.1) = buf.drop r.2 := by
        rw [List.drop_drop, Nat.add_sub_cancel' hle]
      rw [List.flatMap_cons, ih hrest]
      simp only [slab]
      rw [hsplit, List.take_add, hdrop]

end Contiguous

/-- A KV entry as `kv_entries` gives it, by ranges of the file. -/
structure KvSpan where
  key : String
  ty : KvType
  arrayElementTy : Option KvType
  valueRange : Nat × Nat
  entryRange : Nat × Nat

def KvSpan.entry (buf : Bytes) (kv : KvSpan) : KvEntry where
  key := kv.key
  ty := kv.ty
  arrayElementTy := kv.arrayElementTy
  value := slab buf kv.valueRange
  entry := slab buf kv.entryRange

section Walks

variable (ar : Arith)

def readKvSpan : Parser KvSpan := do
  let entryStart ← Cursor.here
  let key ← readString ar
  let ty ← KvType.read (← readU32 ar)
  let valueStart ← Cursor.here
  let arrayElementTy ← if ty = .array then do
      let elementTy ← KvType.read (← peekU32 ar)
      pure (some elementTy)
    else pure none
  skipKvValue ar ty
  let entryEnd ← Cursor.here
  pure
    { key, ty, arrayElementTy, valueRange := (valueStart, entryEnd)
      entryRange := (entryStart, entryEnd) }

/-- `Gguf::kv_entries`. -/
def Gguf.kvSpans (g : Gguf) : Except (Stop GgufError) (List KvSpan) :=
  ((readKvSpan ar).times g.nKv g.mmap.bytes 24).map Prod.fst

/-- The walk of `Gguf::tensors` over the index, before the sizes, with the position after it. -/
def Gguf.walkIndex (g : Gguf) : Except (Stop GgufError) (List TensorIndexEntry × Nat) :=
  (readTensor ar .tooManyDimsOf).times g.nTensors g.mmap.bytes g.kvEndOffset

end Walks

variable {ar : Arith}

/-- The stitcher's entries are those of `kv_entries`, with the bytes of their ranges. -/
private theorem readKvEntry_eq (buf : Bytes) (pos : Nat) :
    readKvEntry ar buf pos = (readKvSpan ar buf pos).map fun r => (r.1.entry buf, r.2) := by
  simp only [readKvEntry, readKvSpan, Cursor.bind_apply, Cursor.spanned, Cursor.here]
  rcases hkey : readString ar buf pos with e | ⟨key, p₁⟩
  · rfl
  simp only []
  rcases hcode : readU32 ar buf p₁ with e | ⟨code, p₂⟩
  · rfl
  simp only []
  rcases hty : KvType.read code buf p₂ with e | ⟨ty, p₃⟩
  · rfl
  simp only []
  by_cases harray : ty = .array
  · simp only [if_pos harray, Cursor.bind_apply]
    rcases hpeek : peekU32 ar buf p₃ with e | ⟨elementCode, p₄⟩
    · rfl
    simp only []
    rcases helement : KvType.read elementCode buf p₄ with e | ⟨elementTy, p₅⟩
    · rfl
    simp only [Cursor.pure_apply]
    rcases hskip : skipKvValue ar ty buf p₅ with e | ⟨u, p₆⟩
    · rfl
    · rfl
  · simp only [if_neg harray, Cursor.bind_apply, Cursor.pure_apply]
    rcases hskip : skipKvValue ar ty buf p₃ with e | ⟨u, p₄⟩
    · rfl
    · rfl

private theorem times_readKvEntry_eq (n : Nat) (buf : Bytes) (pos : Nat) :
    (readKvEntry ar).times n buf pos =
      ((readKvSpan ar).times n buf pos).map fun r => (r.1.map (KvSpan.entry buf), r.2) := by
  induction n generalizing pos with
  | zero => rfl
  | succ n ih =>
      simp only [Cursor.times, Cursor.bind_apply, readKvEntry_eq]
      rcases hfirst : readKvSpan ar buf pos with e | ⟨kv, mid⟩
      · rfl
      simp only [Except.map, ih]
      rcases hrest : (readKvSpan ar).times n buf mid with e | ⟨kvs, stop⟩
      · rfl
      · rfl

theorem Gguf.kvEntries_eq (g : Gguf) :
    g.kvEntries ar = (g.kvSpans ar).map (List.map (KvSpan.entry g.mmap.bytes)) := by
  rw [Gguf.kvEntries, Gguf.kvSpans, times_readKvEntry_eq]
  cases (readKvSpan ar).times g.nKv g.mmap.bytes 24 with
  | error e => rfl
  | ok result => rfl

/-- The range of an entry runs from where its reader starts to where it stops, with the value at its
end. -/
private theorem readKvSpan_range {buf : Bytes} {pos stop : Nat} {kv : KvSpan}
    (h : readKvSpan ar buf pos = .ok (kv, stop)) :
    kv.entryRange = (pos, stop) ∧ kv.valueRange.2 = stop := by
  simp only [readKvSpan] at h
  obtain ⟨start, p₁, hstart, h⟩ := Cursor.bind_eq_ok h
  obtain ⟨rfl, rfl⟩ := Prod.mk.inj (Except.ok.inj hstart)
  obtain ⟨key, p₂, -, h⟩ := Cursor.bind_eq_ok h
  obtain ⟨code, p₃, -, h⟩ := Cursor.bind_eq_ok h
  obtain ⟨ty, p₄, -, h⟩ := Cursor.bind_eq_ok h
  obtain ⟨valueStart, p₅, -, h⟩ := Cursor.bind_eq_ok h
  have hend : ∀ (elementTy : Option KvType) (mid : Nat),
      (skipKvValue ar ty >>= fun _ => Cursor.here >>= fun entryEnd =>
        (pure ⟨key, ty, elementTy, (valueStart, entryEnd), (pos, entryEnd)⟩ : Parser KvSpan))
          buf mid = .ok (kv, stop) → kv.entryRange = (pos, stop) ∧ kv.valueRange.2 = stop := by
    intro elementTy mid h
    obtain ⟨u, p₆, -, h⟩ := Cursor.bind_eq_ok h
    obtain ⟨entryEnd, p₇, hhere, h⟩ := Cursor.bind_eq_ok h
    obtain ⟨rfl, rfl⟩ := Prod.mk.inj (Except.ok.inj hhere)
    obtain ⟨rfl, rfl⟩ := Prod.mk.inj (Except.ok.inj h)
    exact ⟨rfl, rfl⟩
  by_cases harray : ty = .array
  · rw [if_pos harray] at h
    obtain ⟨elementCode, p₆, -, h⟩ := Cursor.bind_eq_ok h
    obtain ⟨elementTy, p₇, -, h⟩ := Cursor.bind_eq_ok h
    obtain ⟨arrayElementTy, p₈, -, h⟩ := Cursor.bind_eq_ok h
    exact hend arrayElementTy p₈ h
  · rw [if_neg harray] at h
    obtain ⟨arrayElementTy, p₆, -, h⟩ := Cursor.bind_eq_ok h
    exact hend arrayElementTy p₆ h

private theorem Value.word_pos (v : Value ar) : 0 < v.word.length := by
  cases v with
  | scalar ty payload hsize =>
      rw [word]
      cases ty <;> simp [KvType.scalarSize] at hsize <;> omega
  | string text => simp [word, Blob.word]
  | scalars ty size n payload hsize hn hlen => simp [word]
  | strings texts hn => simp [word]

def KvSpan.Tailed (kv : KvSpan) : Prop :=
  kv.entryRange.1 < kv.valueRange.1 ∧ kv.valueRange.1 < kv.valueRange.2 ∧
    kv.valueRange.2 = kv.entryRange.2

section Entries

variable (har : ar.Words 64)
include har

/-- Where an entry stands, `kv_entries` finds it, with its range. -/
private theorem readKvSpan_ok {buf : Bytes} {pos : Nat} {e : Entry ar} (hN : buf.length < fileBound)
    (hpos : pos ≤ buf.length) (hs : e.word <+: buf.drop pos) :
    ∃ kv, readKvSpan ar buf pos = .ok (kv, pos + e.word.length) ∧
      kv.entryRange = (pos, pos + e.word.length) ∧ kv.Tailed := by
  have hrun := accepts_readKvEntry har buf pos e hN hpos hs
  rw [readKvEntry_eq] at hrun
  cases hspan : readKvSpan ar buf pos with
  | error s =>
      rw [hspan] at hrun
      cases hrun
  | ok result =>
      obtain ⟨kv, stop⟩ := result
      rw [hspan] at hrun
      obtain ⟨hentry, rfl⟩ := Prod.mk.inj (Except.ok.inj hrun)
      obtain ⟨hrange, hstop⟩ := readKvSpan_range hspan
      refine ⟨kv, rfl, hrange, ?_⟩
      -- the bytes of the value tell how long it is, and so where it starts
      have hvalue : (slab buf kv.valueRange).length = e.value.word.length :=
        congrArg (fun kv => kv.value.length) hentry
      have hfull := stop_le hpos hs
      have hlen := e.value.word_pos
      have hword : e.word.length = e.key.word.length + 4 + e.value.word.length := by
        simp [Entry.word, Nat.add_assoc]
      rw [slab, List.length_take, List.length_drop] at hvalue
      rw [KvSpan.Tailed, hrange]
      refine ⟨?_, ?_, hstop⟩
      · omega
      · omega

private theorem times_readKvSpan_ok (es : List (Entry ar)) {buf : Bytes} {pos : Nat}
    (hN : buf.length < fileBound) (hpos : pos ≤ buf.length)
    (hs : es.flatMap Entry.word <+: buf.drop pos) :
    ∃ kvs, (readKvSpan ar).times es.length buf pos =
        .ok (kvs, pos + (es.flatMap Entry.word).length) ∧
      kvs.length = es.length ∧
      Contiguous pos (kvs.map KvSpan.entryRange) (pos + (es.flatMap Entry.word).length) ∧
      ∀ kv ∈ kvs, kv.Tailed := by
  induction es generalizing pos with
  | nil => exact ⟨[], rfl, rfl, rfl, by simp⟩
  | cons e es ih =>
      rw [List.flatMap_cons] at hs
      have he : e.word <+: buf.drop pos := (List.prefix_append _ _).trans hs
      obtain ⟨kv, hkv, hrange, htail⟩ := readKvSpan_ok har hN hpos he
      obtain ⟨kvs, hkvs, hlen, hcont, htails⟩ := ih (stop_le hpos he) (word_after hs)
      have hsum : pos + ((e :: es).flatMap Entry.word).length =
          pos + e.word.length + (es.flatMap Entry.word).length := by
        rw [List.flatMap_cons, List.length_append, Nat.add_assoc]
      refine ⟨kv :: kvs, ?_, by simp [hlen], ?_, ?_⟩
      · refine (Cursor.bind_ok hkv).trans ((Cursor.bind_ok hkvs).trans ?_)
        rw [hsum]
        rfl
      · rw [List.map_cons, hrange, hsum]
        exact ⟨rfl, Nat.le_add_right _ _, hcont⟩
      · intro kv' hmem
        rcases List.mem_cons.mp hmem with rfl | hmem
        · exact htail
        · exact htails kv' hmem

end Entries

/-- On every file that `Gguf::open` accepts the later walks read what it has read: the ranges of
`kv_entries` follow one another from the end of the counts to the tensor index, where the walk of
`tensors` starts and reads to the end of the index. Their slabs are the KV block. -/
theorem walks_agree (har : ar.Words 64) {m : Mmap} {g : Gguf} (h : Gguf.open ar m = .ok g) :
    ∃ kvs index, g.kvSpans ar = .ok kvs ∧ kvs.length = g.nKv ∧
      Contiguous 24 (kvs.map KvSpan.entryRange) g.kvEndOffset ∧ (∀ kv ∈ kvs, kv.Tailed) ∧
      g.walkIndex ar = .ok (index, g.indexEndOffset) ∧ index.length = g.nTensors ∧
      kvs.flatMap (fun kv => slab m.bytes kv.entryRange) = slab m.bytes (24, g.kvEndOffset) := by
  obtain ⟨hd, hword, rfl⟩ := (open_iff har).mp h
  obtain ⟨kvs, hrun, hcount, hcont, htails⟩ :=
    times_readKvSpan_ok har hd.entries m.length_lt (Header.counts_le hword)
      (Header.kv_prefix hword)
  have hend : 24 + (hd.entries.flatMap Entry.word).length = (hd.gguf m).kvEndOffset := by
    rw [Header.gguf, Header.kvEnd, hd.length_counts, Header.kv]
  rw [hend] at hrun hcont
  refine ⟨kvs, hd.tensors.map TensorInfo.indexEntry, ?_, hcount, hcont, htails,
    tensors_walk har hword .tooManyDimsOf, List.length_map _, ?_⟩
  · simp only [Gguf.kvSpans, Header.gguf, hrun]
    rfl
  · rw [← hcont.flatMap_slab, List.flatMap_map]

private theorem vectorDims : ([8] : List UInt64).length ≤ ggufMaxDims := by decide

private theorem alignSize : KvType.u32.scalarSize = some ([32, 0, 0, 0] : Bytes).length := rfl

private theorem scalarDims : ([] : List UInt64).length ≤ ggufMaxDims := by decide

/-- One KV entry, and three tensors that are not in the order of their offsets, two of which begin
at one place. -/
def shuffled : Header (Arith.wrapping 64) where
  entries := [⟨⟨"general.alignment", by decide⟩, .scalar .u32 [32, 0, 0, 0] alignSize⟩]
  tensors :=
    [⟨⟨"output_norm.weight", by decide⟩, [8], 0, 32, vectorDims⟩,
      ⟨⟨"blk.2.w", by decide⟩, [], 0, 0, scalarDims⟩,
      ⟨⟨"blk.3.w", by decide⟩, [8], 0, 0, vectorDims⟩]
  entries_le := by decide
  tensors_le := by decide

def shuffledFile : Mmap where
  bytes := shuffled.word ++ List.replicate (15 + 64) 0
  length_lt := by decide +kernel

private theorem shuffled_open :
    Gguf.open (Arith.wrapping 64) shuffledFile = .ok (shuffled.gguf shuffledFile) :=
  (open_iff (Arith.words_wrapping 64)).mpr ⟨shuffled, List.prefix_append _ _, rfl⟩

theorem walks_agree_shuffled :
    ∃ kvs index, (shuffled.gguf shuffledFile).kvSpans (Arith.wrapping 64) = .ok kvs ∧
      kvs.length = 1 ∧ Contiguous 24 (kvs.map KvSpan.entryRange) 57 ∧ (∀ kv ∈ kvs, kv.Tailed) ∧
      (shuffled.gguf shuffledFile).walkIndex (Arith.wrapping 64) = .ok (index, 177) ∧
      index.length = 3 ∧
      kvs.flatMap (fun kv => slab shuffledFile.bytes kv.entryRange) =
        slab shuffledFile.bytes (24, 57) := by
  have hkv : (shuffled.gguf shuffledFile).kvEndOffset = 57 := by decide +kernel
  have hindex : (shuffled.gguf shuffledFile).indexEndOffset = 177 := by decide +kernel
  rw [← hkv, ← hindex]
  exact walks_agree (Arith.words_wrapping 64) shuffled_open

section Partition

variable {stop : Nat} {index out : List TensorIndexEntry}

def TensorIndexEntry.Holds (t : TensorIndexEntry) (p : Nat) : Prop :=
  t.dataOffsetRel ≤ p ∧ p < t.dataOffsetRel + t.nBytes

def Apart (t u : TensorIndexEntry) : Prop := ∀ p, ¬ (t.Holds p ∧ u.Holds p)

/-- The tensors, in whatever order, divide the region from the lowest offset to `stop`. -/
structure Partition (stop : Nat) (ts : List TensorIndexEntry) (lo : Nat) : Prop where
  lowest : (∃ t ∈ ts, t.dataOffsetRel = lo) ∧ ∀ t ∈ ts, lo ≤ t.dataOffsetRel
  apart : ts.Pairwise Apart
  within : ∀ t ∈ ts, t.dataOffsetRel + t.nBytes ≤ stop
  union : ∀ p, (∃ t ∈ ts, t.Holds p) ↔ lo ≤ p ∧ p < stop
  total : lo ≤ stop ∧ (ts.map TensorIndexEntry.nBytes).sum = stop - lo

theorem Measured.partition (h : Measured stop index out) (hne : out ≠ []) :
    ∃ lo, Partition stop out lo := by
  obtain ⟨lo, pieces, hperm, htiles⟩ := h.tiles.resolve_left hne
  have hextent : ∀ {t}, t ∈ out → t.extent ∈ pieces := fun ht =>
    hperm.subset (List.mem_map_of_mem ht)
  have hlow : ∀ t ∈ out, lo ≤ t.dataOffsetRel := fun t ht => (htiles.within (hextent ht)).1
  have hlowest : ∃ t ∈ out, t.dataOffsetRel = lo := by
    cases pieces with
    | nil => exact absurd (List.map_eq_nil_iff.mp hperm.eq_nil) hne
    | cons piece rest =>
        obtain ⟨t, ht, heq⟩ := List.mem_map.mp (hperm.symm.subset List.mem_cons_self)
        refine ⟨t, ht, ?_⟩
        rw [← htiles.1, ← heq]
        rfl
  have hsum : (out.map TensorIndexEntry.nBytes).sum = (pieces.map Prod.snd).sum := by
    rw [← (hperm.map Prod.snd).sum_eq, List.map_map]
    rfl
  have htotal := htiles.sum
  refine ⟨lo, ⟨hlowest, hlow⟩, ?_, fun t ht => h.within ht, fun p => ⟨?_, ?_⟩, ?_⟩
  · have hpieces : pieces.Pairwise fun a b =>
        ∀ p, ¬ ((a.1 ≤ p ∧ p < a.1 + a.2) ∧ (b.1 ≤ p ∧ p < b.1 + b.2)) := by
      apply htiles.disjoint.imp
      intro a b hab p hp
      omega
    have hsymm : ∀ {a b : Nat × Nat},
        (∀ p, ¬ ((a.1 ≤ p ∧ p < a.1 + a.2) ∧ (b.1 ≤ p ∧ p < b.1 + b.2))) →
        ∀ p, ¬ ((b.1 ≤ p ∧ p < b.1 + b.2) ∧ (a.1 ≤ p ∧ p < a.1 + a.2)) := by
      intro a b hab p hp
      exact hab p hp.symm
    have hextents := (hperm.pairwise_iff hsymm).mpr hpieces
    exact (List.pairwise_map (f := TensorIndexEntry.extent)).mp hextents
  · rintro ⟨t, ht, hle, hlt⟩
    have hbound := h.within ht
    have hmin := hlow t ht
    omega
  · rintro ⟨hle, hlt⟩
    obtain ⟨t, ht, heq⟩ := hlowest
    exact h.covers ⟨t, ht, heq ▸ hle⟩ hlt
  · omega

end Partition

/-- Where the index places every tensor within the file, `tensors` gives the entries of the index in
their order, with sizes that partition the data region from the lowest offset to the end. -/
theorem tensors_partition (har : ar.Words 64) {m : Mmap} {g : Gguf} (h : Gguf.open ar m = .ok g)
    {index : List TensorIndexEntry} {stop : Nat} (hindex : g.walkIndex ar = .ok (index, stop))
    (hne : index ≠ [])
    (hfits : ∀ t ∈ index, g.tensorDataOffset + t.dataOffsetRel ≤ m.bytes.length) :
    ∃ ts lo, g.tensors ar = .ok ts ∧ ts.map (fun t => { t with nBytes := 0 }) = index ∧
      Partition (m.bytes.length - g.tensorDataOffset) ts lo := by
  obtain ⟨hd, hword, rfl⟩ := (open_iff har).mp h
  have hwalk := tensors_walk har hword .tooManyDimsOf
  obtain ⟨rfl, -⟩ := Prod.mk.inj (Except.ok.inj (hindex.symm.trans hwalk))
  have hdata : (hd.gguf m).tensorDataOffset ≤ m.bytes.length := by
    obtain ⟨t, ht⟩ := List.exists_mem_of_ne_nil _ hne
    have hle := hfits t ht
    omega
  obtain ⟨ts, hts, hmeasured⟩ := tensors_measured har hword hdata fun t ht => by
    have hle := hfits t.indexEntry (List.mem_map_of_mem ht)
    have hrel : t.indexEntry.dataOffsetRel = t.dataOffsetRel.toNat := rfl
    omega
  have hout : ts ≠ [] := by
    rintro rfl
    exact hne hmeasured.same.symm
  obtain ⟨lo, hpart⟩ := hmeasured.partition hout
  exact ⟨ts, lo, hts, hmeasured.same, hpart⟩

theorem tensors_partition_shuffled :
    ∃ ts lo, (shuffled.gguf shuffledFile).tensors (Arith.wrapping 64) = .ok ts ∧
      ts.map (fun t => { t with nBytes := 0 }) = shuffled.tensors.map TensorInfo.indexEntry ∧
      Partition 64 ts lo := by
  have hdata : shuffledFile.bytes.length -
      (shuffled.gguf shuffledFile).tensorDataOffset = 64 := by decide +kernel
  have hpart := tensors_partition (Arith.words_wrapping 64) shuffled_open
    (tensors_walk (Arith.words_wrapping 64) (List.prefix_append _ _) .tooManyDimsOf)
    (by simp [shuffled]) (by decide +kernel)
  rwa [hdata] at hpart

end IntelNav.ModelStore
