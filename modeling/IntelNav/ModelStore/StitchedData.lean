import IntelNav.Layout.Laid
import IntelNav.ModelStore.FullStitch
import IntelNav.ModelStore.StitchedKv

/-! The tensors of a stitched file: where they lie, and that the reader finds them there. -/

set_option autoImplicit false
set_option relaxedAutoImplicit false

namespace IntelNav.ModelStore

open IntelNav.Disk IntelNav.Reading IntelNav.Layout

variable {ar : Arith}

def KeptTensor.padded (alignment : Nat) (t : KeptTensor) : Bytes :=
  t.bytes ++ List.replicate (Header.alignedUp t.bytes.length alignment - t.bytes.length) 0

private theorem KeptTensor.length_padded (alignment : Nat) (t : KeptTensor) :
    (t.padded alignment).length = Header.alignedUp t.bytes.length alignment := by
  rw [padded, List.length_append, List.length_replicate]
  exact Nat.add_sub_of_le (Header.le_alignedUp _ _)

private theorem alignUp_after (har : ar.Words 64) {alignment cursor : Nat} (hpos : 0 < alignment)
    (hal : alignment < 2 ^ 32) (hcursor : alignment ∣ cursor) {n : Nat}
    (hlt : cursor + n < 2 ^ 63) :
    alignUp ar (cursor + n) alignment = some (cursor + Header.alignedUp n alignment) := by
  obtain ⟨k, rfl⟩ := hcursor
  rw [alignUp_eq har hlt hal, Nat.mul_comm, Header.alignedUp_add hpos]

private theorem dvd_after {alignment cursor : Nat} (hpos : 0 < alignment)
    (hcursor : alignment ∣ cursor) (n : Nat) : alignment ∣ cursor + Header.alignedUp n alignment :=
  Nat.dvd_add hcursor (Header.alignedUp_spec (Nat.ne_of_gt hpos) n).1

private theorem padded_after {alignment dataOffset cursor : Nat} {out : Bytes}
    (hout : out.length = dataOffset + cursor) (t : KeptTensor) :
    out ++ t.bytes ++ List.replicate
    (dataOffset + cursor + Header.alignedUp t.bytes.length alignment -
      (out ++ t.bytes).length) 0 = out ++ t.padded alignment := by
  have hle := Header.le_alignedUp t.bytes.length alignment
  rw [KeptTensor.padded, List.append_assoc, List.length_append, hout]
  congr 3
  omega

/-- A file in which no offset is missed has the tensors one after the other, at whole alignments. -/
private theorem writeTensors_laid (har : ar.Words 64) {alignment dataOffset : Nat}
    (hpos : 0 < alignment)
    (hal : alignment < 2 ^ 32) (hdata : alignment ∣ dataOffset) {kept : List KeptTensor}
    {cursor : Nat} (hcursor : alignment ∣ cursor) {out index result : Bytes} {offsets : List Nat}
    (hout : out.length = dataOffset + cursor)
    (hindex : writeIndex ar alignment cursor kept = some (index, offsets))
    (hwrite : writeTensors ar alignment dataOffset out (kept.zip offsets) = (result, .ok ()))
    (hlen : result.length < 2 ^ 63) :
    offsets = starts cursor (kept.map fun t => (t.padded alignment).length) ∧
      result = out ++ (kept.map (KeptTensor.padded alignment)).flatten := by
  induction kept generalizing cursor out index offsets with
  | nil =>
      obtain ⟨-, rfl⟩ := Prod.mk.inj (Option.some.inj hindex)
      obtain ⟨rfl, -⟩ := Prod.mk.inj hwrite
      exact ⟨rfl, (List.append_nil out).symm⟩
  | cons t kept ih =>
      unfold writeIndex at hindex
      obtain ⟨stop, hstop, hindex⟩ := Option.bind_eq_some_iff.mp hindex
      obtain ⟨next, hnext, hindex⟩ := Option.bind_eq_some_iff.mp hindex
      obtain ⟨⟨rest, offsets'⟩, hrest, hindex⟩ := Option.bind_eq_some_iff.mp hindex
      obtain ⟨-, rfl⟩ := Prod.mk.inj (Option.some.inj hindex)
      rw [List.zip_cons_cons] at hwrite
      unfold writeTensors at hwrite
      split at hwrite
      · cases (Prod.mk.inj hwrite).2
      · split at hwrite
        · cases (Prod.mk.inj hwrite).2
        · dsimp only at hwrite
          split at hwrite
          · cases (Prod.mk.inj hwrite).2
          · rename_i padded hpadded
            have hlong := (@header_writeTensors ar alignment dataOffset
              (out ++ t.bytes ++ List.replicate (padded - (out ++ t.bytes).length) 0)
              (kept.zip offsets')).length_le
            rw [hwrite, List.length_append] at hlong
            dsimp only at hlong
            have hwritten : (out ++ t.bytes).length = dataOffset + (cursor + t.bytes.length) := by
              rw [List.length_append, hout, Nat.add_assoc]
            rw [har.below _ _ (by omega)] at hstop
            obtain rfl := Option.some.inj hstop
            rw [alignUp_after har hpos hal hcursor (by omega)] at hnext
            obtain rfl := Option.some.inj hnext
            rw [hwritten, ← Nat.add_assoc, alignUp_after har hpos hal (Nat.dvd_add hdata hcursor)
              (by omega)] at hpadded
            obtain rfl := Option.some.inj hpadded
            rw [padded_after hout] at hwrite
            obtain ⟨hoffsets, hresult⟩ := ih (dvd_after hpos hcursor _) (by
              rw [List.length_append, hout, t.length_padded, Nat.add_assoc]) hrest hwrite
            refine ⟨?_, ?_⟩
            · rw [List.map_cons, starts, t.length_padded, hoffsets]
            · rw [hresult, List.map_cons, List.flatten_cons, List.append_assoc]

theorem writeIndex_starts (har : ar.Words 64) {alignment : Nat} (hpos : 0 < alignment)
    (hal : alignment < 2 ^ 32) {kept : List KeptTensor} {cursor : Nat}
    (hcursor : alignment ∣ cursor)
    (hlt : cursor + (kept.map fun t => (t.padded alignment).length).sum < 2 ^ 63) :
    ∃ index, writeIndex ar alignment cursor kept =
      some (index, starts cursor (kept.map fun t => (t.padded alignment).length)) := by
  induction kept generalizing cursor with
  | nil => exact ⟨[], rfl⟩
  | cons t kept ih =>
      rw [List.map_cons, List.sum_cons, t.length_padded, ← Nat.add_assoc] at hlt
      have hle := Header.le_alignedUp t.bytes.length alignment
      obtain ⟨index, hrest⟩ := ih (dvd_after hpos hcursor _) hlt
      unfold writeIndex
      simp only [har.below cursor t.bytes.length (by omega),
        alignUp_after har hpos hal hcursor (show cursor + t.bytes.length < 2 ^ 63 by omega), hrest,
        Option.bind_eq_bind, Option.bind_some, List.map_cons, starts, t.length_padded]
      exact ⟨_, rfl⟩

private theorem writeTensors_starts (har : ar.Words 64) {alignment dataOffset : Nat}
    (hpos : 0 < alignment)
    (hal : alignment < 2 ^ 32) (hdata : alignment ∣ dataOffset) {kept : List KeptTensor}
    {cursor : Nat} (hcursor : alignment ∣ cursor) {out : Bytes}
    (hout : out.length = dataOffset + cursor)
    (hlt : out.length + (kept.map fun t => (t.padded alignment).length).sum < 2 ^ 63) :
    ∃ result, writeTensors ar alignment dataOffset out
      (kept.zip (starts cursor (kept.map fun t => (t.padded alignment).length))) =
        (result, .ok ()) := by
  induction kept generalizing cursor out with
  | nil => exact ⟨out, rfl⟩
  | cons t kept ih =>
      rw [List.map_cons, List.sum_cons, t.length_padded] at hlt
      have hle := Header.le_alignedUp t.bytes.length alignment
      have hlen : (out ++ t.bytes).length = dataOffset + cursor + t.bytes.length := by
        rw [List.length_append, hout]
      have hnext : (out ++ t.padded alignment).length =
          dataOffset + (cursor + Header.alignedUp t.bytes.length alignment) := by
        rw [List.length_append, hout, t.length_padded, Nat.add_assoc]
      obtain ⟨result, hrest⟩ := ih (dvd_after hpos hcursor _) hnext (by omega)
      refine ⟨result, ?_⟩
      rw [List.map_cons, starts, List.zip_cons_cons, t.length_padded, writeTensors]
      simp only [har.below dataOffset cursor (by omega), hout, ne_eq, not_true_eq_false, if_false,
        hlen, alignUp_after har hpos hal (Nat.dvd_add hdata hcursor)
          (show dataOffset + cursor + t.bytes.length < 2 ^ 63 by omega)]
      rw [← hlen, padded_after hout]
      exact hrest

/-- What the reader should find of a tensor before it knows the sizes. -/
def KeptTensor.entry (t : KeptTensor) (dataOffsetRel : Nat) : TensorIndexEntry where
  name := t.newName
  shape := t.shape
  dtype := t.dtypeCode
  dataOffsetRel
  nBytes := 0

/-- The tensor fits in an index: its numbers are of their widths. -/
structure KeptTensor.Fits (t : KeptTensor) : Prop where
  dims : t.shape.length ≤ ggufMaxDims
  dtype : t.dtypeCode < 2 ^ 32

def KeptTensor.info (t : KeptTensor) (h : t.Fits) (hname : (utf8 t.newName).length < 2 ^ 64)
    (dataOffsetRel : Nat) : TensorInfo where
  name := ⟨t.newName, hname⟩
  shape := t.shape.map fun d => d.toUInt64
  dtype := UInt32.ofNat t.dtypeCode
  dataOffsetRel := UInt64.ofNat dataOffsetRel
  dims := by
    rw [List.length_map]
    exact h.dims

private theorem ofNat_toUInt64 (d : Int64) : Int64.ofNat d.toUInt64.toNat = d :=
  (Int64.ofNat_bitVecToNat d.toBitVec).trans d.ofBitVec_toBitVec

private theorem KeptTensor.indexEntry_info (t : KeptTensor) (h : t.Fits)
    (hname : (utf8 t.newName).length < 2 ^ 64) {a : Nat} (ha : a < 2 ^ 64) :
    (t.info h hname a).indexEntry = t.entry a := by
  have hdtype : (UInt32.ofNat t.dtypeCode).toNat = t.dtypeCode := UInt32.toNat_ofNat_of_lt' h.dtype
  have hrel : (UInt64.ofNat a).toNat = a := UInt64.toNat_ofNat_of_lt' ha
  have hshape : (t.shape.map fun d => d.toUInt64).map (fun d => Int64.ofNat d.toNat) = t.shape := by
    rw [List.map_map]
    exact (List.map_congr_left fun d _ => ofNat_toUInt64 d).trans (List.map_id _)
  simp only [TensorInfo.indexEntry, info, entry, hdtype, hrel, hshape]

private theorem KeptTensor.word_info (t : KeptTensor) (h : t.Fits)
    (hname : (utf8 t.newName).length < 2 ^ 64) {a : Nat} (ha : a < 2 ^ 64) :
    (t.info h hname a).word = writeString t.newName ++ leBytes 4 t.shape.length ++
      t.shape.flatMap (fun d => leBytes 8 d.toUInt64.toNat) ++ leBytes 4 t.dtypeCode ++
      leBytes 8 a := by
  have hdtype : (UInt32.ofNat t.dtypeCode).toNat = t.dtypeCode := UInt32.toNat_ofNat_of_lt' h.dtype
  have hrel : (UInt64.ofNat a).toNat = a := UInt64.toNat_ofNat_of_lt' ha
  simp only [TensorInfo.word, info, hdtype, hrel, List.length_map, List.flatMap_map]
  rfl

private theorem writeIndex_infos {alignment cursor : Nat} {kept : List KeptTensor} {index : Bytes}
    {offsets : List Nat} (h : writeIndex ar alignment cursor kept = some (index, offsets))
    (hfits : ∀ t ∈ kept, t.Fits) (hoffsets : ∀ a ∈ offsets, a < 2 ^ 64)
    (hlen : index.length < 2 ^ 64) :
    ∃ infos : List TensorInfo, infos.flatMap TensorInfo.word = index ∧
      infos.map TensorInfo.indexEntry = List.zipWith KeptTensor.entry kept offsets := by
  induction kept generalizing cursor index offsets with
  | nil =>
      obtain ⟨rfl, rfl⟩ := Prod.mk.inj (Option.some.inj h)
      exact ⟨[], rfl, rfl⟩
  | cons t kept ih =>
      unfold writeIndex at h
      obtain ⟨stop, -, h⟩ := Option.bind_eq_some_iff.mp h
      obtain ⟨next, -, h⟩ := Option.bind_eq_some_iff.mp h
      obtain ⟨⟨rest, offsets'⟩, hrest, h⟩ := Option.bind_eq_some_iff.mp h
      obtain ⟨rfl, rfl⟩ := Prod.mk.inj (Option.some.inj h)
      obtain ⟨ht, hkept⟩ := List.forall_mem_cons.mp hfits
      obtain ⟨hcursor, hoffsets'⟩ := List.forall_mem_cons.mp hoffsets
      have hname : (utf8 t.newName).length < 2 ^ 64 := by
        simp only [List.length_append, writeString] at hlen
        rw [utf8]
        omega
      rw [List.length_append] at hlen
      obtain ⟨infos, hindex, hentries⟩ := ih hrest hkept hoffsets' (by omega)
      refine ⟨t.info ht hname cursor :: infos, ?_, ?_⟩
      · rw [List.flatMap_cons, hindex, t.word_info ht hname hcursor]
      · rw [List.map_cons, hentries, t.indexEntry_info ht hname hcursor, List.zipWith_cons_cons]

private theorem Header.alignedUp_max (offset alignment : Nat) :
    alignedUp offset (max alignment 1) = alignedUp offset alignment := by
  by_cases h : alignment = 0
  · subst h
    rw [alignedUp, alignedUp, if_pos rfl, if_neg (by decide)]
    simp
  · rw [Nat.max_eq_left (Nat.pos_of_ne_zero h)]

/-- What the reader finds of a tensor that was written. -/
structure FindsTensor (ar : Arith) (g : Gguf) (alignment : Nat) (t : KeptTensor)
    (found : TensorIndexEntry) : Prop where
  name : found.name = t.newName
  shape : found.shape = t.shape
  dtype : found.dtype = t.dtypeCode
  bytes : g.tensorBytes ar found = some (t.padded alignment)

private theorem finds_tensors (har : ar.Words 64) {g : Gguf} {alignment : Nat}
    {kept : List KeptTensor}
    {cursor : Nat} {front : Bytes} (hfront : front.length = g.tensorDataOffset + cursor)
    (hbytes : g.mmap.bytes = front ++ (kept.map (KeptTensor.padded alignment)).flatten) :
    List.Forall₂ (FindsTensor ar g alignment) kept
      (List.zipWith TensorIndexEntry.sized
        (List.zipWith KeptTensor.entry kept
          (starts cursor (kept.map fun t => (t.padded alignment).length)))
        (kept.map fun t => (t.padded alignment).length)) := by
  induction kept generalizing cursor front with
  | nil => exact .nil
  | cons t kept ih =>
      rw [List.map_cons, List.flatten_cons] at hbytes
      have hrest := @ih (cursor + (t.padded alignment).length) (front ++ t.padded alignment)
        (by rw [List.length_append, hfront, Nat.add_assoc])
        (by rw [hbytes, List.append_assoc])
      rw [List.map_cons, starts, List.zipWith_cons_cons, List.zipWith_cons_cons]
      refine .cons ⟨rfl, rfl, rfl, ?_⟩ hrest
      have hheld : g.Holds ((t.entry cursor).sized (t.padded alignment).length) := by
        change g.tensorDataOffset + cursor + (t.padded alignment).length ≤ g.mmap.bytes.length
        rw [hbytes, List.length_append, List.length_append, hfront]
        omega
      rw [Gguf.tensorBytes_eq har hheld, Gguf.dataOf, hbytes]
      change some (((front ++ _).drop (g.tensorDataOffset + cursor)).take
        (t.padded alignment).length) = _
      rw [← hfront, List.drop_left, List.take_left]

section Reread

variable {m : Mmap} {es : List (Entry ar)} {alignment : Nat} {kept : List KeptTensor}
  {index header : Bytes} {offsets : List Nat} {dataOffset : Nat}

private theorem written_laid (har : ar.Words 64) (hpos : 0 < alignment) (hal : alignment < 2 ^ 32)
    (hindex : writeIndex ar alignment 0 kept = some (index, offsets))
    (haligned : alignUp ar header.length alignment = some dataOffset)
    (hwrite : writeTensors ar alignment dataOffset
      (header ++ List.replicate (dataOffset - header.length) 0) (kept.zip offsets) =
        (m.bytes, .ok ())) :
    dataOffset = Header.alignedUp header.length alignment ∧
      offsets = starts 0 (kept.map fun t => (t.padded alignment).length) ∧
      m.bytes = header ++ List.replicate (dataOffset - header.length) 0 ++
        (kept.map (KeptTensor.padded alignment)).flatten := by
  have hlen := m.length_lt
  have hstart := (@header_writeTensors ar alignment dataOffset
    (header ++ List.replicate (dataOffset - header.length) 0) (kept.zip offsets)).length_le
  rw [hwrite, List.length_append, List.length_replicate] at hstart
  dsimp only at hstart
  rw [alignUp_eq har (by omega) hal] at haligned
  obtain rfl := Option.some.inj haligned
  obtain ⟨hdvd, hle, -⟩ := Header.alignedUp_spec (Nat.ne_of_gt hpos) header.length
  have hfront : (header ++ List.replicate (Header.alignedUp header.length alignment -
      header.length) 0).length = Header.alignedUp header.length alignment + 0 := by
    rw [List.length_append, List.length_replicate]
    omega
  exact ⟨rfl, writeTensors_laid har hpos hal hdvd (Nat.dvd_zero _) hfront hindex hwrite hlen⟩

theorem written_short (har : ar.Words 64) (hpos : 0 < alignment) (hal : alignment < 2 ^ 32)
    (header : Bytes) (kept : List KeptTensor) (hshort : Header.alignedUp header.length alignment +
      (kept.map fun t => (t.padded alignment).length).sum < 2 ^ 63) :
    alignUp ar header.length alignment = some (Header.alignedUp header.length alignment) ∧
      ∃ bytes, writeTensors ar alignment (Header.alignedUp header.length alignment)
        (header ++ List.replicate (Header.alignedUp header.length alignment - header.length) 0)
        (kept.zip (starts 0 (kept.map fun t => (t.padded alignment).length))) =
          (bytes, .ok ()) := by
  obtain ⟨hdvd, hle, -⟩ := Header.alignedUp_spec (Nat.ne_of_gt hpos) header.length
  have hfilled : (header ++ List.replicate (Header.alignedUp header.length alignment -
      header.length) (0 : UInt8)).length = Header.alignedUp header.length alignment + 0 := by
    rw [List.length_append, List.length_replicate]
    omega
  refine ⟨alignUp_eq har (by omega) hal,
    writeTensors_starts har hpos hal hdvd (Nat.dvd_zero alignment) hfilled ?_⟩
  rw [hfilled]
  exact hshort

private theorem header_of_index (hkvs : es.length ≤ ggufMaxKv)
    (htensors : kept.length ≤ ggufMaxTensors) (hfits : ∀ t ∈ kept, t.Fits) {cursor : Nat}
    (hindex : writeIndex ar alignment cursor kept = some (index, offsets))
    (hoffsets : ∀ a ∈ offsets, a < 2 ^ 64) (hlen : index.length < 2 ^ 64)
    (hheader : header = ggufMagic ++ leBytes 4 ggufVersionSupported ++ leBytes 8 kept.length ++
      leBytes 8 es.length ++ es.flatMap Entry.word ++ index) :
    ∃ hd : Header ar, hd.entries = es ∧ hd.word = header ∧
      hd.tensors.map TensorInfo.indexEntry = List.zipWith KeptTensor.entry kept offsets := by
  obtain ⟨infos, hwords, hentries⟩ := writeIndex_infos hindex hfits hoffsets hlen
  have hcount : infos.length = kept.length := by
    have hlength := congrArg List.length hentries
    rw [List.length_map, List.length_zipWith, length_writeIndex hindex, min_self] at hlength
    exact hlength
  refine ⟨⟨es, infos, hkvs, hcount ▸ htensors⟩, rfl, ?_, hentries⟩
  change ggufMagic ++ leBytes 4 ggufVersionSupported ++ leBytes 8 infos.length ++
    leBytes 8 es.length ++ es.flatMap Entry.word ++ infos.flatMap TensorInfo.word = header
  rw [hwords, hcount, hheader]

private theorem map_dataOffsetRel {infos : List TensorInfo} (hcount : offsets.length = kept.length)
    (h : infos.map TensorInfo.indexEntry = List.zipWith KeptTensor.entry kept offsets) :
    (infos.map fun t => t.dataOffsetRel.toNat) = offsets := by
  have hfound := congrArg (List.map TensorIndexEntry.dataOffsetRel) h
  rw [List.map_map, List.map_zipWith] at hfound
  refine hfound.trans (Eq.trans ?_ (List.map_snd_zip hcount.le))
  rw [List.zip, List.map_zipWith]
  rfl

/-- A header of these entries and tensors, with its padding and the tensors after it, is read
again as such. -/
theorem reread (har : ar.Words 64)
    (halign : es.foldl Entry.alignment ggufDefaultAlignment = alignment)
    (hkvs : es.length ≤ ggufMaxKv) (htensors : kept.length ≤ ggufMaxTensors)
    (hfits : ∀ t ∈ kept, t.Fits)
    (hindex : writeIndex ar (max alignment 1) 0 kept = some (index, offsets))
    (hheader : header = ggufMagic ++ leBytes 4 ggufVersionSupported ++ leBytes 8 kept.length ++
      leBytes 8 es.length ++ es.flatMap Entry.word ++ index)
    (haligned : alignUp ar header.length (max alignment 1) = some dataOffset)
    (hwrite : writeTensors ar (max alignment 1) dataOffset
      (header ++ List.replicate (dataOffset - header.length) 0) (kept.zip offsets) =
        (m.bytes, .ok ())) :
    ∃ (hd : Header ar) (found : List TensorIndexEntry), hd.entries = es ∧
      hd.word <+: m.bytes ∧ (hd.gguf m).tensors ar = .ok found ∧
      List.Forall₂ (FindsTensor ar (hd.gguf m) (max alignment 1)) kept found := by
  have hlt : alignment < 2 ^ 32 := by
    rw [← halign]
    exact Entry.foldl_alignment_lt es (by decide)
  obtain ⟨hoffset, hoffsets, hbytes⟩ :=
    written_laid har (by omega) (by omega) hindex haligned hwrite
  have hle : header.length ≤ dataOffset := hoffset ▸ Header.le_alignedUp _ _
  set lens := kept.map fun t => (t.padded (max alignment 1)).length with hlens
  have hlen := m.length_lt
  have htotal : m.bytes.length = dataOffset + lens.sum := by
    rw [hbytes, List.length_append, List.length_append, List.length_replicate, List.length_flatten,
      List.map_map, Nat.add_sub_of_le hle]
    rfl
  have hwithin : ∀ a ∈ offsets, a ≤ lens.sum := by
    intro a ha
    rw [hoffsets] at ha
    have hle := (starts_within ha).2
    omega
  have hindexLen : index.length ≤ header.length := by
    rw [hheader, List.length_append]
    omega
  obtain ⟨hd, rfl, hword, hentries⟩ := header_of_index hkvs htensors hfits hindex
    (fun a ha => (hwithin a ha).trans_lt (by omega)) (by omega) hheader
  have hprefix : hd.word <+: m.bytes := by
    rw [hword, hbytes, List.append_assoc]
    exact List.prefix_append _ _
  have hdata : (hd.gguf m).tensorDataOffset = dataOffset := by
    change Header.alignedUp hd.word.length hd.alignment = dataOffset
    rw [hword, hoffset, Header.alignedUp_max, ← halign]
    rfl
  have hrels := map_dataOffsetRel (length_writeIndex hindex) hentries
  have hstop : m.bytes.length - dataOffset = 0 + lens.sum := by omega
  have hlate : ∀ t ∈ hd.tensors, t.dataOffsetRel.toNat ≤ m.bytes.length - dataOffset := by
    intro t ht
    have hmem := List.mem_map_of_mem (f := fun t : TensorInfo => t.dataOffsetRel.toNat) ht
    rw [hrels] at hmem
    have hle := hwithin _ hmem
    omega
  have hascend : (hd.tensors.map fun t => t.dataOffsetRel.toNat).Pairwise (· ≤ ·) := by
    rw [hrels, hoffsets]
    exact starts_ascend _ _
  have hread := tensors_ascending har hprefix (by omega) hascend (by rw [hdata]; exact hlate)
  rw [hdata, hrels, hentries, hoffsets, hstop, cut_starts] at hread
  refine ⟨hd, _, rfl, hprefix, hread, finds_tensors har ?_ hbytes⟩
  rw [hdata, List.length_append, List.length_replicate]
  omega

end Reread

end IntelNav.ModelStore
