import IntelNav.ModelStore.GgufFaults
import IntelNav.ModelStore.StitchedKv

/-! The stitcher in a build that catches overflows, where no file is longer than an `i64` can
tell. -/

set_option autoImplicit false
set_option relaxedAutoImplicit false

namespace IntelNav.ModelStore

open IntelNav.Disk IntelNav.Reading

/-- `pad` of `scratch_gguf_from_header`, where it is an `i64`; a length is one. -/
def scratchPad (headerLen tensorDataOffset : Nat) : Option Int :=
  let pad := (Int64.ofNat tensorDataOffset).toInt - headerLen
  if -2 ^ 63 ≤ pad then some pad else none

/-- Why the checked stitcher failed; a write fails where the file would pass the last offset. -/
inductive StitchFailure
  | stitch (e : StitchError)
  | tooLarge
  deriving DecidableEq

def ofStitcher {α : Type} : Except (Stop StitchError) α → Except (Stop StitchFailure) α
  | .ok a => .ok a
  | .error (.failed e) => .error (.failed (.stitch e))
  | .error .panicked => .error .panicked

/-- `write_all` at the end of a file; what is written when it fails. -/
def appendTo (out bytes : Bytes) : Except Bytes Bytes :=
  if out.length + bytes.length < 2 ^ 63 then .ok (out ++ bytes)
  else .error ((out ++ bytes).take (2 ^ 63 - 1))

/-- `writeTensors`, in a file that ends somewhere. -/
def writeTensorsChecked (alignment dataOffset : Nat) :
    Bytes → List (KeptTensor × Nat) → Bytes × Except (Stop StitchFailure) Unit
  | out, [] => (out, .ok ())
  | out, (t, off) :: kept =>
      match checked.add dataOffset off with
      | none => (out, .error .panicked)
      | some expected =>
          if expected ≠ out.length then
            (out, .error (.failed (.stitch (.drift expected out.length t.newName))))
          else
            match appendTo out t.bytes with
            | .error out => (out, .error (.failed .tooLarge))
            | .ok out =>
                match alignUp checked out.length alignment with
                | none => (out, .error .panicked)
                | some padded =>
                    match appendTo out (List.replicate (padded - out.length) 0) with
                    | .error out => (out, .error (.failed .tooLarge))
                    | .ok out => writeTensorsChecked alignment dataOffset out kept

def writeAssembly (a : Assembly) : Bytes × Except (Stop StitchFailure) Unit :=
  match appendTo [] a.header with
  | .error out => (out, .error (.failed .tooLarge))
  | .ok out => writeTensorsChecked a.alignment a.dataOffset out a.tensors

section Stitch

variable (hash : Hashing)

/-- What is read and computed before the output is written; the length of the scratch file is
computed in `i64`. -/
def assembleChecked (files : Files) (manifest : Manifest) (cacheDir : Location)
    (range : StitchRange) : Except (Stop StitchError) Assembly := do
  ofStitch (validateRange manifest range)
  let headerBytes ← ofStitch (readCachedChunk hash files cacheDir manifest.headerChunk.cid)
  if headerBytes.length ≠ manifest.headerChunk.size then
    .error (.failed (.headerSize manifest.headerChunk.size headerBytes.length))
  else do
    let _ ← ofPanic (scratchPad headerBytes.length manifest.gguf.tensorDataOffset)
    assemble checked hash files manifest cacheDir range

/-- `stitch_subset` in such a build. -/
def stitchSubsetChecked (manifest : Manifest) (cacheDir : Location) (range : StitchRange)
    (outPath : Location) (files : Files) : Except (Stop StitchFailure) StitchOutcome × Files :=
  match ofStitcher (assembleChecked hash files manifest cacheDir range) with
  | .error e => (.error e, files)
  | .ok a =>
      let tmp := withExtension outPath "gguf.tmp"
      let (out, written) := writeAssembly a
      let files := files.insert tmp out
      match written with
      | .error e => (.error e, files)
      | .ok () =>
          (.ok ⟨outPath, out.length, a.tensors.length, a.nKv⟩, renameFile files tmp outPath)

end Stitch

private theorem appendTo_ok {out bytes : Bytes} (h : (out ++ bytes).length < 2 ^ 63) :
    appendTo out bytes = .ok (out ++ bytes) := by
  rw [List.length_append] at h
  rw [appendTo, if_pos h]

private theorem appendTo_eq_ok {out bytes written : Bytes} (h : appendTo out bytes = .ok written) :
    (out ++ bytes).length < 2 ^ 63 ∧ written = out ++ bytes := by
  unfold appendTo at h
  split at h
  · rename_i hshort
    rw [← List.length_append] at hshort
    exact ⟨hshort, (Except.ok.inj h).symm⟩
  · cases h

private theorem checked_add {a b c : Nat} (h : checked.add a b = some c) : c = a + b := by
  obtain ⟨-, h⟩ := Option.ite_none_right_eq_some.mp h
  exact (Option.some.inj h).symm

private theorem writeTensorsChecked_eq {alignment dataOffset : Nat} {kept : List (KeptTensor × Nat)}
    {out result : Bytes} (h : writeTensors checked alignment dataOffset out kept = (result, .ok ()))
    (hlen : result.length < 2 ^ 63) :
    writeTensorsChecked alignment dataOffset out kept = (result, .ok ()) := by
  induction kept generalizing out with
  | nil =>
      obtain ⟨rfl, -⟩ := Prod.mk.inj h
      rfl
  | cons t kept ih =>
      obtain ⟨t, off⟩ := t
      unfold writeTensors at h
      unfold writeTensorsChecked
      cases hadd : checked.add dataOffset off with
      | none =>
          rw [hadd] at h
          cases (Prod.mk.inj h).2
      | some expected =>
          rw [hadd] at h
          dsimp only at h ⊢
          by_cases hdrift : expected ≠ out.length
          · rw [if_pos hdrift] at h
            cases (Prod.mk.inj h).2
          · rw [if_neg hdrift] at h ⊢
            cases halign : alignUp checked (out ++ t.bytes).length alignment with
            | none =>
                rw [halign] at h
                cases (Prod.mk.inj h).2
            | some padded =>
                rw [halign] at h
                dsimp only at h
                have hprefix := @header_writeTensors checked alignment dataOffset
                  (out ++ t.bytes ++ List.replicate (padded - (out ++ t.bytes).length) 0) kept
                rw [h] at hprefix
                have hpadded := hprefix.length_le.trans_lt hlen
                have hshort := ((List.prefix_append (out ++ t.bytes) _).length_le).trans_lt hpadded
                rw [appendTo_ok hshort]
                dsimp only
                rw [halign]
                dsimp only
                rw [appendTo_ok hpadded]
                exact ih h

private theorem scratchPad_of_lt {headerLen tensorDataOffset : Nat} (hlen : headerLen < 2 ^ 63)
    (hoffset : tensorDataOffset < 2 ^ 63) : scratchPad headerLen tensorDataOffset ≠ none := by
  have htoInt : (Int64.ofNat tensorDataOffset).toInt = tensorDataOffset :=
    Int64.toInt_ofNat_of_lt hoffset
  rw [scratchPad, htoInt, if_pos (by omega)]
  exact Option.some_ne_none _

private theorem assembleChecked_eq {hash : Hashing} {manifest : Manifest} {cacheDir : Location}
    {range : StitchRange} {files : Files} {a : Assembly}
    (h : assemble checked hash files manifest cacheDir range = .ok a)
    (hoffset : manifest.gguf.tensorDataOffset < 2 ^ 63) :
    assembleChecked hash files manifest cacheDir range = .ok a := by
  obtain ⟨hvalid, hheader, hsize, hscratch, -, -, -, -, -, -, -, -, -⟩ := assemble_ok h
  rename_i headerBytes _ _ _ _ _ _ _ _ _ _
  have hlen : headerBytes.length < 2 ^ 63 := by
    unfold scratchGgufFromHeader at hscratch
    simp only [List.length_append] at hscratch
    omega
  obtain ⟨pad, hpad⟩ := Option.ne_none_iff_exists'.mp (scratchPad_of_lt hlen hoffset)
  unfold assembleChecked
  rw [hvalid]
  change (ofStitch (readCachedChunk hash files cacheDir manifest.headerChunk.cid) >>= _) = _
  rw [hheader]
  change (if headerBytes.length ≠ manifest.headerChunk.size then _ else _) = _
  rw [if_neg (not_not.mpr hsize), hpad]
  exact h

/-- Where the tensor data begins at an `i64` and the file stays short, it is the stitcher of
before. -/
theorem stitchSubsetChecked_eq {hash : Hashing} {manifest : Manifest} {cacheDir outPath : Location}
    {range : StitchRange} {files files' : Files} {out : StitchOutcome}
    (h : stitchSubset checked hash manifest cacheDir range outPath files = (.ok out, files'))
    (hoffset : manifest.gguf.tensorDataOffset < 2 ^ 63) (hsize : out.size < 2 ^ 63) :
    stitchSubsetChecked hash manifest cacheDir range outPath files = (.ok out, files') := by
  obtain ⟨a, result, ha, hrun, rfl, rfl⟩ := stitchSubset_ok h
  have hassemble := assembleChecked_eq ha hoffset
  have hwrite : writeAssembly a = (result, .ok ()) := by
    have hlen : result.length < 2 ^ 63 := hsize
    have hprefix := @header_writeTensors checked a.alignment a.dataOffset a.header a.tensors
    rw [hrun] at hprefix
    have hheader : ([] ++ a.header).length < 2 ^ 63 := hprefix.length_le.trans_lt hlen
    rw [writeAssembly, appendTo_ok hheader]
    exact writeTensorsChecked_eq hrun hlen
  unfold stitchSubsetChecked
  simp only [hassemble, ofStitcher, hwrite]

/-- `align_up` overflows where the next multiple is no word, but for a multiple itself. -/
theorem alignUp_checked {offset alignment : Nat} (h : 0 < alignment) :
    alignUp checked offset alignment =
      if alignment ∣ offset ∨ Header.alignedUp offset alignment < 2 ^ 64 then
        some (Header.alignedUp offset alignment)
      else none := by
  have hne := Nat.ne_of_gt h
  rw [alignUp, if_neg hne, Header.alignedUp_eq hne]
  dsimp only
  by_cases hrem : offset % alignment = 0
  · have hdvd := Nat.dvd_of_mod_eq_zero hrem
    rw [if_pos hrem, if_pos hrem, if_pos (.inl hdvd)]
  · have hdvd : ¬alignment ∣ offset := fun hd => hrem (Nat.mod_eq_zero_of_dvd hd)
    rw [if_neg hrem, if_neg hrem]
    simp only [hdvd, false_or]
    rfl

private theorem writeTensorsChecked_total {alignment dataOffset cursor : Nat} (hpos : 0 < alignment)
    (hdvd : alignment ∣ dataOffset) (hdata : 0 < dataOffset) {kept : List KeptTensor}
    {index out : Bytes} {offsets : List Nat} (hout : out.length = dataOffset + cursor)
    (hlen : out.length < 2 ^ 63)
    (hindex : writeIndex checked alignment cursor kept = some (index, offsets)) :
    (writeTensorsChecked alignment dataOffset out (kept.zip offsets)).2 ≠ .error .panicked := by
  induction kept generalizing cursor index offsets out with
  | nil =>
      rw [List.zip_nil_left]
      exact fun h => by cases h
  | cons t kept ih =>
      unfold writeIndex at hindex
      obtain ⟨stop, hstop, hindex⟩ := Option.bind_eq_some_iff.mp hindex
      obtain ⟨next, hnext, hindex⟩ := Option.bind_eq_some_iff.mp hindex
      obtain ⟨⟨rest, offsets'⟩, hrest, hindex⟩ := Option.bind_eq_some_iff.mp hindex
      obtain ⟨-, rfl⟩ := Prod.mk.inj (Option.some.inj hindex)
      have hadd : checked.add dataOffset cursor = some (dataOffset + cursor) := by
        refine if_pos ?_
        omega
      rw [List.zip_cons_cons]
      unfold writeTensorsChecked
      rw [hadd]
      dsimp only
      rw [if_neg (not_not.mpr hout.symm)]
      cases hbytes : appendTo out t.bytes with
      | error written => exact fun h => by cases h
      | ok written =>
          obtain ⟨hshort, rfl⟩ := appendTo_eq_ok hbytes
          -- the file ends at whole alignments and what the index counts
          obtain ⟨k, rfl⟩ := hdvd
          have hend : (out ++ t.bytes).length = k * alignment + (cursor + t.bytes.length) := by
            rw [List.length_append, hout, Nat.mul_comm k]
            omega
          have hstop' : stop = cursor + t.bytes.length := checked_add hstop
          have hnext' : next = Header.alignedUp stop alignment := by
            rw [alignUp_checked hpos] at hnext
            obtain ⟨-, hnext⟩ := Option.ite_none_right_eq_some.mp hnext
            exact (Option.some.inj hnext).symm
          have hpadded : alignUp checked (out ++ t.bytes).length alignment =
              some (k * alignment + next) := by
            have hbelow := (Header.alignedUp_spec (Nat.ne_of_gt hpos) (out ++ t.bytes).length).2.2
            have hle : alignment ≤ alignment * k :=
              Nat.le_mul_of_pos_right _ (Nat.pos_of_mul_pos_left hdata)
            rw [alignUp_checked hpos, if_pos (.inr (by omega)), hend, Header.alignedUp_add hpos,
              ← hstop', ← hnext']
          dsimp only
          rw [hpadded]
          dsimp only
          cases hzeros : appendTo (out ++ t.bytes)
              (List.replicate (k * alignment + next - (out ++ t.bytes).length) 0) with
          | error written => exact fun h => by cases h
          | ok written =>
              obtain ⟨hshort', rfl⟩ := appendTo_eq_ok hzeros
              dsimp only
              refine ih ?_ hshort' hrest
              have hge := Header.le_alignedUp stop alignment
              rw [List.length_append, List.length_replicate, hend, Nat.mul_comm alignment]
              omega

theorem writeAssembly_total {a : Assembly} {kept : List KeptTensor} {index : Bytes}
    {offsets : List Nat} (hpos : 0 < a.alignment) (hdvd : a.alignment ∣ a.dataOffset)
    (hdata : 0 < a.dataOffset) (hheader : a.header.length = a.dataOffset)
    (htensors : a.tensors = kept.zip offsets)
    (hindex : writeIndex checked a.alignment 0 kept = some (index, offsets)) :
    (writeAssembly a).2 ≠ .error .panicked := by
  unfold writeAssembly
  cases hwrite : appendTo [] a.header with
  | error written => exact fun h => by cases h
  | ok written =>
      obtain ⟨hshort, rfl⟩ := appendTo_eq_ok hwrite
      rw [List.nil_append] at hshort ⊢
      rw [htensors]
      exact writeTensorsChecked_total hpos hdvd hdata (hheader.trans (Nat.add_zero _).symm)
        hshort hindex

end IntelNav.ModelStore
