import IntelNav.ModelStore.GgufGrammar

/-! What `Gguf::open` accepts: the files that begin with a header. -/

set_option autoImplicit false
set_option relaxedAutoImplicit false

namespace IntelNav.ModelStore

open IntelNav.Reading

variable {ar : Arith}

theorem Entry.alignment_lt {al : Nat} (h : al < 2 ^ 32) (e : Entry ar) :
    e.alignment al < 2 ^ 32 := by
  unfold Entry.alignment
  split
  · have hlt := ofLeBytes_lt (e.value.word.take 4)
    have hpow : 256 ^ (e.value.word.take 4).length ≤ 256 ^ 4 :=
      Nat.pow_le_pow_right (by decide) (List.length_take_le _ _)
    omega
  · exact h

theorem Entry.foldl_alignment_lt (es : List (Entry ar)) {al : Nat} (h : al < 2 ^ 32) :
    es.foldl Entry.alignment al < 2 ^ 32 := by
  induction es generalizing al with
  | nil => exact h
  | cons e es ih => exact ih (e.alignment_lt h)

namespace Header

theorem alignment_lt (hd : Header ar) : hd.alignment < 2 ^ 32 :=
  Entry.foldl_alignment_lt hd.entries (by decide)

@[simp] theorem length_counts (hd : Header ar) : hd.counts.length = 24 := by
  simp [counts, ggufMagic]

theorem length_value_le {hd : Header ar} {e : Entry ar} (he : e ∈ hd.entries) :
    e.value.word.length ≤ hd.word.length := by
  have hmem := List.sublist_flatten_of_mem (List.mem_map_of_mem (f := Entry.word) he)
  have hkv : e.word.length ≤ hd.kv.length := by
    rw [kv, List.flatMap]
    exact hmem.length_le
  simp only [Entry.word, List.length_append] at hkv
  simp only [word, List.length_append]
  omega

theorem alignedUp_spec {alignment : Nat} (h : alignment ≠ 0) (offset : Nat) :
    alignment ∣ alignedUp offset alignment ∧ offset ≤ alignedUp offset alignment ∧
      alignedUp offset alignment < offset + alignment := by
  rw [alignedUp, if_neg h]
  have hdiv := Nat.div_add_mod (offset + alignment - 1) alignment
  have hmod := Nat.mod_lt (offset + alignment - 1) (Nat.pos_of_ne_zero h)
  have hcomm := Nat.mul_comm alignment ((offset + alignment - 1) / alignment)
  exact ⟨Nat.dvd_mul_left _ _, by omega, by omega⟩

theorem le_alignedUp (offset alignment : Nat) : offset ≤ alignedUp offset alignment := by
  by_cases h : alignment = 0
  · rw [alignedUp, if_pos h]
  · exact (alignedUp_spec h offset).2.1

theorem alignedUp_add {alignment : Nat} (h : 0 < alignment) (k offset : Nat) :
    alignedUp (k * alignment + offset) alignment = k * alignment + alignedUp offset alignment := by
  have hsum : k * alignment + offset + alignment - 1 = offset + alignment - 1 + k * alignment := by
    omega
  rw [alignedUp, alignedUp, if_neg (Nat.ne_of_gt h), if_neg (Nat.ne_of_gt h), hsum,
    Nat.add_mul_div_right _ _ h, Nat.add_mul]
  omega

theorem alignedUp_eq {alignment : Nat} (h : alignment ≠ 0) (offset : Nat) :
    alignedUp offset alignment =
      if offset % alignment = 0 then offset else offset + (alignment - offset % alignment) := by
  have hdiv := Nat.div_add_mod offset alignment
  have hmod := Nat.mod_lt offset (Nat.pos_of_ne_zero h)
  have hcomm := Nat.mul_comm alignment (offset / alignment)
  rw [alignedUp, if_neg h]
  split
  · rename_i hrem
    have hq : (offset + alignment - 1) / alignment = offset / alignment := by
      rw [show offset + alignment - 1 = (alignment - 1) + alignment * (offset / alignment) by
        omega, Nat.add_mul_div_left _ _ (by omega), Nat.div_eq_of_lt (by omega), Nat.zero_add]
    rw [hq]
    omega
  · rename_i hrem
    have hq : (offset + alignment - 1) / alignment = offset / alignment + 1 := by
      rw [show offset + alignment - 1 = (offset % alignment - 1) +
        alignment * (offset / alignment + 1) by rw [Nat.mul_succ]; omega,
        Nat.add_mul_div_left _ _ (by omega), Nat.div_eq_of_lt (by omega), Nat.zero_add]
    rw [hq, Nat.succ_mul]
    omega

end Header

/-- `align_up` is exact where nothing overflows. -/
theorem alignUp_eq (har : ar.Words 64) {offset alignment : Nat} (hoff : offset < 2 ^ 63)
    (hal : alignment < 2 ^ 32) :
    alignUp ar offset alignment = some (Header.alignedUp offset alignment) := by
  unfold alignUp
  split
  · rename_i hzero
    rw [Header.alignedUp, if_pos hzero]
  · rename_i hne
    have hmod := Nat.mod_lt offset (Nat.pos_of_ne_zero hne)
    rw [Header.alignedUp_eq hne]
    dsimp only
    split
    · rfl
    · rw [har.below _ _ (by omega)]

section Reading

variable (har : ar.Words 64)
include har

theorem reads_readCounts :
    Reads fileBound (readCounts ar) fun _ c s => c.1 ≤ ggufMaxTensors ∧ c.2 ≤ ggufMaxKv ∧
      s = ggufMagic ++ leBytes 4 ggufVersionSupported ++ leBytes 8 c.1 ++ leBytes 8 c.2 := by
  refine ((reads_readBytes har (.inl (by decide))).bind fun _ magic _ _ => Reads.refused <|
    (reads_readU32 har).bind fun _ version _ _ => Reads.refused <|
      (reads_readU64 har).bind fun _ nTensors _ _ => (reads_readU64 har).bind fun _ nKv _ _ =>
        Reads.refused <| Reads.refused <| Reads.pure _ (nTensors, nKv)).congr fun pos c s => ?_
  constructor
  · rintro ⟨_, _, _, ⟨rfl, -⟩, ⟨hmagic, _, _, _, ⟨-, rfl⟩, ⟨hversion, _, _, _, ⟨-, rfl⟩,
      ⟨_, _, _, ⟨-, rfl⟩, ⟨ht, hkv, rfl, rfl⟩, rfl⟩, rfl⟩, rfl⟩, rfl⟩
    obtain rfl := not_not.mp hmagic
    obtain rfl := not_not.mp hversion
    exact ⟨not_lt.mp ht, not_lt.mp hkv, by simp⟩
  · rintro ⟨ht, hkv, rfl⟩
    refine ⟨_, _, _, ⟨rfl, rfl⟩, ⟨not_not.mpr rfl, _, _, _, ⟨by decide, rfl⟩, ⟨not_not.mpr rfl,
      _, _, _, ⟨ht.trans_lt (by decide), rfl⟩, ⟨_, _, [], ⟨hkv.trans_lt (by decide), rfl⟩,
      ⟨not_lt.mpr ht, not_lt.mpr hkv, rfl, rfl⟩, rfl⟩, rfl⟩, rfl⟩, ?_⟩
    simp

omit har in
private theorem reads_closed (mmap : Mmap) (c : Nat × Nat) (alignment kvEnd indexEnd : Nat) :
    Reads fileBound
      (match alignUp ar indexEnd alignment with
        | none => (Cursor.panic : Parser Gguf)
        | some tensorDataOffset =>
            pure
              { mmap, version := ggufVersionSupported, alignment, tensorDataOffset, nKv := c.2
                nTensors := c.1, kvEndOffset := kvEnd, indexEndOffset := indexEnd })
      fun _ g s => ∃ data, alignUp ar indexEnd alignment = some data ∧
        g = ⟨mmap, ggufVersionSupported, alignment, data, c.2, c.1, kvEnd, indexEnd⟩ ∧ s = [] := by
  cases h : alignUp ar indexEnd alignment with
  | none => exact (Reads.panic _).congr fun pos a s => by simp
  | some data => exact (Reads.pure _ _).congr fun pos a s => by simp

private theorem reads_readHeader (mmap : Mmap) :
    Reads fileBound (readHeader ar mmap) fun pos g s => ∃ hd : Header ar, s = hd.word ∧
      ∃ data, alignUp ar (pos + hd.word.length) hd.alignment = some data ∧
        g = { mmap, version := ggufVersionSupported, alignment := hd.alignment
              tensorDataOffset := data, nKv := hd.entries.length, nTensors := hd.tensors.length
              kvEndOffset := pos + hd.kvEnd, indexEndOffset := pos + hd.word.length } := by
  refine ((reads_readCounts har).bind fun _ c _ _ =>
    (reads_readAlignments har c.2 ggufDefaultAlignment).bind fun _ alignment _ _ =>
      (Reads.here _).bind fun _ kvEnd _ _ => (reads_tensors har _ c.1).bind fun _ _ _ _ =>
        (Reads.here _).bind fun _ indexEnd _ _ => reads_closed mmap c alignment kvEnd
          indexEnd).congr
      fun pos g s => ?_
  constructor
  · rintro ⟨⟨nTensors, nKv⟩, _, _, ⟨ht, hkv, rfl⟩, ⟨_, _, _, ⟨es, rfl, rfl, rfl⟩, ⟨_, _, _,
      ⟨rfl, rfl⟩, ⟨_, _, _, ⟨hn, ts, rfl, rfl⟩, ⟨_, _, _, ⟨rfl, rfl⟩, ⟨data, hdata, rfl, rfl⟩,
      rfl⟩, rfl⟩, rfl⟩, rfl⟩, rfl⟩
    obtain rfl : ts.length = nTensors := by simpa using hn
    refine ⟨⟨es, ts, hkv, ht⟩, ?_, data, ?_, ?_⟩
    · simp [Header.word, Header.counts, Header.kv, Header.index]
    · rw [← hdata]
      congr 1
      simp only [Header.word, Header.counts, Header.kv, Header.index, List.length_append,
        List.length_nil]
      omega
    · rw [Gguf.mk.injEq]
      simp only [Header.alignment, Header.kvEnd, Header.word, Header.counts, Header.kv,
        Header.index, List.length_append, List.length_nil, true_and]
      omega
  · rintro ⟨hd, rfl, data, hdata, rfl⟩
    have hkvEnd : pos + hd.kvEnd = pos + hd.counts.length + hd.kv.length := by
      rw [Header.kvEnd, Nat.add_assoc]
    have hend : pos + hd.word.length =
        pos + hd.counts.length + hd.kv.length + 0 + hd.index.length := by
      simp only [Header.word, List.length_append]
      omega
    rw [hend] at hdata ⊢
    rw [hkvEnd]
    exact ⟨(hd.tensors.length, hd.entries.length), _, _, ⟨hd.tensors_le, hd.entries_le, rfl⟩,
      ⟨_, _, _, ⟨hd.entries, rfl, rfl, rfl⟩, ⟨_, [], _, ⟨rfl, rfl⟩, ⟨_, _, _,
        ⟨by simp, hd.tensors, rfl, rfl⟩, ⟨_, [], [], ⟨rfl, rfl⟩, ⟨data, hdata, rfl, rfl⟩,
        rfl⟩, rfl⟩, rfl⟩, rfl⟩, by
          simp [Header.word, Header.counts, Header.kv, Header.index]⟩

/-- `Gguf::open` accepts the files that begin with a header and tells its offsets. -/
theorem open_iff {m : Mmap} {g : Gguf} :
    Gguf.open ar m = .ok g ↔ ∃ hd : Header ar, hd.word <+: m.bytes ∧ g = hd.gguf m := by
  have hreads := reads_readHeader har m m.bytes 0
  have hfits : ∀ hd : Header ar, hd.word <+: m.bytes →
      alignUp ar hd.word.length hd.alignment =
        some (Header.alignedUp hd.word.length hd.alignment) :=
    fun hd hs => alignUp_eq har (hs.length_le.trans_lt m.length_lt) hd.alignment_lt
  rw [Gguf.open]
  constructor
  · intro h
    cases hrun : readHeader ar m m.bytes 0 with
    | error e =>
        rw [hrun] at h
        cases h
    | ok result =>
        obtain ⟨g', stop⟩ := result
        rw [hrun] at h
        obtain rfl : g' = g := Except.ok.inj h
        obtain ⟨_, ⟨hd, rfl, data, hdata, rfl⟩, hs, -⟩ :=
          (hreads g' stop m.length_lt (Nat.zero_le _)).mp hrun
        rw [Nat.zero_add, hfits hd hs] at hdata
        obtain rfl := Option.some.inj hdata
        exact ⟨hd, hs, by simp [Header.gguf]⟩
  · rintro ⟨hd, hs, rfl⟩
    have hrun := (hreads (hd.gguf m) hd.word.length m.length_lt (Nat.zero_le _)).mpr
      ⟨_, ⟨hd, rfl, _, by rw [Nat.zero_add]; exact hfits hd hs, by simp [Header.gguf]⟩, hs, by simp⟩
    rw [hrun]
    rfl

end Reading

/-! A file begins with at most one header. -/

private theorem KvType.code_inj {a b : KvType} (h : a.code = b.code) : a = b := by
  have ha := KvType.fromU32_eq_ok.mpr h
  have hb := KvType.fromU32_eq_ok.mpr (rfl : b.code = b.code)
  exact Except.ok.inj (ha.symm.trans hb)

private theorem sized_inj {x y s t : Bytes} (hx : x.length < 2 ^ 64) (hy : y.length < 2 ^ 64)
    (h : leBytes 8 x.length ++ x ++ s = leBytes 8 y.length ++ y ++ t) : x = y ∧ s = t := by
  simp only [List.append_assoc] at h
  obtain ⟨hlen, hrest⟩ := List.append_inj h (by simp)
  exact List.append_inj hrest (leBytes_inj hx hy hlen)

theorem Name.unambiguous : Unambiguous Name.word := by
  rintro ⟨a, ha⟩ ⟨b, hb⟩ s t h
  obtain ⟨htext, hst⟩ := sized_inj ha hb h
  obtain rfl := utf8_inj.mp htext
  exact ⟨rfl, hst⟩

theorem Blob.unambiguous : Unambiguous Blob.word := by
  rintro ⟨a, ha⟩ ⟨b, hb⟩ s t h
  obtain ⟨rfl, hst⟩ := sized_inj ha hb h
  exact ⟨rfl, hst⟩

private theorem leBytes_append_inj {k m n : Nat} (hm : m < 256 ^ k) (hn : n < 256 ^ k) {s t : Bytes}
    (h : leBytes k m ++ s = leBytes k n ++ t) : m = n ∧ s = t := by
  obtain ⟨hmn, hst⟩ := List.append_inj h (by simp)
  exact ⟨leBytes_inj hm hn hmn, hst⟩

private theorem KvType.code_append_inj {a b : KvType} {s t : Bytes}
    (h : leBytes 4 a.code ++ s = leBytes 4 b.code ++ t) : a = b ∧ s = t := by
  obtain ⟨hcode, hst⟩ := leBytes_append_inj (code_lt a) (code_lt b) h
  exact ⟨KvType.code_inj hcode, hst⟩

private theorem Value.word_inj {v v' : Value ar} (hty : v.ty = v'.ty) {s t : Bytes}
    (h : v.word ++ s = v'.word ++ t) : v = v' ∧ s = t := by
  have hscalar : ∀ {ty : KvType} {payload : Bytes} (_ : ty.scalarSize = some payload.length)
      {w : Value ar}, ty = w.ty → ∃ payload' hs', w = .scalar ty payload' hs' := by
    intro ty payload hs w hw
    subst hw
    cases w with
    | scalar ty payload' hs' => exact ⟨payload', hs', rfl⟩
    | _ => cases hs
  cases v with
  | scalar ty payload hs =>
      obtain ⟨payload', hs', rfl⟩ := hscalar hs hty
      have hlen : payload.length = payload'.length := Option.some.inj (hs.symm.trans hs')
      obtain ⟨rfl, hst⟩ := List.append_inj h hlen
      exact ⟨rfl, hst⟩
  | string text =>
      cases v' with
      | scalar ty payload hs =>
          obtain ⟨_, _, hw⟩ := hscalar hs hty.symm
          cases hw
      | string text' =>
          obtain ⟨rfl, hst⟩ := Blob.unambiguous _ _ _ _ h
          exact ⟨rfl, hst⟩
      | _ => cases hty
  | scalars ty size n payload hs hn hlen =>
      cases v' with
      | scalar ty' payload' hs' =>
          obtain ⟨_, _, hw⟩ := hscalar hs' hty.symm
          cases hw
      | string text => cases hty
      | scalars ty' size' n' payload' hs' hn' hlen' =>
          simp only [word, List.append_assoc] at h
          obtain ⟨rfl, hcount⟩ := KvType.code_append_inj h
          obtain ⟨rfl, hpayload⟩ := leBytes_append_inj hn hn' hcount
          obtain rfl := Option.some.inj (hs.symm.trans hs')
          obtain ⟨rfl, hst⟩ := List.append_inj hpayload (Option.some.inj (hlen.symm.trans hlen'))
          exact ⟨rfl, hst⟩
      | strings texts hn' =>
          simp only [word, List.append_assoc] at h
          obtain ⟨rfl, -⟩ := KvType.code_append_inj h
          cases hs
  | strings texts hn =>
      cases v' with
      | scalar ty' payload' hs' =>
          obtain ⟨_, _, hw⟩ := hscalar hs' hty.symm
          cases hw
      | string text => cases hty
      | scalars ty' size' n' payload' hs' hn' hlen' =>
          simp only [word, List.append_assoc] at h
          obtain ⟨rfl, -⟩ := KvType.code_append_inj h
          cases hs'
      | strings texts' hn' =>
          simp only [word, List.append_assoc] at h
          obtain ⟨-, hcount⟩ := KvType.code_append_inj h
          obtain ⟨hlen, htexts⟩ := leBytes_append_inj hn hn' hcount
          obtain ⟨rfl, hst⟩ := Blob.unambiguous.flatMap hlen htexts
          exact ⟨rfl, hst⟩

theorem Entry.unambiguous : Unambiguous (Entry.word : Entry ar → Bytes) := by
  rintro ⟨key, v⟩ ⟨key', v'⟩ s t h
  simp only [Entry.word, List.append_assoc] at h
  obtain ⟨rfl, hvalue⟩ := Name.unambiguous _ _ _ _ h
  obtain ⟨hty, hword⟩ := KvType.code_append_inj hvalue
  obtain ⟨rfl, hst⟩ := Value.word_inj hty hword
  exact ⟨rfl, hst⟩

private theorem dimension_unambiguous : Unambiguous fun d : UInt64 => leBytes 8 d.toNat := by
  intro a b s t h
  obtain ⟨hab, hst⟩ := leBytes_append_inj a.toNat_lt b.toNat_lt h
  exact ⟨UInt64.toNat_inj.mp hab, hst⟩

theorem TensorInfo.unambiguous : Unambiguous TensorInfo.word := by
  rintro ⟨name, shape, dtype, rel, hdims⟩ ⟨name', shape', dtype', rel', hdims'⟩ s t h
  simp only [TensorInfo.word, List.append_assoc] at h
  have hlt : ∀ {n}, n ≤ ggufMaxDims → n < 256 ^ 4 := fun hn => hn.trans_lt (by decide)
  obtain ⟨rfl, h₁⟩ := Name.unambiguous _ _ _ _ h
  obtain ⟨hn, h₂⟩ := leBytes_append_inj (hlt hdims) (hlt hdims') h₁
  obtain ⟨rfl, h₃⟩ := dimension_unambiguous.flatMap hn h₂
  obtain ⟨hdtype, h₄⟩ := leBytes_append_inj dtype.toNat_lt dtype'.toNat_lt h₃
  obtain ⟨hrel, hst⟩ := leBytes_append_inj rel.toNat_lt rel'.toNat_lt h₄
  obtain rfl := UInt32.toNat_inj.mp hdtype
  obtain rfl := UInt64.toNat_inj.mp hrel
  exact ⟨rfl, hst⟩

theorem Header.unambiguous : Unambiguous (Header.word : Header ar → Bytes) := by
  rintro ⟨es, ts, hkv, ht⟩ ⟨es', ts', hkv', ht'⟩ s t h
  simp only [Header.word, Header.counts, Header.kv, Header.index, List.append_assoc] at h
  have hcounts := List.append_cancel_left (List.append_cancel_left h)
  obtain ⟨htensors, h₁⟩ := leBytes_append_inj (k := 8) (ht.trans_lt (by decide))
    (ht'.trans_lt (by decide)) hcounts
  obtain ⟨hentries, h₂⟩ := leBytes_append_inj (k := 8) (hkv.trans_lt (by decide))
    (hkv'.trans_lt (by decide)) h₁
  obtain ⟨rfl, h₃⟩ := Entry.unambiguous.flatMap hentries h₂
  obtain ⟨rfl, hst⟩ := TensorInfo.unambiguous.flatMap htensors h₃
  exact ⟨rfl, hst⟩

/-- A file begins with at most one header. -/
theorem Header.unique {hd hd' : Header ar} {bytes : Bytes} (h : hd.word <+: bytes)
    (h' : hd'.word <+: bytes) : hd = hd' := by
  obtain ⟨s, rfl⟩ := h
  obtain ⟨t, ht⟩ := h'
  exact (Header.unambiguous _ _ _ _ ht.symm).1

end IntelNav.ModelStore
