import IntelNav.Layout.Tiles
import IntelNav.ModelStore.GgufOpen

/-! The later walks over an open file: its KV entries, and its tensors with their sizes. -/

set_option autoImplicit false
set_option relaxedAutoImplicit false

namespace IntelNav.ModelStore

open IntelNav.Reading IntelNav.Layout

variable {ar : Arith}

def Value.elementTy : Value ar → Option KvType
  | .scalars ty .. => some ty
  | .strings .. => some .string
  | _ => none

/-- What `kv_entries` tells of an entry. -/
def Entry.kvEntry (e : Entry ar) : KvEntry where
  key := e.key.text
  ty := e.value.ty
  arrayElementTy := e.value.elementTy
  value := e.value.word
  entry := e.word

private theorem elementTy_spec (v : Value ar) :
    v.ty = .array ∧ (∃ ty t, v.elementTy = some ty ∧ v.word = leBytes 4 ty.code ++ t) ∨
      v.ty ≠ .array ∧ v.elementTy = none := by
  cases v with
  | scalar ty payload hs =>
      refine .inr ⟨?_, rfl⟩
      rintro (rfl : ty = .array)
      cases hs
  | string text => exact .inr ⟨nofun, rfl⟩
  | scalars ty size n payload hs hn hlen =>
      exact .inl ⟨rfl, ty, leBytes 8 n ++ payload, rfl, by simp [Value.word]⟩
  | strings texts hn =>
      exact .inl ⟨rfl, .string, _, rfl, by rw [Value.word, List.append_assoc]⟩

section Walks

variable (har : ar.Words 64)
include har

private theorem peekU32_ok {buf : Bytes} {pos n : Nat} (hN : buf.length < fileBound)
    (hpos : pos ≤ buf.length) (hn : n < 2 ^ 32) (hs : leBytes 4 n <+: buf.drop pos) :
    peekU32 ar buf pos = .ok (n, pos) := by
  have hlen := stop_le hpos hs
  rw [length_leBytes] at hlen
  have hsum : ar.add pos 4 = some (pos + 4) := har.below pos 4 (by
    have hbound : buf.length < 2 ^ 63 := hN
    omega)
  have htake : (buf.drop pos).take 4 = leBytes 4 n := by
    rw [List.prefix_iff_eq_take.mp hs, length_leBytes]
  simp only [peekU32, hsum]
  rw [if_neg (by omega), if_neg (by omega), Nat.add_sub_cancel_left, htake,
    ofLeBytes_leBytes_of_lt hn]

theorem accepts_readKvEntry :
    Accepts fileBound (readKvEntry ar) (Entry.kvEntry : Entry ar → KvEntry) Entry.word := by
  intro buf pos e hN hpos hs
  have hkey : e.key.word <+: buf.drop pos :=
    (List.prefix_append _ _).trans ((List.prefix_append _ _).trans hs)
  have hmid := stop_le hpos hkey
  have htagged : leBytes 4 e.value.ty.code ++ e.value.word <+:
      buf.drop (pos + e.key.word.length) := by
    rw [Entry.word, List.append_assoc] at hs
    exact word_after hs
  have hcode := (List.prefix_append _ _).trans htagged
  have hstart := stop_le hmid hcode
  have hvalue := word_after htagged
  set mid := pos + e.key.word.length with hmid_def
  set start := mid + (leBytes 4 e.value.ty.code).length with hstart_def
  have readKey := (reads_readString har buf pos _ mid hN hpos).mpr
    ⟨_, ⟨e.key, rfl, rfl⟩, hkey, rfl⟩
  have readCode := (reads_readU32 har buf mid _ start hN hmid).mpr
    ⟨_, ⟨code_lt e.value.ty, rfl⟩, hcode, rfl⟩
  have readTy := (reads_kvType e.value.ty.code buf start e.value.ty start hN hstart).mpr
    ⟨[], ⟨rfl, rfl⟩, List.nil_prefix, rfl⟩
  have skip := (reads_skipKvValue har e.value.ty buf start () _ hN hstart).mpr
    ⟨_, ⟨e.value, rfl, rfl⟩, hvalue, rfl⟩
  -- an array begins with the type of its elements, which is looked at and read again
  have inner : (do
      let elementTy ← if e.value.ty = .array then do
          let elementTy ← KvType.read (← peekU32 ar)
          pure (some elementTy)
        else pure none
      skipKvValue ar e.value.ty
      pure elementTy : Parser (Option KvType)) buf start =
        .ok (e.value.elementTy, start + e.value.word.length) := by
    rcases elementTy_spec e.value with ⟨harray, ty, t, hty, hword⟩ | ⟨hne, hty⟩
    · rw [if_pos harray, hty]
      have hpeek := peekU32_ok har hN hstart (code_lt ty)
        ((List.prefix_append _ t).trans (hword ▸ hvalue))
      have hread := (reads_kvType ty.code buf start ty start hN hstart).mpr
        ⟨[], ⟨rfl, rfl⟩, List.nil_prefix, rfl⟩
      exact (Cursor.bind_ok hpeek).trans ((Cursor.bind_ok hread).trans (Cursor.bind_ok skip))
    · rw [if_neg hne, hty]
      exact Cursor.bind_ok skip
  have hend : start + e.value.word.length = pos + e.word.length := by
    rw [Entry.word, List.length_append, List.length_append]
    omega
  have value := Cursor.spanned_ok hvalue inner
  let parts := (e.key.text, e.value.ty, e.value.elementTy, e.value.word)
  refine (Cursor.bind_ok (Cursor.spanned_ok (a := parts) hs ?_)).trans rfl
  refine (Cursor.bind_ok readKey).trans ((Cursor.bind_ok readCode).trans
    ((Cursor.bind_ok readTy).trans ((Cursor.bind_ok value).trans ?_)))
  rw [hend]
  rfl

omit har in
theorem Header.counts_le {hd : Header ar} {bytes : Bytes} (h : hd.word <+: bytes) :
    24 ≤ bytes.length := by
  have hcounts : hd.counts <+: bytes :=
    (List.prefix_append _ _).trans ((List.prefix_append _ _).trans h)
  rw [← hd.length_counts]
  exact hcounts.length_le

omit har in
theorem Header.kv_prefix {hd : Header ar} {bytes : Bytes} (h : hd.word <+: bytes) :
    hd.entries.flatMap Entry.word <+: bytes.drop 24 := by
  have hrest : hd.kv <+: bytes.drop (0 + hd.counts.length) :=
    word_after ((List.prefix_append _ _).trans h)
  rwa [hd.length_counts] at hrest

theorem kvEntries_eq {m : Mmap} {hd : Header ar} (h : hd.word <+: m.bytes) :
    (hd.gguf m).kvEntries ar = .ok (hd.entries.map Entry.kvEntry) := by
  have hrun := (accepts_readKvEntry har).times hd.entries m.length_lt (Header.counts_le h)
    (Header.kv_prefix h)
  simp only [Gguf.kvEntries, Header.gguf, hrun]
  rfl

theorem tensors_walk {m : Mmap} {hd : Header ar} (h : hd.word <+: m.bytes)
    (tooMany : String → Nat → Defect) :
    (readTensor ar tooMany).times hd.tensors.length m.bytes hd.kvEnd =
      .ok (hd.tensors.map TensorInfo.indexEntry, hd.word.length) := by
  have hkv : hd.counts ++ hd.kv <+: m.bytes := (List.prefix_append _ _).trans h
  have hindex : hd.index <+: m.bytes.drop hd.kvEnd := by
    have hrest : hd.index <+: m.bytes.drop (0 + (hd.counts ++ hd.kv).length) := word_after h
    rwa [Nat.zero_add, List.length_append] at hrest
  have hlen := hkv.length_le
  rw [List.length_append] at hlen
  refine (reads_tensors har tooMany hd.tensors.length m.bytes hd.kvEnd _ _ m.length_lt hlen).mpr
    ⟨_, ⟨by simp, hd.tensors, rfl, rfl⟩, hindex, ?_⟩
  rw [Header.word, Header.kvEnd, List.length_append, List.length_append]
  rfl

end Walks

/-! The sizes of the tensors. -/

private theorem spans_eq (har : ar.Words 64) {stop : Nat} (hstop : stop < 2 ^ 64)
    {l : List (Nat × TensorIndexEntry)}
    (hsorted : (l.map fun x => x.2.dataOffsetRel).Pairwise (· ≤ ·))
    (hfits : ∀ x ∈ l, x.2.dataOffsetRel ≤ stop) :
    spans ar stop l =
      some ((l.map Prod.fst).zip (cut stop (l.map fun x => x.2.dataOffsetRel))) := by
  induction l with
  | nil => rfl
  | cons x l ih =>
      obtain ⟨i, t⟩ := x
      cases l with
      | nil =>
          have ht := hfits (i, t) List.mem_cons_self
          rw [spans, har.difference _ _ ht hstop]
          rfl
      | cons y l =>
          obtain ⟨j, u⟩ := y
          have hle : t.dataOffsetRel ≤ u.dataOffsetRel :=
            List.rel_of_pairwise_cons hsorted List.mem_cons_self
          have hu : u.dataOffsetRel ≤ stop :=
            hfits (j, u) (List.mem_cons_of_mem _ List.mem_cons_self)
          rw [spans, har.difference _ _ hle (hu.trans_lt hstop),
            ih hsorted.of_cons fun x hx => hfits x (List.mem_cons_of_mem _ hx)]
          rfl

private theorem spans_checked {stop : Nat} {l : List (Nat × TensorIndexEntry)}
    (hsorted : (l.map fun x => x.2.dataOffsetRel).Pairwise (· ≤ ·))
    (hlate : ∃ x ∈ l, stop < x.2.dataOffsetRel) : spans (.trapping 64) stop l = none := by
  induction l with
  | nil =>
      obtain ⟨x, hx, -⟩ := hlate
      cases hx
  | cons x l ih =>
      obtain ⟨i, t⟩ := x
      cases l with
      | nil =>
          obtain ⟨x, hx, hlt⟩ := hlate
          obtain rfl := List.mem_singleton.mp hx
          have hnone : (Arith.trapping 64).sub stop t.dataOffsetRel = none :=
            if_neg (Nat.not_le.mpr hlt)
          rw [spans, hnone]
          rfl
      | cons y l =>
          obtain ⟨j, u⟩ := y
          have hle : t.dataOffsetRel ≤ u.dataOffsetRel :=
            List.rel_of_pairwise_cons hsorted List.mem_cons_self
          have hrest : ∃ x ∈ (j, u) :: l, stop < x.2.dataOffsetRel := by
            obtain ⟨x, hx, hlt⟩ := hlate
            rcases List.mem_cons.mp hx with rfl | hx
            · exact ⟨(j, u), List.mem_cons_self, hlt.trans_le hle⟩
            · exact ⟨x, hx, hlt⟩
          have hdiff : (Arith.trapping 64).sub u.dataOffsetRel t.dataOffsetRel =
              some (u.dataOffsetRel - t.dataOffsetRel) := if_pos hle
          rw [spans, hdiff, ih hsorted.of_cons hrest]
          rfl

private theorem foldl_setSize {sizes : List (Nat × Nat)} (hnodup : (sizes.map Prod.fst).Nodup)
    (ts : List TensorIndexEntry) (k : Nat) :
    (sizes.foldl (fun ts (i, n) => setSize ts i n) ts)[k]? =
      ts[k]?.map fun t => { t with nBytes := (sizes.lookup k).getD t.nBytes } := by
  induction sizes generalizing ts with
  | nil => simp
  | cons size sizes ih =>
      obtain ⟨i, n⟩ := size
      rw [List.map_cons, List.nodup_cons] at hnodup
      change (sizes.foldl (fun ts (i, n) => setSize ts i n) (setSize ts i n))[k]? = _
      rw [ih hnodup.2, setSize, List.getElem?_modify, List.lookup_cons]
      cases hget : ts[k]? with
      | none => rfl
      | some t =>
          simp only [Option.map_eq_map, Option.map_some, Option.some.injEq]
          by_cases hik : i = k
          · subst hik
            have hnone : sizes.lookup i = none := by
              rw [List.lookup_eq_none_iff]
              intro p hp
              have hne : p.1 ≠ i := fun h => hnodup.1 (List.mem_map.mpr ⟨p, hp, h⟩)
              simpa using hne.symm
            rw [if_pos rfl, hnone, BEq.rfl]
            rfl
          · have hne : (k == i) = false := by simpa using Ne.symm hik
            rw [if_neg hik, hne]

private theorem lookup_of_mem {sizes : List (Nat × Nat)} (hnodup : (sizes.map Prod.fst).Nodup)
    {k n : Nat} (hmem : (k, n) ∈ sizes) : sizes.lookup k = some n := by
  induction sizes with
  | nil => cases hmem
  | cons size sizes ih =>
      rw [List.map_cons, List.nodup_cons] at hnodup
      rcases List.mem_cons.mp hmem with rfl | hmem
      · exact List.lookup_cons_self
      · have hne : k ≠ size.1 := fun h => hnodup.1 (List.mem_map.mpr ⟨(k, n), hmem, h⟩)
        have hbeq : (k == size.1) = false := by simpa using hne
        rw [List.lookup_cons, hbeq]
        exact ih hnodup.2 hmem

/-- Where a tensor's bytes begin in the tensor data, and how many they are. -/
def TensorIndexEntry.extent (t : TensorIndexEntry) : Nat × Nat := (t.dataOffsetRel, t.nBytes)

/-- The entries of the index with sizes by which, in some order, they cover the tensor data from
the lowest offset on. -/
structure Measured (stop : Nat) (index out : List TensorIndexEntry) : Prop where
  same : out.map (fun t => { t with nBytes := 0 }) = index
  tiles : out = [] ∨ ∃ lo pieces, (out.map TensorIndexEntry.extent).Perm pieces ∧
    Tiles lo pieces stop

namespace Measured

variable {stop : Nat} {index out : List TensorIndexEntry}

theorem within (h : Measured stop index out) {t : TensorIndexEntry} (ht : t ∈ out) :
    t.dataOffsetRel + t.nBytes ≤ stop := by
  rcases h.tiles with rfl | ⟨lo, pieces, hperm, htiles⟩
  · cases ht
  · exact (htiles.within (hperm.subset (List.mem_map_of_mem ht))).2

theorem covers (h : Measured stop index out) {p : Nat}
    (hlow : ∃ t ∈ out, t.dataOffsetRel ≤ p) (hp : p < stop) :
    ∃ t ∈ out, t.dataOffsetRel ≤ p ∧ p < t.dataOffsetRel + t.nBytes := by
  obtain ⟨t, ht, hle⟩ := hlow
  rcases h.tiles with rfl | ⟨lo, pieces, hperm, htiles⟩
  · cases ht
  · have hlo := (htiles.within (hperm.subset (List.mem_map_of_mem ht))).1
    obtain ⟨a, n, hmem, ha⟩ := htiles.covers (hlo.trans hle) hp
    obtain ⟨u, hu, heq⟩ := List.mem_map.mp (hperm.symm.subset hmem)
    obtain ⟨rfl, rfl⟩ := Prod.mk.inj heq
    exact ⟨u, hu, ha⟩

theorem total (h : Measured stop index out) : (out.map TensorIndexEntry.nBytes).sum ≤ stop := by
  rcases h.tiles with rfl | ⟨lo, pieces, hperm, htiles⟩
  · exact Nat.zero_le _
  · have hsum := (hperm.map Prod.snd).sum_eq
    rw [List.map_map] at hsum
    have hle := htiles.sum
    have heq : (out.map TensorIndexEntry.nBytes).sum = (pieces.map Prod.snd).sum := hsum
    omega

end Measured

/-- The sizes that a list of pairwise different indices gets, put back in the order of the file. -/
private theorem measured_of_sorted {stop : Nat} {index : List TensorIndexEntry}
    (hzero : ∀ t ∈ index, t.nBytes = 0) {l : List (Nat × TensorIndexEntry)}
    (hperm : l.Perm (index.zipIdx.map fun (t, i) => (i, t)))
    (hsorted : (l.map fun x => x.2.dataOffsetRel).Pairwise (· ≤ ·))
    (hfits : ∀ t ∈ index, t.dataOffsetRel ≤ stop) :
    Measured stop index
      (((l.map Prod.fst).zip (cut stop (l.map fun x => x.2.dataOffsetRel))).foldl
        (fun ts (i, n) => setSize ts i n) index) := by
  set starts := l.map fun x => x.2.dataOffsetRel with hstarts
  set sizes := (l.map Prod.fst).zip (cut stop starts) with hsizes
  have hlen : (cut stop starts).length = l.length := by rw [length_cut, hstarts, List.length_map]
  have hkeys : sizes.map Prod.fst = l.map Prod.fst :=
    List.map_fst_zip (by rw [hlen, List.length_map])
  have hnodup : (sizes.map Prod.fst).Nodup := by
    rw [hkeys, (hperm.map Prod.fst).nodup_iff, List.map_map]
    change (index.zipIdx.map Prod.snd).Nodup
    rw [List.zipIdx_map_snd]
    exact List.nodup_range'
  have hout : sizes.foldl (fun ts (i, n) => setSize ts i n) index = index.zipIdx.map
      fun (t, k) => { t with nBytes := (sizes.lookup k).getD t.nBytes } := by
    refine List.ext_getElem? fun k => ?_
    rw [foldl_setSize hnodup, List.getElem?_map, List.getElem?_zipIdx, Option.map_map]
    simp [Function.comp_def]
  have hpieces : l.map (fun x => (x.2.dataOffsetRel, (sizes.lookup x.1).getD x.2.nBytes)) =
      starts.zip (cut stop starts) := by
    refine List.ext_getElem (by simp [hstarts]) fun j hj hj' => ?_
    have hjl : j < l.length := by simpa using hj
    have hmem : (l[j].1, (cut stop starts)[j]) ∈ sizes := by
      refine List.mem_iff_getElem.mpr ⟨j, by simp [hsizes, hlen, hjl], ?_⟩
      simp [hsizes]
    simp [lookup_of_mem hnodup hmem, hstarts]
  rw [hout]
  constructor
  · have hfst : index.zipIdx.map (fun (t, _) => t) = index := List.zipIdx_map_fst 0 index
    rw [List.map_map]
    refine Eq.trans (List.map_congr_left fun x hx => ?_) hfst
    have hx0 := hzero x.1 (List.fst_mem_of_mem_zipIdx hx)
    obtain ⟨⟨name, shape, dtype, rel, n⟩, k⟩ := x
    obtain rfl : n = 0 := hx0
    rfl
  · cases hl : l with
    | nil =>
        rw [hl] at hperm
        have hnil : index.zipIdx = [] := List.map_eq_nil_iff.mp (List.nil_perm.mp hperm)
        exact .inl (by rw [hnil]; rfl)
    | cons x rest =>
        refine .inr ⟨x.2.dataOffsetRel, starts.zip (cut stop starts), ?_, ?_⟩
        · rw [← hpieces, List.map_map]
          refine List.Perm.trans ?_ (hperm.symm.map _)
          rw [List.map_map]
          exact List.Perm.refl _
        · have hle : ∀ a ∈ starts, a ≤ stop := by
            intro a ha
            obtain ⟨y, hy, rfl⟩ := List.mem_map.mp ha
            obtain ⟨⟨t, i⟩, ht, rfl⟩ := List.mem_map.mp (hperm.subset hy)
            exact hfits t (List.fst_mem_of_mem_zipIdx ht)
          have hcons : starts = x.2.dataOffsetRel :: rest.map fun x => x.2.dataOffsetRel := by
            rw [hstarts, hl, List.map_cons]
          rw [hcons] at hsorted hle ⊢
          exact tiles_cut hsorted hle

/-- The entries with their indices, in the order in which the tensors lie in the file. -/
def sortedIndex (index : List TensorIndexEntry) : List (Nat × TensorIndexEntry) :=
  (index.zipIdx.map fun (t, i) => (i, t)).mergeSort
    fun a b => decide (a.2.dataOffsetRel ≤ b.2.dataOffsetRel)

private theorem sortedIndex_spec (index : List TensorIndexEntry) :
    (sortedIndex index).Perm (index.zipIdx.map fun (t, i) => (i, t)) ∧
      ((sortedIndex index).map fun x => x.2.dataOffsetRel).Pairwise (· ≤ ·) := by
  refine ⟨List.mergeSort_perm _ _, ?_⟩
  let before (a b : Nat × TensorIndexEntry) : Bool :=
    decide (a.2.dataOffsetRel ≤ b.2.dataOffsetRel)
  have htrans : ∀ a b c, before a b = true → before b c = true → before a c = true := by
    intro a b c hab hbc
    simp only [before, decide_eq_true_eq] at *
    omega
  have htotal : ∀ a b, (before a b || before b a) = true := by
    intro a b
    simp only [before, Bool.or_eq_true, decide_eq_true_eq]
    omega
  have hsorted := List.pairwise_mergeSort htrans htotal (index.zipIdx.map fun (t, i) => (i, t))
  rw [List.pairwise_map]
  exact hsorted.imp fun h => of_decide_eq_true h

private theorem mem_sortedIndex {index : List TensorIndexEntry} {x : Nat × TensorIndexEntry}
    (h : x ∈ sortedIndex index) : x.2 ∈ index := by
  obtain ⟨⟨t, i⟩, ht, rfl⟩ := List.mem_map.mp ((sortedIndex_spec index).1.subset h)
  exact List.fst_mem_of_mem_zipIdx ht

private theorem map_setSizes {β : Type} {f : TensorIndexEntry → β}
    (hf : ∀ t n, f { t with nBytes := n } = f t) (sizes : List (Nat × Nat))
    (ts : List TensorIndexEntry) :
    (sizes.foldl (fun ts (i, n) => setSize ts i n) ts).map f = ts.map f := by
  induction sizes generalizing ts with
  | nil => rfl
  | cons size sizes ih =>
      rw [List.foldl_cons, ih]
      apply List.ext_getElem?
      intro k
      simp only [setSize, List.getElem?_map, List.getElem?_modify]
      cases ts[k]? with
      | none => rfl
      | some t =>
          simp only [Option.map_eq_map, Option.map_some]
          split
          · rw [hf]
          · rfl

theorem tensors_run (har : ar.Words 64) {m : Mmap} {hd : Header ar}
    (h : hd.word <+: m.bytes) :
    (hd.gguf m).tensors ar =
      match ar.sub m.bytes.length (hd.gguf m).tensorDataOffset with
      | none => .error .panicked
      | some stop =>
          match spans ar stop (sortedIndex (hd.tensors.map TensorInfo.indexEntry)) with
          | none => .error .panicked
          | some sizes => .ok (sizes.foldl (fun ts (i, n) => setSize ts i n)
              (hd.tensors.map TensorInfo.indexEntry)) := by
  have hwalk := tensors_walk har h .tooManyDimsOf
  change ((readTensor ar .tooManyDimsOf).times hd.tensors.length m.bytes hd.kvEnd >>= _) = _
  rw [hwalk]
  rfl

theorem tensors_map (har : ar.Words 64) {m : Mmap} {hd : Header ar} (h : hd.word <+: m.bytes)
    {ts : List TensorIndexEntry} (hts : (hd.gguf m).tensors ar = .ok ts) {β : Type}
    {f : TensorIndexEntry → β} (hf : ∀ t n, f { t with nBytes := n } = f t) :
    ts.map f = hd.tensors.map fun t => f t.indexEntry := by
  rw [tensors_run har h] at hts
  split at hts
  · cases hts
  · split at hts
    · cases hts
    · rename_i sizes _
      obtain rfl := Except.ok.inj hts
      rw [map_setSizes hf, List.map_map]
      rfl

theorem tensors_measured (har : ar.Words 64) {m : Mmap} {hd : Header ar} (h : hd.word <+: m.bytes)
    (hdata : (hd.gguf m).tensorDataOffset ≤ m.bytes.length) (hfits : ∀ t ∈ hd.tensors,
      t.dataOffsetRel.toNat ≤ m.bytes.length - (hd.gguf m).tensorDataOffset) :
    ∃ out, (hd.gguf m).tensors ar = .ok out ∧
      Measured (m.bytes.length - (hd.gguf m).tensorDataOffset)
        (hd.tensors.map TensorInfo.indexEntry) out := by
  have hlen := m.length_lt
  obtain ⟨hperm, hsorted⟩ := sortedIndex_spec (hd.tensors.map TensorInfo.indexEntry)
  have hfits' : ∀ t ∈ hd.tensors.map TensorInfo.indexEntry,
      t.dataOffsetRel ≤ m.bytes.length - (hd.gguf m).tensorDataOffset := by
    intro t ht
    obtain ⟨u, hu, rfl⟩ := List.mem_map.mp ht
    exact hfits u hu
  refine ⟨_, ?_, measured_of_sorted ?_ hperm hsorted hfits'⟩
  · have hspans := spans_eq har (by omega) hsorted fun x hx => hfits' _ (mem_sortedIndex hx)
    rw [tensors_run har h, har.difference _ _ hdata (by omega)]
    simp only [hspans]
  · intro t ht
    obtain ⟨u, -, rfl⟩ := List.mem_map.mp ht
    rfl

def TensorIndexEntry.sized (t : TensorIndexEntry) (n : Nat) : TensorIndexEntry :=
  { t with nBytes := n }

theorem tensors_ascending (har : ar.Words 64) {m : Mmap} {hd : Header ar} (h : hd.word <+: m.bytes)
    (hdata : (hd.gguf m).tensorDataOffset ≤ m.bytes.length)
    (hascend : (hd.tensors.map fun t => t.dataOffsetRel.toNat).Pairwise (· ≤ ·))
    (hfits : ∀ t ∈ hd.tensors,
      t.dataOffsetRel.toNat ≤ m.bytes.length - (hd.gguf m).tensorDataOffset) :
    (hd.gguf m).tensors ar = .ok (List.zipWith TensorIndexEntry.sized
      (hd.tensors.map TensorInfo.indexEntry)
      (cut (m.bytes.length - (hd.gguf m).tensorDataOffset)
        (hd.tensors.map fun t => t.dataOffsetRel.toNat))) := by
  have hlen := m.length_lt
  set stop := m.bytes.length - (hd.gguf m).tensorDataOffset with hstop
  set index := hd.tensors.map TensorInfo.indexEntry with hindex
  set offsets := hd.tensors.map fun t => t.dataOffsetRel.toNat with hoffsets
  set entries := index.zipIdx.map fun (t, i) => (i, t) with hentries
  have hrels : entries.map (fun x => x.2.dataOffsetRel) = offsets := by
    have hfst := congrArg (List.map TensorIndexEntry.dataOffsetRel) (List.zipIdx_map_fst 0 index)
    rw [List.map_map, hindex, List.map_map, ← hindex] at hfst
    rw [hentries, List.map_map]
    exact hfst
  have hsorted : sortedIndex index = entries := by
    apply List.mergeSort_of_pairwise
    rw [← hrels, List.pairwise_map] at hascend
    exact hascend.imp fun hle => decide_eq_true hle
  have hspans :
    spans ar stop entries = some ((List.range' 0 index.length).zip (cut stop offsets)) := by
    rw [spans_eq har (by omega) (hrels ▸ hascend), hrels]
    · congr 2
      rw [hentries, List.map_map]
      change index.zipIdx.map Prod.snd = _
      rw [List.zipIdx_map_snd]
    · intro x hx
      obtain ⟨⟨t, i⟩, ht, rfl⟩ := List.mem_map.mp hx
      obtain ⟨u, hu, rfl⟩ := List.mem_map.mp (List.fst_mem_of_mem_zipIdx ht)
      exact hfits u hu
  rw [tensors_run har h, har.difference _ _ hdata (by omega)]
  simp only [← hstop, ← hindex, hsorted, hspans]
  have hcut : (cut stop offsets).length = index.length := by
    rw [length_cut, hoffsets, hindex, List.length_map, List.length_map]
  have hkeys : ((List.range' 0 index.length).zip (cut stop offsets)).map Prod.fst =
      List.range' 0 index.length := List.map_fst_zip (by rw [List.length_range', hcut])
  have hnodup := hkeys.symm ▸ (List.nodup_range' (s := 0) (n := index.length))
  congr 1
  refine List.ext_getElem? fun k => ?_
  rw [foldl_setSize hnodup, List.getElem?_zipWith, hindex, List.getElem?_map, ← hindex]
  cases ht : hd.tensors[k]? with
  | none => rfl
  | some t =>
      obtain ⟨hk, -⟩ := List.getElem?_eq_some_iff.mp ht
      have hk : k < index.length := by rwa [hindex, List.length_map]
      have hmem : (k, (cut stop offsets)[k]) ∈
          (List.range' 0 index.length).zip (cut stop offsets) := by
        refine List.mem_iff_getElem.mpr ⟨k, ?_, ?_⟩
        · rw [List.length_zip, List.length_range', hcut, min_self]
          exact hk
        · rw [List.getElem_zip, List.getElem_range', Nat.zero_add, Nat.one_mul]
      rw [lookup_of_mem hnodup hmem, List.getElem?_eq_getElem (hcut ▸ hk)]
      rfl

/-- Where the tensor data or a tensor of it begins after the end of the file, a build that catches
overflows panics. -/
theorem tensors_checked {m : Mmap} {hd : Header (.trapping 64)} (h : hd.word <+: m.bytes)
    (hlate : m.bytes.length < (hd.gguf m).tensorDataOffset ∨ ∃ t ∈ hd.tensors,
      m.bytes.length - (hd.gguf m).tensorDataOffset < t.dataOffsetRel.toNat) :
    (hd.gguf m).tensors (.trapping 64) = .error .panicked := by
  rw [tensors_run (Arith.words_trapping 64) h]
  by_cases hdata : m.bytes.length < (hd.gguf m).tensorDataOffset
  · have hnone : (Arith.trapping 64).sub m.bytes.length (hd.gguf m).tensorDataOffset = none :=
      if_neg (Nat.not_le.mpr hdata)
    rw [hnone]
  · have hsome : (Arith.trapping 64).sub m.bytes.length (hd.gguf m).tensorDataOffset =
        some (m.bytes.length - (hd.gguf m).tensorDataOffset) := if_pos (Nat.not_lt.mp hdata)
    obtain ⟨t, ht, hlt⟩ := hlate.resolve_left hdata
    obtain ⟨hperm, hsorted⟩ := sortedIndex_spec (hd.tensors.map TensorInfo.indexEntry)
    have hmem : t.indexEntry ∈ hd.tensors.map TensorInfo.indexEntry := List.mem_map_of_mem ht
    rw [← List.zipIdx_map_fst 0 (hd.tensors.map TensorInfo.indexEntry)] at hmem
    obtain ⟨⟨u, i⟩, hi, hu⟩ := List.mem_map.mp hmem
    have hsorted' : (i, u) ∈ sortedIndex (hd.tensors.map TensorInfo.indexEntry) :=
      hperm.symm.subset (List.mem_map.mpr ⟨(u, i), hi, rfl⟩)
    have hrel : u.dataOffsetRel = t.dataOffsetRel.toNat :=
      congrArg TensorIndexEntry.dataOffsetRel hu
    rw [hsome]
    simp only [spans_checked hsorted ⟨_, hsorted', hrel ▸ hlt⟩]

end IntelNav.ModelStore
