import Mathlib.Algebra.Order.BigOperators.Group.List
import Mathlib.Algebra.Order.Group.Nat
import IntelNav.ModelStore.Chunker
import IntelNav.ModelStore.GgufIndex

/-! What the stages of the chunker do with a file whose tensors all lie in it. -/

set_option autoImplicit false
set_option relaxedAutoImplicit false

namespace IntelNav.ModelStore

open IntelNav.Reading IntelNav.Layout

variable {ar ar32 : Arith} {hash : Hashing}

theorem foldlM_ne_none {σ α : Type} {f : σ → α → Option σ} {items : List α}
    (h : ∀ s, ∀ a ∈ items, f s a ≠ none) (s : σ) : items.foldlM f s ≠ none := by
  induction items generalizing s with
  | nil => exact nofun
  | cons a items ih =>
      rw [List.foldlM_cons]
      cases hstep : f s a with
      | none => exact absurd hstep (h s a List.mem_cons_self)
      | some s' => exact ih (fun s b hb => h s b (List.mem_cons_of_mem _ hb)) s'

theorem foldlM_eq_none {σ α : Type} {f : σ → α → Option σ} {items : List α}
    (h : ∃ a ∈ items, ∀ s, f s a = none) (s : σ) : items.foldlM f s = none := by
  obtain ⟨a, ha, hnone⟩ := h
  induction items generalizing s with
  | nil => cases ha
  | cons b items ih =>
      rw [List.foldlM_cons]
      rcases List.mem_cons.mp ha with rfl | ha
      · rw [hnone]
        rfl
      · cases f s b with
        | none => rfl
        | some s' => exact ih s' ha

/-! Diagnostics. -/

private theorem readGgufString_ne_none (har : ar.Words 64) {b : Blob} (h : b.word.length < 2 ^ 63) :
    readGgufString ar b.word ≠ none := by
  have hlen : b.word.length = 8 + b.bytes.length := by simp [Blob.word]
  have hcount : ofLeBytes (b.word.take 8) = b.bytes.length := by
    rw [Blob.word, List.take_append_of_le_length (by simp), List.take_of_length_le (by simp),
      ofLeBytes_leBytes_of_lt b.length_lt]
  have hsum : ar.add 8 b.bytes.length = some (8 + b.bytes.length) := har.below _ _ (by omega)
  simp only [readGgufString, hcount, hsum]
  rw [if_neg (by omega), if_neg (by omega), if_neg (by omega)]
  exact Option.some_ne_none _

theorem Diagnostics.read_ne_none (har : ar.Words 64) {m : Mmap} {hd : Header ar}
    (h : hd.word <+: m.bytes) {e : Entry ar} (he : e ∈ hd.entries) (d : Diagnostics) :
    d.read ar e.kvEntry ≠ none := by
  have hshort : e.value.word.length < 2 ^ 63 :=
    (Header.length_value_le he).trans_lt (h.length_le.trans_lt m.length_lt)
  have hstring : e.value.ty = .string → readGgufString ar e.value.word ≠ none := by
    intro hty
    cases hv : e.value with
    | scalar ty payload hs =>
        rw [hv] at hty
        obtain rfl : ty = .string := hty
        cases hs
    | string text =>
        rw [hv] at hshort
        exact readGgufString_ne_none har hshort
    | scalars ty size n payload hs hn hlen =>
        rw [hv] at hty
        cases hty
    | strings texts hn =>
        rw [hv] at hty
        cases hty
  have hkept : ∀ f : Option String → Diagnostics, e.value.ty = .string →
      (readGgufString ar e.value.word >>= fun s => some (f s)) ≠ none := by
    intro f hty hnone
    cases hread : readGgufString ar e.value.word with
    | none => exact hstring hty hread
    | some s =>
        rw [hread] at hnone
        cases hnone
  unfold Diagnostics.read
  split
  · rename_i hname
    exact hkept (fun name => { d with name }) hname.1
  · split
    · rename_i harch
      exact hkept (fun architecture => { d with architecture }) harch.1
    · split <;> exact nofun

theorem diagnostics_ne_none (har : ar.Words 64) {m : Mmap} {hd : Header ar}
    (h : hd.word <+: m.bytes) (d : Diagnostics) :
    (hd.entries.map Entry.kvEntry).foldlM (Diagnostics.read ar) d ≠ none := by
  refine foldlM_ne_none (fun d kv hkv => ?_) d
  obtain ⟨e, he, rfl⟩ := List.mem_map.mp hkv
  exact Diagnostics.read_ne_none har h he d

/-! Tensors and their bundles. -/

theorem BundleKind.layerRange_eq_none (har32 : ar32.Words 32) {kind : BundleKind} :
    kind.layerRange ar32 = none ↔ kind = .block 4294967295 ∧ ar32.add 4294967295 1 = none := by
  cases kind with
  | embed => exact ⟨nofun, fun h => nomatch h.1⟩
  | head => exact ⟨nofun, fun h => nomatch h.1⟩
  | block n =>
      have hn := n.toNat_lt
      rw [layerRange]
      by_cases hlast : n = 4294967295
      · subst hlast
        have hmax : (4294967295 : UInt32).toNat = 4294967295 := rfl
        rw [hmax]
        cases ar32.add 4294967295 1 with
        | none => exact iff_of_true rfl ⟨rfl, rfl⟩
        | some stop => exact ⟨nofun, fun h => nomatch h.2⟩
      · have hne : n.toNat ≠ (4294967295 : UInt32).toNat := fun h => hlast (UInt32.toNat_inj.mp h)
        have hlt : n.toNat + 1 < 2 ^ 32 := by
          have : (4294967295 : UInt32).toNat = 4294967295 := rfl
          omega
        rw [har32.below _ _ hlt]
        exact ⟨nofun, fun h => absurd (BundleKind.block.inj h.1) hlast⟩

def Gguf.dataOf (g : Gguf) (t : TensorIndexEntry) : Bytes :=
  (g.mmap.bytes.drop (g.tensorDataOffset + t.dataOffsetRel)).take t.nBytes

def Gguf.Holds (g : Gguf) (t : TensorIndexEntry) : Prop :=
  g.tensorDataOffset + t.dataOffsetRel + t.nBytes ≤ g.mmap.bytes.length

theorem Gguf.length_dataOf {g : Gguf} {t : TensorIndexEntry} (h : g.Holds t) :
    (g.dataOf t).length = t.nBytes := by
  have hlen : g.tensorDataOffset + t.dataOffsetRel + t.nBytes ≤ g.mmap.bytes.length := h
  rw [dataOf, List.length_take, List.length_drop]
  omega

theorem Gguf.tensorBytes_eq (har : ar.Words 64) {g : Gguf} {t : TensorIndexEntry}
    (h : g.Holds t) : g.tensorBytes ar t = some (g.dataOf t) := by
  have hlen : g.tensorDataOffset + t.dataOffsetRel + t.nBytes ≤ g.mmap.bytes.length := h
  have hlt := g.mmap.length_lt
  have hstart := har.below g.tensorDataOffset t.dataOffsetRel (by omega)
  have hstop := har.below (g.tensorDataOffset + t.dataOffsetRel) t.nBytes (by omega)
  rw [tensorBytes, hstart]
  change (ar.add (g.tensorDataOffset + t.dataOffsetRel) t.nBytes >>= _) = _
  rw [hstop]
  change g.mmap.slice (g.tensorDataOffset + t.dataOffsetRel) _ = _
  rw [Mmap.slice, if_neg (by omega), Nat.add_sub_cancel_left]
  rfl

def Gguf.member (hash : Hashing) (g : Gguf) (offset : Nat) (t : TensorIndexEntry) :
    BundleMember where
  name := t.name
  shape := t.shape
  dtype := ggmlTypeName t.dtype
  dtypeCode := t.dtype
  dataOffsetRel := t.dataOffsetRel
  cid := hash.cidStringFor (g.dataOf t)
  size := t.nBytes
  offsetInBundle := offset

def Gguf.members (hash : Hashing) (g : Gguf) : Nat → List TensorIndexEntry → List BundleMember
  | _, [] => []
  | offset, t :: ts => g.member hash offset t :: g.members hash (offset + t.nBytes) ts

variable (hash) in
theorem foldlM_draft (har : ar.Words 64) {g : Gguf} {ts : List TensorIndexEntry}
    (hts : ∀ t ∈ ts, g.Holds t) {d : Draft}
    (hsize : d.size + (ts.map TensorIndexEntry.nBytes).sum < 2 ^ 64) :
    ts.foldlM (Draft.add ar hash g) d =
      some { bytes := d.bytes ++ ts.flatMap g.dataOf
             size := d.size + (ts.map TensorIndexEntry.nBytes).sum
             members := d.members ++ g.members hash d.size ts } := by
  induction ts generalizing d with
  | nil => simp [Gguf.members]
  | cons t ts ih =>
      have ht := hts t List.mem_cons_self
      rw [List.map_cons, List.sum_cons] at hsize
      have hadd : d.add ar hash g t = some { bytes := d.bytes ++ g.dataOf t
                                             size := d.size + t.nBytes
                                             members :=
                                               d.members ++ [g.member hash d.size t] } := by
        rw [Draft.add, Gguf.tensorBytes_eq har ht]
        change (ar.add d.size (g.dataOf t).length >>= _) = _
        rw [Gguf.length_dataOf ht, har.below _ _ (by omega)]
        rfl
      have hrest := ih (fun u hu => hts u (List.mem_cons_of_mem _ hu))
        (d := { bytes := d.bytes ++ g.dataOf t, size := d.size + t.nBytes
                members := d.members ++ [g.member hash d.size t] }) (by
          show d.size + t.nBytes + _ < 2 ^ 64
          omega)
      rw [List.foldlM_cons, hadd]
      refine hrest.trans ?_
      simp [Gguf.members, Nat.add_assoc]

variable (hash) in
theorem chunkGguf_eq (har : ar.Words 64) {m : Mmap} {hd : Header ar} (h : hd.word <+: m.bytes)
    (hdata : (hd.gguf m).tensorDataOffset ≤ m.bytes.length) {out : List TensorIndexEntry}
    (hout : (hd.gguf m).tensors ar = .ok out) (json : ManifestJson) (opts : ChunkerOptions)
    (files : Files) :
    ∃ d, (hd.entries.map Entry.kvEntry).foldlM (Diagnostics.read ar) ⟨none, none, none⟩ = some d ∧
      chunkGguf ar ar32 hash json m opts files =
        chunkParsed ar ar32 hash json (hd.gguf m) d out
          (m.bytes.take (hd.gguf m).tensorDataOffset) opts files := by
  have hopen := (open_iff har).mpr ⟨hd, h, rfl⟩
  have hslice : m.slice 0 (hd.gguf m).tensorDataOffset =
      some (m.bytes.take (hd.gguf m).tensorDataOffset) := by
    rw [Mmap.slice, if_neg (by omega)]
    rfl
  cases hd' : (hd.entries.map Entry.kvEntry).foldlM (Diagnostics.read ar) ⟨none, none, none⟩ with
  | none => exact absurd hd' (diagnostics_ne_none har h _)
  | some d =>
      refine ⟨d, rfl, ?_⟩
      rw [chunkGguf, hopen]
      change (ofGguf ((hd.gguf m).kvEntries ar) >>= _) = _
      rw [kvEntries_eq har h]
      change (ofPanic ((hd.entries.map Entry.kvEntry).foldlM (Diagnostics.read ar)
        ⟨none, none, none⟩) >>= _) = _
      rw [hd']
      change (ofGguf ((hd.gguf m).tensors ar) >>= _) = _
      rw [hout]
      change (ofPanic (m.slice 0 (hd.gguf m).tensorDataOffset) >>= _) = _
      rw [hslice]
      rfl

theorem Measured.holds {m : Mmap} {hd : Header ar} {out : List TensorIndexEntry}
    {index : List TensorIndexEntry} (hdata : (hd.gguf m).tensorDataOffset ≤ m.bytes.length)
    (h : Measured (m.bytes.length - (hd.gguf m).tensorDataOffset) index out)
    {t : TensorIndexEntry} (ht : t ∈ out) : (hd.gguf m).Holds t := by
  have hwithin := h.within ht
  change (hd.gguf m).tensorDataOffset + t.dataOffsetRel + t.nBytes ≤ m.bytes.length
  omega

theorem Measured.sum_group {stop : Nat} {index out : List TensorIndexEntry}
    (h : Measured stop index out) {key : BundleKey} {ts : List TensorIndexEntry}
    (hmem : (key, ts) ∈ groups (fun t => (classifyTensor t.name).key) out) :
    (ts.map TensorIndexEntry.nBytes).sum ≤ stop := by
  have heq :=
    (grouped_groups (fun t : TensorIndexEntry => (classifyTensor t.name).key) out).items_eq
    key ts hmem
  have hsub : ts.Sublist out := heq ▸ List.filter_sublist
  exact ((hsub.map _).sum_le_sum (fun _ _ => Nat.zero_le _)).trans h.total

end IntelNav.ModelStore
