import IntelNav.ModelStore.StitchedKv

/-! What a stitched file calls its tensors, and its KV entries as they are read. -/

set_option autoImplicit false
set_option relaxedAutoImplicit false

namespace IntelNav.ModelStore

open IntelNav.Disk IntelNav.Reading IntelNav.Layout

/-- `blk.<N>.<field>` -/
def blockTensor (n : UInt32) (field : String) : String :=
  (BundleKind.block n).name ++ "." ++ field

private theorem stripPrefix_blockTensor (n : UInt32) (field : String) :
    stripPrefix "blk.".toList (blockTensor n field).toList =
      some ((toString n.toNat).toList ++ '.' :: field.toList) := by
  have hname : (blockTensor n field).toList =
      "blk.".toList ++ ((toString n.toNat).toList ++ '.' :: field.toList) := by
    simp [blockTensor, BundleKind.name]
  rw [stripPrefix, hname, if_pos (List.prefix_append _ _), List.drop_left]

private theorem digit_ne_dot (n : UInt32) : ∀ c ∈ (toString n.toNat).toList,
    decide (c ≠ '.') = true := by
  intro c hc
  rw [Nat.toString_eq_ofList_toDigits, String.toList_ofList] at hc
  have hdigit := Nat.isDigit_of_mem_toDigits (by decide) (by decide) hc
  rw [decide_eq_true_eq]
  rintro rfl
  exact absurd hdigit (by decide)

private theorem takeWhile_block (n : UInt32) (field : List Char) :
    ((toString n.toNat).toList ++ '.' :: field).takeWhile (· ≠ '.') = (toString n.toNat).toList ∧
      ((toString n.toNat).toList ++ '.' :: field).dropWhile (· ≠ '.') = '.' :: field := by
  constructor
  · rw [List.takeWhile_append_of_pos (digit_ne_dot n), List.takeWhile_cons_of_neg (by decide),
      List.append_nil]
  · rw [List.dropWhile_append_of_pos (digit_ne_dot n), List.dropWhile_cons_of_neg (by decide)]

private theorem classifyTensor_blockTensor (n : UInt32) (field : String) :
    classifyTensor (blockTensor n field) = .block n := by
  have hembed : ¬"token_embd".toList <+: (blockTensor n field).toList := by
    simp [blockTensor, BundleKind.name]
  rw [classifyTensor, if_neg hembed]
  simp only [stripPrefix_blockTensor, (takeWhile_block n field.toList).1, parseU32_toString]

private theorem blockTensor_inj {n k : UInt32} {field field' : String}
    (h : blockTensor n field = blockTensor k field') : n = k ∧ field = field' := by
  have hkind := classifyTensor_blockTensor n field
  rw [h, classifyTensor_blockTensor] at hkind
  obtain rfl := BundleKind.block.inj hkind
  have hlist := congrArg String.toList h
  simp only [blockTensor, String.toList_append] at hlist
  exact ⟨rfl, String.toList_inj.mp (List.append_cancel_left hlist)⟩

theorem renameTensor_blockTensor {n start : UInt32} (h : start ≤ n) {field : String}
    (hfield : field ≠ "") :
    renameTensor (blockTensor n field) start = blockTensor (n - start) field := by
  obtain ⟨htake, hdrop⟩ := takeWhile_block n field.toList
  have hstart : n.toNat - start.toNat = (n - start).toNat := (UInt32.toNat_sub_of_le n start h).symm
  unfold renameTensor
  simp only [stripPrefix_blockTensor, htake, hdrop, parseU32_toString, List.drop_succ_cons,
    List.drop_zero, String.ofList_toList, if_neg hfield, hstart]
  rfl

theorem renameTensor_other {name : String} (h : ∀ n, classifyTensor name ≠ .block n)
    (start : UInt32) : renameTensor name start = name := by
  unfold renameTensor
  unfold classifyTensor at h
  cases hstrip : stripPrefix "blk.".toList name.toList with
  | none => rfl
  | some rest =>
      have hblk : "blk.".toList <+: name.toList := by
        by_contra hne
        rw [stripPrefix, if_neg hne] at hstrip
        cases hstrip
      have hembed : ¬"token_embd".toList <+: name.toList := by
        intro hembed
        have hshort := List.prefix_of_prefix_length_le hblk hembed (by decide)
        revert hshort
        decide
      simp only [if_neg hembed, hstrip] at h
      cases hparse : parseU32 (rest.takeWhile (· ≠ '.')) with
      | none => simp only [hparse]
      | some n =>
          simp only [hparse] at h
          exact absurd rfl (h n)

/-- The names of tensors in the stitched file: blocks count from the first layer of the range, other
names stay. -/
inductive StitchRange.Renames (range : StitchRange) : String → String → Prop
  | block {n : UInt32} {field : String} (h : range.start ≤ n) :
      Renames range (blockTensor n field) (blockTensor (n - range.start) field)
  | other {name : String} (h : ∀ n, classifyTensor name ≠ .block n) : Renames range name name

namespace StitchRange

variable {range : StitchRange}

private theorem renames_right {a b b' : String} (h : range.Renames a b) (h' : range.Renames a b') :
    b = b' := by
  rcases h with @⟨n, field, h⟩ | ⟨h⟩
  · generalize ha : blockTensor n field = a at h'
    rcases h' with @⟨k, field', h'⟩ | ⟨h'⟩
    · obtain ⟨rfl, rfl⟩ := blockTensor_inj ha
      rfl
    · exact absurd (ha ▸ classifyTensor_blockTensor n field) (h' n)
  · rcases h' with @⟨k, field', h'⟩ | ⟨h'⟩
    · exact absurd (classifyTensor_blockTensor k field') (h k)
    · rfl

private theorem renames_left {a a' b : String} (h : range.Renames a b) (h' : range.Renames a' b) :
    a = a' := by
  rcases h with @⟨n, field, h⟩ | ⟨h⟩
  · generalize hb : blockTensor (n - range.start) field = b at h'
    rcases h' with @⟨k, field', h'⟩ | ⟨h'⟩
    · obtain ⟨hsub, rfl⟩ := blockTensor_inj hb
      rw [(UInt32.sub_left_inj range.start).mp hsub]
    · exact absurd (hb ▸ classifyTensor_blockTensor _ field) (h' _)
  · rcases h' with @⟨k, field', h'⟩ | ⟨h'⟩
    · exact absurd (classifyTensor_blockTensor _ field') (h _)
    · rfl

theorem renames_biUnique (range : StitchRange) : Relator.BiUnique range.Renames :=
  ⟨fun _ _ _ h h' => renames_left h h', fun _ _ _ h h' => renames_right h h'⟩

end StitchRange

/-- The text of `general.architecture`. -/
def KvEntry.IsArchitecture (kv : KvEntry) : Prop :=
  kv.ty = .string ∧ kv.key = "general.architecture"

instance (kv : KvEntry) : Decidable kv.IsArchitecture :=
  inferInstanceAs (Decidable (_ ∧ _))

/-- `<arch>.block_count`, of type `u32`. -/
def KvEntry.IsBlockCount (arch : String) (kv : KvEntry) : Prop :=
  kv.key = arch ++ ".block_count" ∧ kv.ty = .u32

variable {ar : Arith}

private theorem Diagnostics.read_architecture {d d' : Diagnostics} {kv : KvEntry}
    (h : d.read ar kv = some d') :
    (kv.IsArchitecture → readGgufString ar kv.value = some d'.architecture) ∧
      (¬kv.IsArchitecture → d'.architecture = d.architecture) := by
  unfold Diagnostics.read at h
  by_cases hname : kv.ty = .string ∧ kv.key = "general.name"
  · rw [if_pos hname] at h
    obtain ⟨name, -, h⟩ := Option.bind_eq_some_iff.mp h
    obtain rfl := Option.some.inj h
    refine ⟨fun harch => ?_, fun _ => rfl⟩
    exact absurd (hname.2.symm.trans harch.2) (by decide)
  · rw [if_neg hname] at h
    by_cases harch : kv.ty = .string ∧ kv.key = "general.architecture"
    · rw [if_pos harch] at h
      obtain ⟨architecture, hread, h⟩ := Option.bind_eq_some_iff.mp h
      obtain rfl := Option.some.inj h
      exact ⟨fun _ => hread, fun hnot => absurd harch hnot⟩
    · rw [if_neg harch] at h
      refine ⟨fun hyes => absurd hyes harch, fun _ => ?_⟩
      split at h <;> rw [← Option.some.inj h]

private theorem diagnostics_other {kvs : List KvEntry} {d d' : Diagnostics}
    (h : kvs.foldlM (Diagnostics.read ar) d = some d')
    (hnone : kvs.filter (fun kv => kv.IsArchitecture) = []) :
    d'.architecture = d.architecture := by
  induction kvs generalizing d with
  | nil => rw [← Option.some.inj h]
  | cons kv kvs ih =>
      rw [List.foldlM_cons] at h
      obtain ⟨d₁, hread, h⟩ := Option.bind_eq_some_iff.mp h
      obtain ⟨hkv, hkvs⟩ := List.forall_mem_cons.mp (List.filter_eq_nil_iff.mp hnone)
      rw [ih h (List.filter_eq_nil_iff.mpr hkvs)]
      exact (Diagnostics.read_architecture hread).2 (by simpa using hkv)

theorem diagnostics_architecture {kvs : List KvEntry} {d d' : Diagnostics}
    (h : kvs.foldlM (Diagnostics.read ar) d = some d') {kv : KvEntry}
    (hone : kvs.filter (fun kv => kv.IsArchitecture) = [kv]) :
    readGgufString ar kv.value = some d'.architecture := by
  induction kvs generalizing d with
  | nil => cases hone
  | cons kv' kvs ih =>
      rw [List.foldlM_cons] at h
      obtain ⟨d₁, hread, h⟩ := Option.bind_eq_some_iff.mp h
      by_cases harch : kv'.IsArchitecture
      · rw [List.filter_cons, if_pos (decide_eq_true harch)] at hone
        obtain ⟨rfl, hnone⟩ := List.cons.inj hone
        rw [diagnostics_other h hnone]
        exact (Diagnostics.read_architecture hread).1 harch
      · rw [List.filter_cons, if_neg (by simpa using harch)] at hone
        exact ih h hone

/-- The entry of the stitched file for an entry of the model. -/
structure KeepsKv (arch : String) (range : StitchRange) (kv kv' : KvEntry) : Prop where
  key : kv'.key = kv.key
  ty : kv'.ty = kv.ty
  count : kv.IsBlockCount arch →
    ofLeBytes (kv'.value.take 4) = range.stop.toNat - range.start.toNat
  other : ¬kv.IsBlockCount arch → kv'.entry = kv.entry

theorem keepsKv_stitched (arch : String) {range : StitchRange} (hle : range.start ≤ range.stop)
    (e : Entry ar) : KeepsKv arch range e.kvEntry (e.stitched arch range).kvEntry := by
  by_cases hcount : e.key.text = arch ++ ".block_count" ∧ e.value.ty = .u32
  · have hlt := (range.stop - range.start).toNat_lt
    rw [Entry.stitched, if_pos hcount]
    refine ⟨rfl, hcount.2.symm, fun _ => ?_, fun hnot => absurd hcount hnot⟩
    change ofLeBytes ((leBytes 4 (range.stop - range.start).toNat).take 4) = _
    rw [List.take_of_length_le (length_leBytes 4 _).le, ofLeBytes_leBytes_of_lt hlt,
      UInt32.toNat_sub_of_le _ _ hle]
  · rw [Entry.stitched, if_neg hcount]
    exact ⟨rfl, rfl, fun hyes => absurd hyes hcount, fun _ => rfl⟩

private theorem blockCount_ne_alignment (arch : String) :
    arch ++ ".block_count" ≠ "general.alignment" := by
  intro h
  have hlast := congrArg (fun s => s.toList.reverse.take 3) h
  simp [String.toList_append] at hlast

private theorem alignment_stitched (arch : String) (range : StitchRange) (e : Entry ar) (al : Nat) :
    (e.stitched arch range).alignment al = e.alignment al := by
  unfold Entry.stitched
  split
  · rename_i hcount
    have hne : e.key.text ≠ "general.alignment" := by
      rw [hcount.1]
      exact blockCount_ne_alignment arch
    rw [Entry.alignment, Entry.alignment, if_neg (fun h => hne h.1), if_neg (fun h => hne h.1)]
  · rfl

theorem alignment_stitchedEntries (arch : String) (range : StitchRange) (es : List (Entry ar))
    (al : Nat) :
    (stitchedEntries arch range es).foldl Entry.alignment al = es.foldl Entry.alignment al := by
  rw [stitchedEntries, List.foldl_append, List.foldl_map]
  simp only [alignment_stitched]
  rfl

/-- The entries of the stitched file, as they are read. -/
structure KeepsTable (arch : String) (range : StitchRange) (kvs kvs' : List KvEntry) : Prop where
  entries : ∃ front flags, kvs' = front ++ flags ∧
    List.Forall₂ (KeepsKv arch range) kvs front ∧
    flags.map KvEntry.entry = [writeKvBool "intelnav.has_embed" range.includeEmbed,
      writeKvBool "intelnav.has_head" range.includeHead]
  count : ∀ kv ∈ kvs', kv.IsBlockCount arch →
    ofLeBytes (kv.value.take 4) = range.stop.toNat - range.start.toNat
  counted : ∃ kv ∈ kvs', kv.IsBlockCount arch

theorem keepsTable_stitched {arch : String} {range : StitchRange}
    (hle : range.start ≤ range.stop) {es : List (Entry ar)}
    (hcounts : ∃ kv ∈ es.map Entry.kvEntry, kv.IsBlockCount arch) :
    KeepsTable arch range (es.map Entry.kvEntry)
      ((stitchedEntries arch range es).map Entry.kvEntry) := by
  have hentries : List.Forall₂ (KeepsKv arch range) (es.map Entry.kvEntry)
      ((es.map (Entry.stitched arch range)).map Entry.kvEntry) := by
    rw [List.map_map, List.forall₂_map_left_iff, List.forall₂_map_right_iff, List.forall₂_same]
    exact fun e _ => keepsKv_stitched arch hle e
  rw [stitchedEntries, List.map_append]
  refine ⟨⟨_, _, rfl, hentries, rfl⟩, ?_, ?_⟩
  · intro kv hkv hcount
    rcases List.mem_append.mp hkv with hkv | hkv
    · rw [List.map_map] at hkv
      obtain ⟨e, -, rfl⟩ := List.mem_map.mp hkv
      have hkeeps := keepsKv_stitched arch hle e
      exact hkeeps.count ⟨hkeeps.key.symm.trans hcount.1, hkeeps.ty.symm.trans hcount.2⟩
    · -- a flag is no number
      rcases List.mem_cons.mp hkv with rfl | hkv
      · cases hcount.2
      · obtain rfl := List.mem_singleton.mp hkv
        cases hcount.2
  · obtain ⟨kv, hkv, hcount⟩ := hcounts
    obtain ⟨e, he, rfl⟩ := List.mem_map.mp hkv
    have hkeeps := keepsKv_stitched arch hle e
    refine ⟨(e.stitched arch range).kvEntry, List.mem_append_left _ ?_,
      hkeeps.key.trans hcount.1, hkeeps.ty.trans hcount.2⟩
    exact List.mem_map_of_mem (List.mem_map_of_mem he)

end IntelNav.ModelStore
