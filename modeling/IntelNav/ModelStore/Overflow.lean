import IntelNav.ModelStore.ChunkOutput
import IntelNav.ModelStore.GgufFaults

/-! Parsing and a dry run of the chunker in a build that catches overflows: when they panic. -/

set_option autoImplicit false
set_option relaxedAutoImplicit false

namespace IntelNav.ModelStore

open IntelNav.Reading IntelNav.Layout

/-- On the file, each walk of the reader, each slice of a returned tensor and each dry run of the
chunker comes to `Ok` or `Err`. -/
def NeverPanics (hash : Hashing) (json : ManifestJson) (m : Mmap) : Prop :=
  Gguf.open checked m ≠ .error .panicked ∧
  (∀ g, Gguf.open checked m = .ok g →
    g.kvEntries checked ≠ .error .panicked ∧ g.tensors checked ≠ .error .panicked ∧
    ∀ ts, g.tensors checked = .ok ts → ∀ t ∈ ts, g.tensorBytes checked t ≠ none) ∧
  ∀ opts files, opts.dryRun = true →
    chunkGguf checked checked32 hash json m opts files ≠ .error .panicked

/-- No length of the file passes the last word; and if the file begins with a header, then the
tensor data and each tensor begin in the file, and no tensor is of the block `u32::MAX`. -/
def Orderly (m : Mmap) : Prop :=
  (∀ s, HeaderOverlong s → ¬ s <+: m.bytes) ∧
  ∀ hd : Header checked, hd.word <+: m.bytes →
    Header.alignedUp hd.word.length hd.alignment ≤ m.bytes.length ∧
    ∀ t ∈ hd.tensors,
      t.dataOffsetRel.toNat ≤ m.bytes.length - Header.alignedUp hd.word.length hd.alignment ∧
      classifyTensor t.name.text ≠ .block 4294967295

private theorem layerRange_checked {kind : BundleKind} :
    kind.layerRange checked32 = none ↔ kind = .block 4294967295 :=
  (BundleKind.layerRange_eq_none (Arith.words_trapping 32)).trans (and_iff_left rfl)

section Header

variable {hash : Hashing} {json : ManifestJson} {m : Mmap} {hd : Header checked}

private theorem dryRun_last (h : hd.word <+: m.bytes)
    (hdata : (hd.gguf m).tensorDataOffset ≤ m.bytes.length) {out : List TensorIndexEntry}
    (hout : (hd.gguf m).tensors checked = .ok out) {t : TensorIndexEntry} (ht : t ∈ out)
    (hkind : classifyTensor t.name = .block 4294967295) {opts : ChunkerOptions}
    (hdry : opts.dryRun = true) (files : Files) :
    chunkGguf checked checked32 hash json m opts files = .error .panicked := by
  obtain ⟨d, -, hrun⟩ := chunkGguf_eq hash words_checked h hdata hout json opts files
  have hemit : emitChunks checked checked32 hash (hd.gguf m) opts
      (m.bytes.take (hd.gguf m).tensorDataOffset)
      (groups (fun t => (classifyTensor t.name).key) out) files = none :=
    emitChunks_none (layerRange_checked.mpr hkind) ht
  rw [hrun]
  simp only [chunkParsed, hdry, hemit]
  rfl

private theorem name_mem {stop : Nat} {out : List TensorIndexEntry}
    (hmeasured : Measured stop (hd.tensors.map TensorInfo.indexEntry) out) (name : String) :
    (∃ t ∈ out, t.name = name) ↔ ∃ t ∈ hd.tensors, t.name.text = name := by
  have hnames : out.map TensorIndexEntry.name = hd.tensors.map fun t => t.name.text := by
    have hsame := congrArg (List.map TensorIndexEntry.name) hmeasured.same
    rw [List.map_map, List.map_map] at hsame
    exact hsame
  have hmem : name ∈ out.map TensorIndexEntry.name ↔
      name ∈ hd.tensors.map fun t => t.name.text := by rw [hnames]
  simpa only [List.mem_map] using hmem

private theorem open_of_word (h : hd.word <+: m.bytes) :
    Gguf.open checked m = .ok (hd.gguf m) :=
  (open_iff words_checked).mpr ⟨hd, h, rfl⟩

private theorem measured_of_orderly (horderly : Orderly m) (h : hd.word <+: m.bytes) :
    ∃ out, (hd.gguf m).tensors checked = .ok out ∧
      Measured (m.bytes.length - (hd.gguf m).tensorDataOffset)
        (hd.tensors.map TensorInfo.indexEntry) out :=
  tensors_measured words_checked h (horderly.2 hd h).1 fun t ht => ((horderly.2 hd h).2 t ht).1

private theorem open_of_orderly (horderly : Orderly m) :
    Gguf.open checked m ≠ .error .panicked := by
  intro hpanic
  obtain ⟨s, hs, hpre⟩ := open_panics_iff.mp hpanic
  exact horderly.1 s hs hpre

private theorem dryRun_of_orderly (horderly : Orderly m) {opts : ChunkerOptions}
    (hdry : opts.dryRun = true) (files : Files) :
    chunkGguf checked checked32 hash json m opts files ≠ .error .panicked := by
  cases hrun : Gguf.open checked m with
  | error e =>
      cases e with
      | failed e =>
          rw [chunkGguf, hrun]
          intro hpanic
          cases hpanic
      | panicked => exact absurd hrun (open_of_orderly horderly)
  | ok g =>
      obtain ⟨hd, h, rfl⟩ := (open_iff words_checked).mp hrun
      obtain ⟨hdata, hts⟩ := horderly.2 hd h
      obtain ⟨out, hout, hmeasured⟩ := measured_of_orderly horderly h
      have hranges : ∀ t ∈ out, (classifyTensor t.name).layerRange checked32 ≠ none := by
        intro t ht hnone
        obtain ⟨u, hu, hname⟩ := (name_mem hmeasured t.name).mp ⟨t, ht, rfl⟩
        exact (hts u hu).2 (hname ▸ layerRange_checked.mp hnone)
      obtain ⟨d, hread⟩ := Option.ne_none_iff_exists'.mp
        (diagnostics_ne_none words_checked h ⟨none, none, none⟩)
      obtain ⟨n, files', hshown⟩ := chunkGguf_dryRun hash json words_checked h hdata hout
        hmeasured hranges hread hdry files
      rw [hshown]
      intro hpanic
      cases hpanic

end Header

/-- Exactly on orderly files nothing panics. -/
theorem gguf_never_panics_iff (hash : Hashing) (json : ManifestJson) (m : Mmap) :
    NeverPanics hash json m ↔ Orderly m := by
  constructor
  · rintro ⟨hopen, hwalks, hdry⟩
    refine ⟨fun s hs hpre => hopen (open_panics_iff.mpr ⟨s, hs, hpre⟩), fun hd h => ?_⟩
    have htensors := (hwalks _ (open_of_word h)).2.1
    have hdata : (hd.gguf m).tensorDataOffset ≤ m.bytes.length := by
      by_contra hlt
      exact htensors (tensors_checked h (.inl (Nat.not_le.mp hlt)))
    have hfits : ∀ t ∈ hd.tensors,
        t.dataOffsetRel.toNat ≤ m.bytes.length - (hd.gguf m).tensorDataOffset := by
      intro t ht
      by_contra hlt
      exact htensors (tensors_checked h (.inr ⟨t, ht, Nat.not_le.mp hlt⟩))
    obtain ⟨out, hout, hmeasured⟩ := tensors_measured words_checked h hdata hfits
    refine ⟨hdata, fun t ht => ⟨hfits t ht, fun hkind => ?_⟩⟩
    obtain ⟨u, hu, hname⟩ := (name_mem hmeasured t.name.text).mpr ⟨t, ht, rfl⟩
    rw [← hname] at hkind
    exact hdry ⟨[], false, true⟩ ∅ rfl (dryRun_last h hdata hout hu hkind rfl ∅)
  · intro horderly
    refine ⟨open_of_orderly horderly, fun g hg => ?_, fun opts files hdry =>
      dryRun_of_orderly horderly hdry files⟩
    obtain ⟨hd, h, rfl⟩ := (open_iff words_checked).mp hg
    obtain ⟨out, hout, hmeasured⟩ := measured_of_orderly horderly h
    rw [kvEntries_eq words_checked h, hout]
    refine ⟨by simp, by simp, ?_⟩
    rintro ts hts' t ht
    obtain rfl := Except.ok.inj hts'
    rw [Gguf.tensorBytes_eq words_checked (hmeasured.holds (horderly.2 hd h).1 ht)]
    intro hpanic
    cases hpanic

/-- A header with one KV entry whose key is as long as a word can tell. -/
def overlongKey : Mmap where
  bytes := countsWord 0 1 ++ leBytes 8 (2 ^ 64 - 1)
  length_lt := by decide +kernel

theorem overlong_key_panics :
    ¬ ∀ (hash : Hashing) (json : ManifestJson) (m : Mmap), NeverPanics hash json m := by
  intro h
  have hopen := (h ⟨id, fun _ => ""⟩ ⟨fun _ => [], fun _ => none⟩ overlongKey).1
  exact hopen rfl

end IntelNav.ModelStore
