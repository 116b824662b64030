import IntelNav.ModelStore.ChunkerSpec
import IntelNav.ModelStore.HttpSpec
import IntelNav.ModelStore.PrettyJson
import IntelNav.ModelStore.SplitFiles

/-! What the chunker leaves in a fresh directory: every byte of the tensor data once, and files that
verify. -/

set_option autoImplicit false
set_option relaxedAutoImplicit false

namespace IntelNav.ModelStore

open IntelNav.Reading IntelNav.Layout IntelNav.Text.Json

theorem layerRange_release (kind : BundleKind) : kind.layerRange release32 ≠ none := by
  cases kind <;> exact nofun

variable {ar ar32 : Arith} {hash : Hashing} {g : Gguf}

/-! The loop over the bundles. -/

def Emitted.Sound (hash : Hashing) (dir : Location) (e : Emitted) : Prop :=
  ∀ cid ∈ e.writtenCids, ∃ bytes, e.files.lookup (chunkLocation dir cid) = some bytes ∧
    hash.cidStringFor bytes = cid

def Gguf.bundle (ar32 : Arith) (hash : Hashing) (g : Gguf) (kind : BundleKind)
    (ts : List TensorIndexEntry) : BundleEntry where
  name := kind.name
  layerRange := (kind.layerRange ar32).getD none
  cid := hash.cidStringFor (ts.flatMap g.dataOf)
  size := (ts.map TensorIndexEntry.nBytes).sum
  members := g.members hash 0 ts

theorem Emitted.Sound.store {ar : Arith} {e e' : Emitted} {opts : ChunkerOptions}
    {kind : BundleKind} {d : Draft} (h : e.Sound hash opts.outputDir)
    (hs : e.store ar hash opts kind d = some e') : e'.Sound hash opts.outputDir := by
  intro cid hcid
  rcases Emitted.lookup_store hs hcid with ⟨hold, hlookup⟩ | ⟨rfl, hlookup⟩
  · obtain ⟨bytes, hbytes, hhash⟩ := h cid hold
    exact ⟨bytes, hlookup.trans hbytes, hhash⟩
  · exact ⟨d.bytes, hlookup, rfl⟩

variable (hash) in
private theorem Emitted.store_some (har : ar.Words 64) {e : Emitted} {d : Draft}
    (hroom : e.bytesWritten + d.size < 2 ^ 64) (opts : ChunkerOptions) (kind : BundleKind) :
    ∃ e', e.store ar hash opts kind d = some e' ∧
      e'.bytesWritten ≤ e.bytesWritten + d.size := by
  unfold Emitted.store
  dsimp only
  split
  · exact ⟨_, rfl, Nat.le_add_right _ _⟩
  · rw [har.below _ _ hroom]
    exact ⟨_, rfl, le_refl _⟩

/-- What the bundles of the kinds add to what the loop carries. -/
structure Emitted.Adds (ar32 : Arith) (hash : Hashing) (g : Gguf) (opts : ChunkerOptions)
    (e e' : Emitted) (kinds : List (BundleKind × List TensorIndexEntry)) : Prop where
  bundles : e'.bundles = e.bundles ++ kinds.map fun k => g.bundle ar32 hash k.1 k.2
  bytesWritten : e'.bytesWritten ≤ e.bytesWritten +
    (kinds.map fun k => (k.2.map TensorIndexEntry.nBytes).sum).sum
  kept : ∀ cid ∈ e.writtenCids, cid ∈ e'.writtenCids
  sound : opts.dryRun = false → e.Sound hash opts.outputDir → e'.Sound hash opts.outputDir
  stored : opts.dryRun = false →
    ∀ k ∈ kinds, hash.cidStringFor (k.2.flatMap g.dataOf) ∈ e'.writtenCids

theorem Emitted.Adds.cons {opts : ChunkerOptions} {e e₁ e₂ : Emitted}
    {k : BundleKind × List TensorIndexEntry} {kinds : List (BundleKind × List TensorIndexEntry)}
    (h₁ : e.Adds ar32 hash g opts e₁ [k]) (h₂ : e₁.Adds ar32 hash g opts e₂ kinds) :
    e.Adds ar32 hash g opts e₂ (k :: kinds) where
  bundles := by
    rw [h₂.bundles, h₁.bundles, List.append_assoc]
    rfl
  bytesWritten := by
    have hfirst := h₁.bytesWritten
    have hrest := h₂.bytesWritten
    rw [List.map_singleton, List.sum_singleton] at hfirst
    rw [List.map_cons, List.sum_cons]
    omega
  kept cid h := h₂.kept cid (h₁.kept cid h)
  sound hdry h := h₂.sound hdry (h₁.sound hdry h)
  stored hdry k' hk' := by
    rcases List.mem_cons.mp hk' with rfl | hk'
    · exact h₂.kept _ (h₁.stored hdry _ List.mem_cons_self)
    · exact h₂.stored hdry k' hk'

variable (hash) in
private theorem emitBundle_adds (har : ar.Words 64) (opts : ChunkerOptions) {e : Emitted}
    {kind : BundleKind} (hrange : kind.layerRange ar32 ≠ none) {ts : List TensorIndexEntry}
    (hts : ∀ t ∈ ts, g.Holds t)
    (hroom : e.bytesWritten + (ts.map TensorIndexEntry.nBytes).sum < 2 ^ 64) :
    ∃ e', emitBundle ar ar32 hash g opts e (kind.key, ts) = some e' ∧
      e.Adds ar32 hash g opts e' [(kind, ts)] := by
  obtain ⟨range, hrange⟩ := Option.ne_none_iff_exists'.mp hrange
  have hdraft := foldlM_draft hash har hts (d := ⟨[], 0, []⟩) (by
    rw [Nat.zero_add]
    omega)
  rw [List.nil_append, Nat.zero_add, List.nil_append] at hdraft
  have hentry : g.bundle ar32 hash kind ts =
      { name := kind.name, layerRange := range, cid := hash.cidStringFor (ts.flatMap g.dataOf)
        size := (ts.map TensorIndexEntry.nBytes).sum, members := g.members hash 0 ts } := by
    rw [Gguf.bundle, hrange]
    rfl
  by_cases hdry : opts.dryRun = true
  · have hwet : ¬ opts.dryRun = false := by rw [hdry]; decide
    refine ⟨{ e with bundles := e.bundles ++ [g.bundle ar32 hash kind ts] }, ?_, rfl,
      Nat.le_add_right _ _, fun _ h => h, fun h => absurd h hwet, fun h => absurd h hwet⟩
    simp only [emitBundle, BundleKind.toKind_key, hdraft, hdry, hrange, hentry]
    rfl
  · obtain ⟨e', hstore, hwritten⟩ := Emitted.store_some hash har (e := e)
      (d := ⟨ts.flatMap g.dataOf, (ts.map TensorIndexEntry.nBytes).sum, g.members hash 0 ts⟩)
      hroom opts kind
    obtain ⟨hcid, hmono⟩ := Emitted.writtenCids_store hstore
    refine ⟨{ e' with bundles := e'.bundles ++ [g.bundle ar32 hash kind ts] }, ?_, ?_, ?_, hmono,
      fun _ hsound cid hcid => hsound.store hstore cid hcid, ?_⟩
    · simp only [emitBundle, BundleKind.toKind_key, hdraft, hdry, hrange, hentry]
      change (e.store ar hash opts kind _ >>= _) = _
      rw [hstore]
      rfl
    · rw [Emitted.bundles_store hstore]
      rfl
    · rwa [List.map_singleton, List.sum_singleton]
    · intro _ k hk
      obtain rfl := List.mem_singleton.mp hk
      exact hcid

variable (hash) in
private theorem emitBundles_adds (har : ar.Words 64) (opts : ChunkerOptions)
    {kinds : List (BundleKind × List TensorIndexEntry)}
    (hkinds : ∀ k ∈ kinds, k.1.layerRange ar32 ≠ none ∧ ∀ t ∈ k.2, g.Holds t) {e : Emitted}
    (hroom : e.bytesWritten + (kinds.map fun k => (k.2.map TensorIndexEntry.nBytes).sum).sum <
      2 ^ 64) :
    ∃ e', (kinds.map fun k => (k.1.key, k.2)).foldlM (emitBundle ar ar32 hash g opts) e =
        some e' ∧
      e.Adds ar32 hash g opts e' kinds := by
  induction kinds generalizing e with
  | nil =>
      exact ⟨e, rfl, (List.append_nil _).symm, le_refl _, fun _ h => h, fun _ h => h,
        fun _ => nofun⟩
  | cons k kinds ih =>
      obtain ⟨hrange, hholds⟩ := hkinds k List.mem_cons_self
      rw [List.map_cons, List.sum_cons] at hroom
      obtain ⟨e₁, hrun₁, hadds₁⟩ :=
        emitBundle_adds hash har opts hrange hholds (e := e) (by omega)
      have hfirst : e₁.bytesWritten ≤ e.bytesWritten + (k.2.map TensorIndexEntry.nBytes).sum := by
        simpa using hadds₁.bytesWritten
      obtain ⟨e₂, hrun₂, hadds₂⟩ := ih (fun k' hk' => hkinds k' (List.mem_cons_of_mem _ hk'))
        (e := e₁) (by omega)
      refine ⟨e₂, ?_, hadds₁.cons hadds₂⟩
      rw [List.map_cons, List.foldlM_cons, hrun₁]
      exact hrun₂

private theorem emitBundle_none {opts : ChunkerOptions} {kind : BundleKind}
    (hrange : kind.layerRange ar32 = none) (ts : List TensorIndexEntry) (e : Emitted) :
    emitBundle ar ar32 hash g opts e (kind.key, ts) = none := by
  cases h : emitBundle ar ar32 hash g opts e (kind.key, ts) with
  | none => rfl
  | some e' =>
      unfold emitBundle at h
      obtain ⟨d, -, h⟩ := Option.bind_eq_some_iff.mp h
      by_cases hdry : opts.dryRun = true
      all_goals
        simp only [hdry, if_true, Bool.false_eq_true, if_false] at h
        obtain ⟨stored, -, h⟩ := Option.bind_eq_some_iff.mp h
        obtain ⟨range, hsome, -⟩ := Option.bind_eq_some_iff.mp h
        rw [BundleKind.toKind_key, hrange] at hsome
        cases hsome

private theorem emitChunks_foldlM {opts : ChunkerOptions} {header : Bytes}
    {groups : List (BundleKey × List TensorIndexEntry)} {files : Files} {e : Emitted}
    (h : emitChunks ar ar32 hash g opts header groups files = some e) :
    ∃ start, groups.foldlM (emitBundle ar ar32 hash g opts) start = some e := by
  unfold emitChunks at h
  by_cases hdry : opts.dryRun = true
  · simp only [hdry, if_true] at h
    obtain ⟨start, -, h⟩ := Option.bind_eq_some_iff.mp h
    exact ⟨start, h⟩
  · simp only [hdry] at h
    obtain ⟨bytesWritten, -, h⟩ := Option.bind_eq_some_iff.mp h
    obtain ⟨start, -, h⟩ := Option.bind_eq_some_iff.mp h
    exact ⟨start, h⟩

theorem emitChunks_none {t : TensorIndexEntry}
    (hrange : (classifyTensor t.name).layerRange ar32 = none) {ts : List TensorIndexEntry}
    (ht : t ∈ ts) {opts : ChunkerOptions} {header : Bytes} {files : Files} :
    emitChunks ar ar32 hash g opts header (groups (fun t => (classifyTensor t.name).key) ts) files =
      none := by
  have hgrouped := grouped_groups (fun t : TensorIndexEntry => (classifyTensor t.name).key) ts
  obtain ⟨group, hgroup, hkey⟩ := List.mem_map.mp (hgrouped.all t ht)
  have hfold : ∀ start : Emitted, (groups (fun t => (classifyTensor t.name).key) ts).foldlM
      (emitBundle ar ar32 hash g opts) start = none := by
    apply foldlM_eq_none
    refine ⟨group, hgroup, fun e => ?_⟩
    have hnone : emitBundle ar ar32 hash g opts e ((classifyTensor t.name).key, group.2) = none :=
      emitBundle_none hrange group.2 e
    rwa [← hkey] at hnone
  cases h : emitChunks ar ar32 hash g opts header
      (groups (fun t => (classifyTensor t.name).key) ts) files with
  | none => rfl
  | some e =>
      obtain ⟨start, hrun⟩ := emitChunks_foldlM h
      rw [hfold start] at hrun
      cases hrun

theorem writeChunk_sound (files : Files) (dir : Location) (header : Bytes) (n : Nat) :
    Emitted.Sound hash dir ⟨writeChunk files dir (hash.cidStringFor header) header,
      [hash.cidStringFor header], n, []⟩ := by
  intro cid hcid
  obtain rfl := List.mem_singleton.mp hcid
  exact ⟨header, (lookup_renameFile _ _ _ header).1, rfl⟩

theorem Emitted.Sound.lookup {e : Emitted} {dir : Location} (hsound : e.Sound hash dir)
    (hinj : Function.Injective hash.cidStringFor) {bytes : Bytes}
    (hcid : hash.cidStringFor bytes ∈ e.writtenCids) :
    e.files.lookup (chunkLocation dir (hash.cidStringFor bytes)) = some bytes := by
  obtain ⟨bytes', hlookup, hhash⟩ := hsound _ hcid
  rw [hlookup, hinj hhash]

/-! Members of a bundle. -/

variable (hash g) in
private theorem members_tile (offset : Nat) (ts : List TensorIndexEntry) :
    Tiles offset ((g.members hash offset ts).map fun b => (b.offsetInBundle, b.size))
      (offset + (ts.map TensorIndexEntry.nBytes).sum) := by
  induction ts generalizing offset with
  | nil => rfl
  | cons t ts ih =>
      refine ⟨rfl, ?_⟩
      have hrest := ih (offset + t.nBytes)
      rwa [Nat.add_assoc, ← List.sum_cons, ← List.map_cons] at hrest

/-- A member's place in the file and its bytes, cut out of its bundle. -/
def BundleMember.piece (data : Nat) (bundle : Bytes) (b : BundleMember) : Nat × Bytes :=
  (data + b.dataOffsetRel, (bundle.drop b.offsetInBundle).take b.size)

private theorem members_pieces (data : Nat) {ts : List TensorIndexEntry} (hts : ∀ t ∈ ts, g.Holds t)
    (before : Bytes) :
    (g.members hash before.length ts).map
        (BundleMember.piece data (before ++ ts.flatMap g.dataOf)) =
      ts.map fun t => (data + t.dataOffsetRel, g.dataOf t) := by
  induction ts generalizing before with
  | nil => rfl
  | cons t ts ih =>
      have ht := Gguf.length_dataOf (hts t List.mem_cons_self)
      have hrest := ih (fun u hu => hts u (List.mem_cons_of_mem _ hu)) (before ++ g.dataOf t)
      rw [List.length_append, ht, List.append_assoc, ← List.flatMap_cons] at hrest
      rw [Gguf.members, List.map_cons, hrest, List.map_cons]
      congr 1
      simp only [BundleMember.piece, Gguf.member]
      rw [List.drop_left, List.flatMap_cons, ← ht, List.take_left]

theorem members_eq (offset : Nat) (ts : List TensorIndexEntry) :
    (g.members hash offset ts).map (fun b => (b.name, b.shape, b.dtypeCode, b.dataOffsetRel,
      b.size)) = ts.map fun t => (t.name, t.shape, t.dtype, t.dataOffsetRel, t.nBytes) := by
  induction ts generalizing offset with
  | nil => rfl
  | cons t ts ih => rw [Gguf.members, List.map_cons, ih, List.map_cons]; rfl

/-! The check. -/

private theorem verifyMember_ok (har : ar.Words 64) {name : String} {bytes : Bytes}
    {b : BundleMember}
    (hlt : b.offsetInBundle + b.size < 2 ^ 64) (hlen : b.offsetInBundle + b.size ≤ bytes.length)
    (hcid : hash.cidStringFor ((bytes.drop b.offsetInBundle).take b.size) = b.cid) :
    verifyMember ar hash name bytes b = .ok () := by
  have hsum := har.below _ _ hlt
  simp only [verifyMember, hsum, ofPanic]
  change (if _ then _ else _) = _
  rw [if_neg (by omega), if_neg (by omega), Nat.add_sub_cancel_left, hcid, if_neg (by simp)]

variable (hash) in
private theorem verifyMembers_ok (har : ar.Words 64) (name : String) {ts : List TensorIndexEntry}
    (hts : ∀ t ∈ ts, g.Holds t)
    (before : Bytes) (hsize : before.length + (ts.map TensorIndexEntry.nBytes).sum < 2 ^ 64) :
    (g.members hash before.length ts).forM
      (verifyMember ar hash name (before ++ ts.flatMap g.dataOf)) = .ok () := by
  induction ts generalizing before with
  | nil => rfl
  | cons t ts ih =>
      have ht := Gguf.length_dataOf (hts t List.mem_cons_self)
      rw [List.map_cons, List.sum_cons] at hsize
      have hrest := ih (fun u hu => hts u (List.mem_cons_of_mem _ hu)) (before ++ g.dataOf t) (by
        rw [List.length_append, ht]
        omega)
      rw [List.length_append, ht, List.append_assoc, ← List.flatMap_cons] at hrest
      have hslice : ((before ++ (t :: ts).flatMap g.dataOf).drop before.length).take t.nBytes =
          g.dataOf t := by
        rw [List.drop_left, List.flatMap_cons, ← ht, List.take_left]
      have hlen : before.length + t.nBytes ≤ (before ++ (t :: ts).flatMap g.dataOf).length := by
        rw [List.flatMap_cons, List.length_append, List.length_append, ht]
        omega
      have hmember : verifyMember ar hash name (before ++ (t :: ts).flatMap g.dataOf)
          (g.member hash before.length t) = .ok () := by
        refine verifyMember_ok har ?_ hlen (congrArg hash.cidStringFor hslice)
        change before.length + t.nBytes < 2 ^ 64
        omega
      change (verifyMember ar hash name _ (g.member hash before.length t) >>= fun _ =>
        (g.members hash (before.length + t.nBytes) ts).forM _) = _
      rw [hmember]
      exact hrest

private theorem verifyBundle_ok (har : ar.Words 64) {files : Files} {dir : Location}
    (kind : BundleKind) {ts : List TensorIndexEntry} (hts : ∀ t ∈ ts, g.Holds t)
    (hsize : (ts.map TensorIndexEntry.nBytes).sum < 2 ^ 64)
    (hchunk : files.lookup (chunkLocation dir (hash.cidStringFor (ts.flatMap g.dataOf))) =
      some (ts.flatMap g.dataOf)) :
    verifyBundle ar hash files dir (g.bundle ar32 hash kind ts) = .ok () := by
  have hlen : (ts.flatMap g.dataOf).length = (ts.map TensorIndexEntry.nBytes).sum := by
    rw [List.length_flatMap]
    exact congrArg List.sum (List.map_congr_left fun t ht => Gguf.length_dataOf (hts t ht))
  have hread : readChunk files dir (g.bundle ar32 hash kind ts).cid = .ok
    (ts.flatMap g.dataOf) := by
    have hlookup : files.lookup (chunkLocation dir (g.bundle ar32 hash kind ts).cid) =
        some (ts.flatMap g.dataOf) := hchunk
    simp only [readChunk, hlookup]
  have hmembers := verifyMembers_ok hash har kind.name hts [] (by simpa using hsize)
  rw [verifyBundle, hread]
  change (if (ts.flatMap g.dataOf).length ≠ (ts.map TensorIndexEntry.nBytes).sum then _ else _) = _
  rw [if_neg (not_not.mpr hlen)]
  change (if hash.cidStringFor (ts.flatMap g.dataOf) ≠ hash.cidStringFor (ts.flatMap g.dataOf)
    then _ else _) = _
  rw [if_neg (not_not.mpr rfl)]
  exact hmembers

/-! The whole run. -/

/-- What the chunker is for, of a file with the tensors `ts` and tensor data from `data` on. -/
structure Complete (ar : Arith) (hash : Hashing) (json : ManifestJson) (m : Mmap) (data : Nat)
    (ts : List TensorIndexEntry) (dir : Location) (manifest : Manifest) (files : Files) : Prop where
  /-- The bundles stand for kinds in the order embed, blocks, head, and hold the tensors of their
  kinds in the order of the index; each tensor is of one of the kinds. -/
  bundles : ∃ kinds : List BundleKind, (kinds.map BundleKind.key).Pairwise (· < ·) ∧
    List.Forall₂ (fun kind b => b.name = kind.name ∧
      b.members.map (fun b => (b.name, b.shape, b.dtypeCode, b.dataOffsetRel, b.size)) =
        (ts.filter (classifyTensor ·.name = kind)).map
          fun t => (t.name, t.shape, t.dtype, t.dataOffsetRel, t.nBytes)) kinds manifest.bundles ∧
    ∀ t ∈ ts, classifyTensor t.name ∈ kinds
  /-- The members cover their bundle. -/
  tiles : ∀ b ∈ manifest.bundles,
    Tiles 0 (b.members.map fun b => (b.offsetInBundle, b.size)) b.size
  /-- Written to their places over whatever image, the members show the file from the lowest tensor
  on. -/
  restores : ∀ (img : Nat → Option UInt8) (p : Nat), (∃ t ∈ ts, data + t.dataOffsetRel ≤ p) →
    p < m.bytes.length →
    paintAll img (manifest.bundles.flatMap fun b =>
      b.members.map (BundleMember.piece data
        ((files.lookup (chunkLocation dir b.cid)).getD []))) p = m.bytes[p]?
  verifies : verifyChunks ar hash json files dir = .ok ()

theorem groups_kinds (ts : List TensorIndexEntry) :
    ∃ kinds : List (BundleKind × List TensorIndexEntry),
      groups (fun t => (classifyTensor t.name).key) ts = kinds.map (fun k => (k.1.key, k.2)) ∧
      (kinds.map fun k => k.1.key).Pairwise (· < ·) ∧
      (∀ kind us, (kind, us) ∈ kinds → us = ts.filter (classifyTensor ·.name = kind)) ∧
      ∀ t ∈ ts, ∃ us, (classifyTensor t.name, us) ∈ kinds := by
  have hgrouped := grouped_groups (fun t : TensorIndexEntry => (classifyTensor t.name).key) ts
  have hkey_inj : ∀ a b : BundleKind, a.key = b.key ↔ a = b := by
    intro a b
    refine ⟨fun h => ?_, congrArg _⟩
    rw [← a.toKind_key, h, b.toKind_key]
  have hkey : ∀ group ∈ groups (fun t => (classifyTensor t.name).key) ts,
      group.1.toKind.key = group.1 := by
    rintro ⟨key, us⟩ hmem
    obtain ⟨t, ht⟩ := List.exists_mem_of_ne_nil us (hgrouped.nonempty key us hmem)
    rw [hgrouped.items_eq key us hmem] at ht
    have hkey : (classifyTensor t.name).key = key := by simpa using (List.mem_filter.mp ht).2
    rw [← hkey, BundleKind.toKind_key]
  refine ⟨(groups (fun t => (classifyTensor t.name).key) ts).map fun k => (k.1.toKind, k.2),
    ?_, ?_, ?_, ?_⟩
  · rw [List.map_map]
    refine (List.map_id _).symm.trans (List.map_congr_left fun group hmem => ?_)
    exact Prod.ext (hkey group hmem).symm rfl
  · rw [List.map_map]
    have hfst : (groups (fun t => (classifyTensor t.name).key) ts).map
        ((fun k : BundleKind × List TensorIndexEntry => k.1.key) ∘ fun k => (k.1.toKind, k.2)) =
        (groups (fun t => (classifyTensor t.name).key) ts).map Prod.fst :=
      List.map_congr_left hkey
    rw [hfst]
    exact hgrouped.ascending
  · intro kind us hmem
    obtain ⟨⟨key, us'⟩, hgroup, heq⟩ := List.mem_map.mp hmem
    obtain ⟨rfl, rfl⟩ := Prod.mk.inj heq
    refine (hgrouped.items_eq key us' hgroup).trans (List.filter_congr fun t _ => ?_)
    have hiff := hkey_inj (classifyTensor t.name) key.toKind
    rw [hkey _ hgroup] at hiff
    exact decide_eq_decide.mpr hiff
  · intro t ht
    obtain ⟨group, hgroup, heq⟩ := List.mem_map.mp (hgrouped.all t ht)
    refine ⟨group.2, List.mem_map.mpr ⟨group, hgroup, ?_⟩⟩
    rw [heq, BundleKind.toKind_key]

section Run

variable {json : ManifestJson} {m : Mmap} {data : Nat} {ts : List TensorIndexEntry}
  {kinds : List (BundleKind × List TensorIndexEntry)}

private theorem bundles_partition
    (hsorted : (kinds.map fun k => k.1.key).Pairwise (· < ·))
    (hfilter : ∀ kind us, (kind, us) ∈ kinds → us = ts.filter (classifyTensor ·.name = kind))
    (hall : ∀ t ∈ ts, ∃ us, (classifyTensor t.name, us) ∈ kinds) :
    ∃ names : List BundleKind, (names.map BundleKind.key).Pairwise (· < ·) ∧
      List.Forall₂ (fun kind b => b.name = kind.name ∧
        b.members.map (fun b => (b.name, b.shape, b.dtypeCode, b.dataOffsetRel, b.size)) =
          (ts.filter (classifyTensor ·.name = kind)).map
            fun t => (t.name, t.shape, t.dtype, t.dataOffsetRel, t.nBytes))
        names (kinds.map fun k => g.bundle ar32 hash k.1 k.2) ∧
      ∀ t ∈ ts, classifyTensor t.name ∈ names := by
  refine ⟨kinds.map Prod.fst, ?_, ?_, ?_⟩
  · rw [List.map_map]
    exact hsorted
  · rw [List.forall₂_map_left_iff, List.forall₂_map_right_iff, List.forall₂_same]
    rintro ⟨kind, us⟩ hmem
    refine ⟨rfl, ?_⟩
    rw [← hfilter kind us hmem]
    exact members_eq 0 us
  · intro t ht
    obtain ⟨us, hmem⟩ := hall t ht
    exact List.mem_map.mpr ⟨_, hmem, rfl⟩

private theorem bundles_restore {files : Files} {dir : Location} (hg : g.mmap = m)
    (hdata : g.tensorDataOffset = data) (hdata_le : data ≤ m.bytes.length)
    {index : List TensorIndexEntry} (hmeasured : Measured (m.bytes.length - data) index ts)
    (hfilter : ∀ kind us, (kind, us) ∈ kinds → us = ts.filter (classifyTensor ·.name = kind))
    (hall : ∀ t ∈ ts, ∃ us, (classifyTensor t.name, us) ∈ kinds)
    (hchunks : ∀ k ∈ kinds, files.lookup (chunkLocation dir
      (hash.cidStringFor (k.2.flatMap g.dataOf))) = some (k.2.flatMap g.dataOf))
    (img : Nat → Option UInt8) {p : Nat} (hlow : ∃ t ∈ ts, data + t.dataOffsetRel ≤ p)
    (hp : p < m.bytes.length) :
    paintAll img ((kinds.map fun k => g.bundle ar32 hash k.1 k.2).flatMap fun b =>
      b.members.map (BundleMember.piece data
        ((files.lookup (chunkLocation dir b.cid)).getD []))) p = m.bytes[p]? := by
  subst hg hdata
  have hholds : ∀ t ∈ ts, g.Holds t := by
    intro t ht
    have hwithin := hmeasured.within ht
    change g.tensorDataOffset + t.dataOffsetRel + t.nBytes ≤ g.mmap.bytes.length
    omega
  have hmem : ∀ k ∈ kinds, ∀ t ∈ k.2, t ∈ ts := by
    intro k hk t ht
    rw [hfilter k.1 k.2 hk] at ht
    exact (List.mem_filter.mp ht).1
  have hpieces : ((kinds.map fun k => g.bundle ar32 hash k.1 k.2).flatMap fun b =>
      b.members.map (BundleMember.piece g.tensorDataOffset
        ((files.lookup (chunkLocation dir b.cid)).getD []))) =
      kinds.flatMap fun k => k.2.map fun t =>
        (g.tensorDataOffset + t.dataOffsetRel, g.dataOf t) := by
    rw [List.flatMap_map]
    refine List.flatMap_congr fun k hk => ?_
    change (g.members hash 0 k.2).map (BundleMember.piece _
      ((files.lookup (chunkLocation dir (hash.cidStringFor (k.2.flatMap g.dataOf)))).getD [])) = _
    rw [hchunks k hk]
    exact members_pieces _ (fun t ht => hholds t (hmem k hk t ht)) []
  rw [hpieces]
  refine paintAll_eq ?_ ?_ img
  · intro piece hpiece
    obtain ⟨k, hk, hpiece⟩ := List.mem_flatMap.mp hpiece
    obtain ⟨t, ht, rfl⟩ := List.mem_map.mp hpiece
    have hlen := Gguf.length_dataOf (hholds t (hmem k hk t ht))
    have hin : g.tensorDataOffset + t.dataOffsetRel + t.nBytes ≤ g.mmap.bytes.length :=
      hholds t (hmem k hk t ht)
    dsimp only
    rw [hlen]
    exact ⟨hin, rfl⟩
  · obtain ⟨t, ht, hle⟩ := hlow
    obtain ⟨u, hu, hlo, hhi⟩ := hmeasured.covers (p := p - g.tensorDataOffset)
      ⟨t, ht, by omega⟩ (by omega)
    obtain ⟨us, hus⟩ := hall u hu
    have hmemu : u ∈ us := by
      rw [hfilter _ us hus]
      exact List.mem_filter.mpr ⟨hu, by simp⟩
    refine ⟨(g.tensorDataOffset + u.dataOffsetRel, g.dataOf u),
      List.mem_flatMap.mpr ⟨_, hus, List.mem_map.mpr ⟨u, hmemu, rfl⟩⟩, ?_, ?_⟩
    · dsimp only
      omega
    · dsimp only
      rw [Gguf.length_dataOf (hholds u hu)]
      omega

private theorem verifyChunks_ok {files : Files} {dir : Location} {header : Bytes}
    {manifest : Manifest} (hjson : json.RoundTrips)
    (hmanifest : files.lookup (dir ++ ["manifest.json"]) = some (json.toJsonBytes manifest))
    (hheader : manifest.headerChunk = ⟨hash.cidStringFor header, header.length⟩)
    (hlookup : files.lookup (chunkLocation dir (hash.cidStringFor header)) = some header)
    (hbundles : ∀ b ∈ manifest.bundles, verifyBundle ar hash files dir b = .ok ()) :
    verifyChunks ar hash json files dir = .ok () := by
  have hread : readChunk files dir manifest.headerChunk.cid = .ok header := by
    rw [hheader]
    simp only [readChunk, hlookup]
  have hloop : ∀ bs : List BundleEntry,
      (∀ b ∈ bs, verifyBundle ar hash files dir b = .ok ()) →
      bs.forM (verifyBundle ar hash files dir) = .ok () := by
    intro bs hbs
    induction bs with
    | nil => rfl
    | cons b bs ih =>
        change (verifyBundle ar hash files dir b >>= fun _ => bs.forM _) = _
        rw [hbs b List.mem_cons_self]
        exact ih fun c hc => hbs c (List.mem_cons_of_mem _ hc)
  simp only [verifyChunks, hmanifest, hjson manifest, hread]
  change (if header.length ≠ manifest.headerChunk.size then _ else
    if hash.cidStringFor header ≠ manifest.headerChunk.cid then _ else _) = _
  rw [hheader, if_neg (not_not.mpr rfl), if_neg (not_not.mpr rfl)]
  exact hloop _ hbundles

def Gguf.bundles (ar32 : Arith) (hash : Hashing) (g : Gguf) (ts : List TensorIndexEntry) :
    List BundleEntry :=
  (groups (fun t => (classifyTensor t.name).key) ts).map fun k => g.bundle ar32 hash k.1.toKind k.2

def Emitted.start (hash : Hashing) (opts : ChunkerOptions) (header : Bytes) (files : Files) :
    Emitted :=
  if opts.dryRun then ⟨files, [], 0, []⟩
  else ⟨writeChunk files opts.outputDir (hash.cidStringFor header) header,
    [hash.cidStringFor header], header.length, []⟩

variable (hash) in
private theorem emitChunks_adds (har : ar.Words 64) (hranges : ∀ t ∈ ts,
      (classifyTensor t.name).layerRange ar32 ≠ none) (hholds : ∀ t ∈ ts, g.Holds t)
    {header : Bytes} (hroom : header.length + (ts.map TensorIndexEntry.nBytes).sum < 2 ^ 63)
    (opts : ChunkerOptions) (files : Files)
    (hgroups :
      groups (fun t => (classifyTensor t.name).key) ts = kinds.map (fun k => (k.1.key, k.2)))
    (hfilter : ∀ kind us, (kind, us) ∈ kinds → us = ts.filter (classifyTensor ·.name = kind)) :
    ∃ e, emitChunks ar ar32 hash g opts header
        (groups (fun t => (classifyTensor t.name).key) ts) files = some e ∧
      (Emitted.start hash opts header files).Adds ar32 hash g opts e kinds ∧
      e.bundles = g.bundles ar32 hash ts ∧ e.bytesWritten < 2 ^ 63 := by
  have hkinds : ∀ k ∈ kinds, k.1.layerRange ar32 ≠ none ∧ ∀ t ∈ k.2, g.Holds t := by
    intro k hk
    have hus := hfilter k.1 k.2 hk
    have hnonempty := (grouped_groups (fun t : TensorIndexEntry => (classifyTensor t.name).key)
      ts).nonempty k.1.key k.2 (by
        rw [hgroups]
        exact List.mem_map_of_mem hk)
    have hmem : ∀ t ∈ k.2, t ∈ ts ∧ classifyTensor t.name = k.1 := by
      intro t ht
      rw [hus] at ht
      simpa using ht
    obtain ⟨t, ht⟩ := List.exists_mem_of_ne_nil _ hnonempty
    obtain ⟨hin, hkind⟩ := hmem t ht
    exact ⟨hkind ▸ hranges t hin, fun u hu => hholds u (hmem u hu).1⟩
  have hsum : (kinds.map fun k => (k.2.map TensorIndexEntry.nBytes).sum).sum =
      (ts.map TensorIndexEntry.nBytes).sum := by
    have h := sum_groups (fun t : TensorIndexEntry => (classifyTensor t.name).key)
      TensorIndexEntry.nBytes ts
    rwa [hgroups, List.map_map] at h
  have hstart : (Emitted.start hash opts header files).bytesWritten ≤ header.length := by
    unfold Emitted.start
    split
    · exact Nat.zero_le _
    · exact le_refl _
  obtain ⟨e, hrun, hadds⟩ := emitBundles_adds hash har opts hkinds
    (e := .start hash opts header files) (by omega)
  have hbundles := hadds.bundles
  have hwritten := hadds.bytesWritten
  refine ⟨e, ?_, hadds, ?_, by omega⟩
  · rw [hgroups, ← hrun, emitChunks, Emitted.start]
    split
    · rfl
    · have hadd := har.below 0 header.length (by omega)
      rw [Nat.zero_add] at hadd
      rw [hadd]
      rfl
  · have hempty : (Emitted.start hash opts header files).bundles = [] := by
      unfold Emitted.start
      split <;> rfl
    rw [hbundles, hempty, List.nil_append, Gguf.bundles, hgroups, List.map_map]
    apply List.map_congr_left
    intro k _
    exact (congrArg (fun kind => g.bundle ar32 hash kind k.2) k.1.toKind_key).symm

theorem chunkParsed_complete (har : ar.Words 64) (hinj : Function.Injective hash.cidStringFor)
    (hjson : json.RoundTrips) (hg : g.mmap = m) (hdata : g.tensorDataOffset = data)
    (hdata_le : data ≤ m.bytes.length) {index : List TensorIndexEntry}
    (hmeasured : Measured (m.bytes.length - data) index ts)
    (hranges : ∀ t ∈ ts, (classifyTensor t.name).layerRange ar32 ≠ none) (d : Diagnostics)
    {header : Bytes} (hheader : header.length ≤ data)
    {opts : ChunkerOptions} (hdry : opts.dryRun = false) {files : Files}
    (hfresh : ∀ p ∈ files.keys, ¬ opts.outputDir <+: p)
    (hadd : ∀ n < 2 ^ 63, ar.add n (json.toJsonBytes
      (parsedManifest hash g d ts header (g.bundles ar32 hash ts))).length ≠ none) :
    ∃ outcome files', chunkParsed ar ar32 hash json g d ts header opts files =
        .ok (outcome, files') ∧
      Complete ar hash json m data ts opts.outputDir outcome.manifest files' := by
  obtain ⟨kinds, hgroups, hsorted, hfilter, hall⟩ := groups_kinds ts
  have hprepare : prepareOutputDir files opts = .ok () := by
    rw [prepareOutputDir, if_neg]
    rintro ⟨-, p, hp, hpre⟩
    exact hfresh p hp hpre
  have hlen := m.length_lt
  have htotal := hmeasured.total
  have hholds : ∀ t ∈ ts, g.Holds t := by
    intro t ht
    have hwithin := hmeasured.within ht
    change g.tensorDataOffset + t.dataOffsetRel + t.nBytes ≤ g.mmap.bytes.length
    rw [hg, hdata]
    omega
  obtain ⟨e, hemit, hadds, hbundles, hwritten⟩ := emitChunks_adds hash har hranges hholds
    (show header.length + _ < 2 ^ 63 by omega) opts files hgroups hfilter
  have hstart : Emitted.start hash opts header files =
      ⟨writeChunk files opts.outputDir (hash.cidStringFor header) header,
        [hash.cidStringFor header], header.length, []⟩ := by
    rw [Emitted.start, hdry]
    rfl
  rw [hstart] at hadds
  have hsound := hadds.sound hdry (writeChunk_sound files opts.outputDir header header.length)
  let manifest := parsedManifest hash g d ts header e.bundles
  obtain ⟨bytesWritten, hbytes⟩ := Option.ne_none_iff_exists'.mp (hadd _ hwritten)
  rw [← hbundles] at hbytes
  have hkeep : ∀ cid, (e.files.insert (opts.outputDir ++ ["manifest.json"])
      (json.toJsonBytes manifest)).lookup (chunkLocation opts.outputDir cid) =
        e.files.lookup (chunkLocation opts.outputDir cid) :=
    fun cid => AList.lookup_insert_ne (manifest_ne_chunk opts.outputDir cid).symm
  have hchunks : ∀ k ∈ kinds, (e.files.insert (opts.outputDir ++ ["manifest.json"])
      (json.toJsonBytes manifest)).lookup (chunkLocation opts.outputDir
        (hash.cidStringFor (k.2.flatMap g.dataOf))) = some (k.2.flatMap g.dataOf) := by
    intro k hk
    rw [hkeep]
    exact hsound.lookup hinj (hadds.stored hdry k hk)
  have hall_bundles : manifest.bundles = kinds.map fun k => g.bundle ar32 hash k.1 k.2 :=
    hadds.bundles
  refine ⟨_, e.files.insert (opts.outputDir ++ ["manifest.json"]) (json.toJsonBytes manifest),
    chunkParsed_run hdry hprepare hemit hbytes, ?_⟩
  change Complete ar hash json m data ts opts.outputDir manifest _
  constructor
  · rw [hall_bundles]
    exact bundles_partition hsorted hfilter hall
  · rw [hall_bundles]
    intro b hb
    obtain ⟨k, -, rfl⟩ := List.mem_map.mp hb
    have htiles := members_tile hash g 0 k.2
    rwa [Nat.zero_add] at htiles
  · rw [hall_bundles]
    intro img p hlow hp
    exact bundles_restore hg hdata hdata_le hmeasured hfilter hall hchunks img hlow hp
  · refine verifyChunks_ok hjson (AList.lookup_insert _) rfl ?_ ?_
    · rw [hkeep]
      exact hsound.lookup hinj (hadds.kept _ (List.mem_singleton.mpr rfl))
    · rw [hall_bundles]
      intro b hb
      obtain ⟨k, hk, rfl⟩ := List.mem_map.mp hb
      have hus := hfilter k.1 k.2 hk
      have hsub : k.2.Sublist ts := hus ▸ List.filter_sublist
      have hsum := (hsub.map TensorIndexEntry.nBytes).sum_le_sum fun _ _ => Nat.zero_le _
      exact verifyBundle_ok har k.1 (fun t ht => hholds t (hsub.subset ht)) (by omega)
        (hchunks k hk)

end Run

theorem starts_fit {ar : Arith} (har : ar.Words 64) {m : Mmap} {hd : Header ar}
    (h : hd.word <+: m.bytes) {ts : List TensorIndexEntry} (hts : (hd.gguf m).tensors ar = .ok ts)
    (hranges : ∀ t ∈ ts, (hd.gguf m).Holds t) :
    ∀ t ∈ hd.tensors, t.dataOffsetRel.toNat ≤ m.bytes.length - (hd.gguf m).tensorDataOffset := by
  intro t ht
  have hmem : t.dataOffsetRel.toNat ∈ ts.map TensorIndexEntry.dataOffsetRel := by
    rw [tensors_map har h hts fun _ _ => rfl]
    exact List.mem_map.mpr ⟨t, ht, rfl⟩
  obtain ⟨u, hu, heq⟩ := List.mem_map.mp hmem
  have hrange : (hd.gguf m).tensorDataOffset + u.dataOffsetRel + u.nBytes ≤ m.bytes.length :=
    hranges u hu
  omega

section File

variable {json : ManifestJson} {m : Mmap} {hd : Header ar} {ts : List TensorIndexEntry}
  {d : Diagnostics}

/-- The manifest of a file: no part of it depends on what is written. -/
def manifestOf (ar32 : Arith) (hash : Hashing) (g : Gguf) (d : Diagnostics)
    (ts : List TensorIndexEntry) : Manifest :=
  parsedManifest hash g d ts (g.mmap.bytes.take g.tensorDataOffset) (g.bundles ar32 hash ts)

variable (hash json) in
theorem chunkGguf_dryRun (har : ar.Words 64) (h : hd.word <+: m.bytes)
    (hdata : (hd.gguf m).tensorDataOffset ≤ m.bytes.length)
    (hts : (hd.gguf m).tensors ar = .ok ts) {index : List TensorIndexEntry}
    (hmeasured : Measured (m.bytes.length - (hd.gguf m).tensorDataOffset) index ts)
    (hranges : ∀ t ∈ ts, (classifyTensor t.name).layerRange ar32 ≠ none)
    (hread : (hd.entries.map Entry.kvEntry).foldlM (Diagnostics.read ar) ⟨none, none, none⟩ =
      some d) {opts : ChunkerOptions} (hdry : opts.dryRun = true) (files : Files) :
    ∃ n files', chunkGguf ar ar32 hash json m opts files =
      .ok (parsedOutcome hash json (manifestOf ar32 hash (hd.gguf m) d ts) n, files') := by
  obtain ⟨d', hd', hrun⟩ := chunkGguf_eq hash har h hdata hts json opts files
  obtain rfl := Option.some.inj (hread.symm.trans hd')
  obtain ⟨kinds, hgroups, -, hfilter, -⟩ := groups_kinds ts
  have hroom : (m.bytes.take (hd.gguf m).tensorDataOffset).length +
      (ts.map TensorIndexEntry.nBytes).sum < 2 ^ 63 := by
    have hlen := m.length_lt
    have htotal := hmeasured.total
    rw [List.length_take]
    omega
  obtain ⟨e, hemit, -, hbundles, -⟩ := emitChunks_adds hash har hranges
    (fun t ht => hmeasured.holds hdata ht) hroom opts files hgroups hfilter
  refine ⟨e.bytesWritten, e.files, ?_⟩
  rw [hrun, chunkParsed_dryRun hdry hemit, hbundles]
  rfl

/-- Where all tensors begin in the file, it is chunked, unless a layer range or the length of the
manifest does not fit. -/
private theorem chunkGguf_complete (har : ar.Words 64) (hinj : Function.Injective hash.cidStringFor)
    (hjson : json.RoundTrips) (h : hd.word <+: m.bytes)
    (hdata : (hd.gguf m).tensorDataOffset ≤ m.bytes.length)
    (hts : (hd.gguf m).tensors ar = .ok ts) {index : List TensorIndexEntry}
    (hmeasured : Measured (m.bytes.length - (hd.gguf m).tensorDataOffset) index ts)
    (hranges : ∀ t ∈ ts, (classifyTensor t.name).layerRange ar32 ≠ none)
    {opts : ChunkerOptions} (hdry : opts.dryRun = false) {files : Files}
    (hfresh : ∀ p ∈ files.keys, ¬ opts.outputDir <+: p)
    (hadd : ∀ d, (hd.entries.map Entry.kvEntry).foldlM (Diagnostics.read ar) ⟨none, none, none⟩ =
        some d → ∀ n < 2 ^ 63,
      ar.add n (json.toJsonBytes (manifestOf ar32 hash (hd.gguf m) d ts)).length ≠ none) :
    ∃ outcome files', chunkGguf ar ar32 hash json m opts files = .ok (outcome, files') ∧
      Complete ar hash json m (hd.gguf m).tensorDataOffset ts opts.outputDir outcome.manifest
        files' := by
  obtain ⟨d, hread, hrun⟩ := chunkGguf_eq hash har h hdata hts json opts files
  obtain ⟨outcome, files', hparsed, hcomplete⟩ := chunkParsed_complete har hinj hjson rfl rfl hdata
    hmeasured hranges d (by rw [List.length_take]; exact Nat.min_le_left _ _) hdry hfresh
    (hadd d hread)
  exact ⟨outcome, files', hrun.trans hparsed, hcomplete⟩

end File

theorem chunkGguf_fits (hash : Hashing) (json : ManifestJson)
    (hinj : Function.Injective hash.cidStringFor) (hjson : json.RoundTrips) {m : Mmap}
    {hd : Header release} (h : hd.word <+: m.bytes)
    (hdata : (hd.gguf m).tensorDataOffset ≤ m.bytes.length)
    (hfits : ∀ t ∈ hd.tensors,
      t.dataOffsetRel.toNat ≤ m.bytes.length - (hd.gguf m).tensorDataOffset)
    (opts : ChunkerOptions) (hdry : opts.dryRun = false) (files : Files)
    (hfresh : ∀ p ∈ files.keys, ¬ opts.outputDir <+: p) :
    ∃ ts outcome files', (hd.gguf m).tensors release = .ok ts ∧
      chunkGguf release release32 hash json m opts files = .ok (outcome, files') ∧
      Complete release hash json m (hd.gguf m).tensorDataOffset ts opts.outputDir outcome.manifest
        files' := by
  obtain ⟨ts, hts, hmeasured⟩ := tensors_measured words_release h hdata hfits
  have hranges : ∀ t ∈ ts, (classifyTensor t.name).layerRange release32 ≠ none :=
    fun t _ => layerRange_release _
  obtain ⟨outcome, files', hrun, hcomplete⟩ := chunkGguf_complete words_release hinj hjson h hdata
    hts hmeasured hranges hdry hfresh fun _ _ _ _ => nofun
  exact ⟨ts, outcome, files', hts, hrun, hcomplete⟩

/-- The chunker loses and duplicates nothing, and its output verifies, just if the additions of
layers wrap around or no tensor is of the last block. The manifest is a vector of bytes. -/
theorem chunk_gguf_complete_iff (ar ar32 : Arith) (har : ar.Words 64) (har32 : ar32.Words 32)
    (hash : Hashing) (json : ManifestJson) (hinj : Function.Injective hash.cidStringFor)
    (hjson : json.RoundTrips) (m : Mmap) (g : Gguf) (hopen : Gguf.open ar m = .ok g)
    (hdata : g.tensorDataOffset ≤ m.bytes.length) (ts : List TensorIndexEntry)
    (hts : g.tensors ar = .ok ts)
    (hranges : ∀ t ∈ ts, g.tensorDataOffset + t.dataOffsetRel + t.nBytes ≤ m.bytes.length)
    (opts : ChunkerOptions) (hdry : opts.dryRun = false) (files : Files)
    (hfresh : ∀ p ∈ files.keys, ¬ opts.outputDir <+: p)
    (hvec : ∀ outcome files', chunkGguf ar ar32 hash json m { opts with dryRun := true } files =
      .ok (outcome, files') → outcome.manifestBytes.length < 2 ^ 63) :
    (∃ outcome files', chunkGguf ar ar32 hash json m opts files = .ok (outcome, files') ∧
      Complete ar hash json m g.tensorDataOffset ts opts.outputDir outcome.manifest files') ↔
    ar32.add 4294967295 1 ≠ none ∨ ∀ t ∈ ts, classifyTensor t.name ≠ .block 4294967295 := by
  obtain ⟨hd, h, rfl⟩ := (open_iff har).mp hopen
  constructor
  · rintro ⟨outcome, files', hrun, -⟩
    by_contra hlast
    push Not at hlast
    obtain ⟨hnone, t, ht, hkind⟩ := hlast
    have hrange : (classifyTensor t.name).layerRange ar32 = none :=
      (BundleKind.layerRange_eq_none har32).mpr ⟨hkind, hnone⟩
    obtain ⟨g, -, d, ts', header, hg, -, -, hts', -, hparsed⟩ := chunkGguf_ok hrun
    obtain rfl := Except.ok.inj (hopen.symm.trans hg)
    obtain rfl := Except.ok.inj (hts.symm.trans hts')
    obtain ⟨e, hemit, -⟩ := chunkParsed_ok hparsed
    rw [emitChunks_none hrange ht] at hemit
    cases hemit
  · intro hlast
    have hfits := starts_fit har h hts hranges
    obtain ⟨out, hout, hmeasured⟩ := tensors_measured har h hdata hfits
    obtain rfl := Except.ok.inj (hts.symm.trans hout)
    have hkinds : ∀ t ∈ ts, (classifyTensor t.name).layerRange ar32 ≠ none := by
      intro t ht hnone
      obtain ⟨hkind, hadd⟩ := (BundleKind.layerRange_eq_none har32).mp hnone
      exact hlast.elim (fun hwraps => hwraps hadd) fun hother => hother t ht hkind
    apply chunkGguf_complete har hinj hjson h hdata hts hmeasured hkinds hdry hfresh
    intro d hread n hn
    obtain ⟨_, _, hshown⟩ := chunkGguf_dryRun hash json har h hdata hts hmeasured hkinds hread
      (show ({ opts with dryRun := true } : ChunkerOptions).dryRun = true from rfl) files
    have hlen := hvec _ _ hshown
    rw [parsedOutcome_manifestBytes] at hlen
    rw [har.below _ _ (by omega)]
    exact nofun

def spelled (bytes : Bytes) : List Char :=
  bytes.flatMap fun b => [Char.ofNat (97 + b.toNat / 16), Char.ofNat (97 + b.toNat % 16)]

def spelledHash : Hashing where
  sha256 bytes := bytes
  cidStringFromSha256 digest := String.ofList (spelled digest)

theorem spelledHash_injective : Function.Injective spelledHash.cidStringFor := by
  have hletters : ∀ i : Fin 16, (Char.ofNat (97 + i.val)).toNat = 97 + i.val := by decide
  have hletter : ∀ a b, a < 16 → b < 16 → Char.ofNat (97 + a) = Char.ofNat (97 + b) → a = b := by
    intro a b ha hb h
    have ha' : (Char.ofNat (97 + a)).toNat = 97 + a := hletters ⟨a, ha⟩
    have hb' : (Char.ofNat (97 + b)).toNat = 97 + b := hletters ⟨b, hb⟩
    have heq := congrArg Char.toNat h
    omega
  intro x y h
  have hlist := String.ofList_inj.mp h
  clear h
  change x.flatMap _ = y.flatMap _ at hlist
  induction x generalizing y with
  | nil =>
      cases y with
      | nil => rfl
      | cons b y => cases hlist
  | cons a x ih =>
      cases y with
      | nil => cases hlist
      | cons b y =>
          simp only [List.flatMap_cons, List.cons_append, List.nil_append, List.cons.injEq] at hlist
          obtain ⟨hhigh, hlow, hrest⟩ := hlist
          have ha := a.toNat_lt
          have hb := b.toNat_lt
          have hdiv := hletter _ _ (by omega) (by omega) hhigh
          have hmod := hletter _ _ (by omega) (by omega) hlow
          have hab : a = b := UInt8.toNat_inj.mp (by omega)
          rw [hab, ih hrest]

theorem longHash_injective : Function.Injective longHash.cidStringFor := by
  intro a b h
  have hlist := congrArg String.toList h
  simp only [Hashing.cidStringFor, longHash, String.toList_ofList] at hlist
  apply spelledHash_injective
  exact congrArg String.ofList (List.append_cancel_left hlist)

def twinsIn (ar : Arith) : Header ar where
  entries := []
  tensors :=
    [⟨⟨"token_embd.weight", by decide⟩, [8], 0, 0, by decide⟩,
      ⟨⟨"output.weight", by decide⟩, [8], 0, 32, by decide⟩]
  entries_le := Nat.zero_le _
  tensors_le := by decide

abbrev twins : Header release := twinsIn release

def twinFile : Mmap where
  bytes := twins.word ++ List.replicate (10 + 64) 0
  length_lt := by decide +kernel

def twinIndex : List TensorIndexEntry :=
  [⟨"token_embd.weight", [8], 0, 0, 32⟩, ⟨"output.weight", [8], 0, 32, 32⟩]

private theorem twinFile_length : twinFile.bytes.length = 192 := by decide +kernel

private theorem twins_offset :
    ((twinsIn checked).gguf twinFile).tensorDataOffset = 128 := by decide +kernel

private theorem twins_tensors :
    ((twinsIn checked).gguf twinFile).tensors checked = .ok twinIndex := by
  have hsorted : sortedIndex ((twinsIn checked).tensors.map TensorInfo.indexEntry) =
      [(0, ⟨"token_embd.weight", [8], 0, 0, 0⟩), (1, ⟨"output.weight", [8], 0, 32, 0⟩)] := by
    apply List.mergeSort_of_pairwise
    decide
  rw [tensors_run words_checked (List.prefix_append _ _), hsorted, twins_offset, twinFile_length]
  rfl

def twinEntry (kind : BundleKind) (name : String) (offset : Nat) : BundleEntry :=
  ⟨kind.name, none, spelledHash.cidStringFor (List.replicate 32 0), 32,
    [⟨name, [8], "F32", 0, offset, spelledHash.cidStringFor (List.replicate 32 0), 32, 0⟩]⟩

def twinManifest : Manifest where
  format := "intelnav-model"
  version := 2
  name := none
  architecture := none
  nLayers := 0
  gguf := ⟨3, 32, 128, 0, 2⟩
  headerChunk := ⟨spelledHash.cidStringFor (twinFile.bytes.take 128), 128⟩
  bundles := [twinEntry .embed "token_embd.weight" 0, twinEntry .head "output.weight" 32]

set_option maxRecDepth 20000 in
private theorem twins_manifest : manifestOf checked32 spelledHash ((twinsIn checked).gguf twinFile)
    ⟨none, none, none⟩ twinIndex = twinManifest := by
  have hbundles : ((twinsIn checked).gguf twinFile).bundles checked32 spelledHash twinIndex =
      [twinEntry .embed "token_embd.weight" 0, twinEntry .head "output.weight" 32] := by
    decide +kernel
  rw [manifestOf, hbundles]
  rfl

private theorem twinManifest_length : twinManifest.toJsonBytes.length < 2 ^ 63 := by
  have hquoted : ∀ bytes, quoted (spelledHash.cidStringFor bytes) =
      '"' :: ((spelled bytes).flatMap escaped ++ ['"']) := by
    intro bytes
    rw [quoted, Hashing.cidStringFor, spelledHash, String.toList_ofList]
  have hlen : (object 0 Manifest.fields twinManifest).length < 2 ^ 60 := by
    simp only [object, Manifest.fields, twinManifest, twinEntry, BundleEntry.pretty,
      BundleEntry.fields, BundleMember.pretty, BundleMember.fields, Chunk.fields, array,
      List.map_cons, List.map_nil, hquoted]
    decide +kernel
  have hle := twinManifest.length_toJsonBytes_le
  omega

/-- The bundles of the two tensors are one chunk. -/
theorem chunk_gguf_complete_twins :
    (∃ outcome files', chunkGguf checked checked32 spelledHash prettyJson twinFile
        ⟨["out"], false, false⟩ ∅ = .ok (outcome, files') ∧
      Complete checked spelledHash prettyJson twinFile
        ((twinsIn checked).gguf twinFile).tensorDataOffset twinIndex ["out"] outcome.manifest
        files') ↔
    checked32.add 4294967295 1 ≠ none ∨
      ∀ t ∈ twinIndex, classifyTensor t.name ≠ .block 4294967295 := by
  have hword : (twinsIn checked).word <+: twinFile.bytes := List.prefix_append _ _
  have hopen := (open_iff words_checked).mpr ⟨twinsIn checked, hword, rfl⟩
  have hdata : ((twinsIn checked).gguf twinFile).tensorDataOffset ≤ twinFile.bytes.length := by
    rw [twins_offset, twinFile_length]
    decide
  have hranges : ∀ t ∈ twinIndex, ((twinsIn checked).gguf twinFile).tensorDataOffset +
      t.dataOffsetRel + t.nBytes ≤ twinFile.bytes.length := by
    rw [twins_offset, twinFile_length]
    decide
  apply chunk_gguf_complete_iff checked checked32 words_checked (Arith.words_trapping 32)
    spelledHash prettyJson spelledHash_injective prettyJson_roundTrips twinFile _ hopen hdata
    twinIndex twins_tensors hranges ⟨["out"], false, false⟩ rfl ∅ nofun
  intro outcome files' hrun
  obtain ⟨out, hout, hmeasured⟩ := tensors_measured words_checked hword hdata
    (starts_fit words_checked hword twins_tensors hranges)
  obtain rfl := Except.ok.inj (twins_tensors.symm.trans hout)
  have hkinds : ∀ t ∈ twinIndex, (classifyTensor t.name).layerRange checked32 ≠ none := by decide
  obtain ⟨_, _, hshown⟩ := chunkGguf_dryRun spelledHash prettyJson words_checked hword hdata
    twins_tensors hmeasured hkinds rfl
    (show ChunkerOptions.dryRun ⟨["out"], false, true⟩ = true from rfl) ∅
  rw [twins_manifest] at hshown
  obtain ⟨rfl, -⟩ := Prod.mk.inj (Except.ok.inj (hshown.symm.trans hrun))
  rw [parsedOutcome_manifestBytes, prettyJson_toJsonBytes]
  exact twinManifest_length

def lastBlock : Header checked where
  entries := []
  tensors := [⟨⟨"blk.4294967295.w", by decide⟩, [8], 0, 0, by decide⟩]
  entries_le := Nat.zero_le _
  tensors_le := by decide

def lastBlockFile : Mmap where
  bytes := lastBlock.word ++ List.replicate (24 + 32) 0
  length_lt := by decide +kernel

theorem last_block_panics :
    let g := lastBlock.gguf lastBlockFile
    let ts : List TensorIndexEntry := [⟨"blk.4294967295.w", [8], 0, 0, 32⟩]
    lastBlockFile.bytes.length = 128 ∧ Gguf.open checked lastBlockFile = .ok g ∧
      g.tensors checked = .ok ts ∧
      (∀ t ∈ ts, g.tensorDataOffset + t.dataOffsetRel + t.nBytes ≤ lastBlockFile.bytes.length) ∧
      ¬ ∃ outcome files', chunkGguf checked checked32 spelledHash prettyJson lastBlockFile
          ⟨["out"], false, false⟩ ∅ = .ok (outcome, files') ∧
        Complete checked spelledHash prettyJson lastBlockFile g.tensorDataOffset ts ["out"]
          outcome.manifest files' := by
  intro g ts
  have hword : lastBlock.word <+: lastBlockFile.bytes := List.prefix_append _ _
  have hlen : lastBlockFile.bytes.length = 128 := by decide +kernel
  have hoffset : (lastBlock.gguf lastBlockFile).tensorDataOffset = 96 := by decide +kernel
  have hopen := (open_iff words_checked).mpr ⟨lastBlock, hword, rfl⟩
  have htensors : (lastBlock.gguf lastBlockFile).tensors checked = .ok ts := by
    have hsorted : sortedIndex (lastBlock.tensors.map TensorInfo.indexEntry) =
        [(0, ⟨"blk.4294967295.w", [8], 0, 0, 0⟩)] := List.mergeSort_singleton _
    rw [tensors_run words_checked hword, hsorted, hoffset, hlen]
    rfl
  have hranges : ∀ t ∈ ts, (lastBlock.gguf lastBlockFile).tensorDataOffset + t.dataOffsetRel +
      t.nBytes ≤ lastBlockFile.bytes.length := by
    rw [hoffset, hlen]
    decide
  refine ⟨hlen, hopen, htensors, hranges, ?_⟩
  rintro ⟨outcome, files', hrun, -⟩
  obtain ⟨g', -, d, ts', header, hg, -, -, hts', -, hparsed⟩ := chunkGguf_ok hrun
  obtain rfl := Except.ok.inj (hopen.symm.trans hg)
  obtain rfl := Except.ok.inj (htensors.symm.trans hts')
  obtain ⟨e, hemit, -⟩ := chunkParsed_ok hparsed
  have hrange : (classifyTensor "blk.4294967295.w").layerRange checked32 = none := by decide
  rw [emitChunks_none hrange (List.mem_singleton.mpr rfl)] at hemit
  cases hemit

end IntelNav.ModelStore
