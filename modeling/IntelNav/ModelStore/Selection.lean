import IntelNav.ModelStore.ChunkOutput
import IntelNav.ModelStore.SplitFiles
import IntelNav.ModelStore.Stitch

/-! Which bundles are fetched and which are stitched: the rule is written once by names and once by
numbers, and the two agree on the manifests of the chunker. -/

set_option autoImplicit false
set_option relaxedAutoImplicit false

namespace IntelNav.ModelStore

open IntelNav.Disk IntelNav.Reading IntelNav.Layout

private theorem parseU32_digits {s : List Char} (hne : s ≠ []) (h : ∀ c ∈ s, c.isDigit = true) :
    parseU32 s =
      (let n := s.foldl (fun n c => 10 * n + (c.toNat - '0'.toNat)) 0
       if n < 2 ^ 32 then some (UInt32.ofNat n) else none) := by
  have hall : s.all Char.isDigit = true := List.all_eq_true.mpr h
  unfold parseU32
  split
  · have hbad := h '+' List.mem_cons_self
    exact absurd hbad (by decide)
  · exact if_pos ⟨hne, hall⟩

theorem parseU32_toString (n : UInt32) : parseU32 (toString n.toNat).toList = some n := by
  have hlist : (toString n.toNat).toList = Nat.toDigits 10 n.toNat := by
    rw [Nat.toString_eq_ofList_toDigits, String.toList_ofList]
  have hdigit : ∀ c ∈ Nat.toDigits 10 n.toNat, c.isDigit = true := fun c hc =>
    Nat.isDigit_of_mem_toDigits (by decide) (by decide) hc
  have hvalue : (Nat.toDigits 10 n.toNat).foldl
      (fun n c => 10 * n + (c.toNat - '0'.toNat)) 0 = n.toNat := by
    rw [← Nat.ofDigitChars_eq_foldl]
    exact Nat.ofDigitChars_ten_toDigits
  rw [hlist, parseU32_digits Nat.toDigits_ne_nil hdigit, hvalue]
  show (if n.toNat < 2 ^ 32 then some (UInt32.ofNat n.toNat) else none) = some n
  rw [if_pos n.toNat_lt, UInt32.ofNat_toNat]

private theorem stripPrefix_block (n : UInt32) :
    stripPrefix "blk.".toList (BundleKind.block n).name.toList =
      some (toString n.toNat).toList := by
  have hname : (BundleKind.block n).name.toList = "blk.".toList ++ (toString n.toNat).toList := by
    simp [BundleKind.name]
  rw [stripPrefix, hname, if_pos (List.prefix_append _ _), List.drop_left]

private theorem block_name_ne (n : UInt32) :
    (BundleKind.block n).name ≠ "embed" ∧ (BundleKind.block n).name ≠ "head" := by
  have hembed : stripPrefix "blk.".toList "embed".toList = none := by decide
  have hhead : stripPrefix "blk.".toList "head".toList = none := by decide
  constructor
  all_goals
    intro h
    have hstrip := stripPrefix_block n
    rw [h] at hstrip
  · exact absurd (hembed.symm.trans hstrip) (by simp)
  · exact absurd (hhead.symm.trans hstrip) (by simp)

theorem BundleKind.name_injective : Function.Injective BundleKind.name := by
  intro a b h
  cases a with
  | embed =>
      cases b with
      | embed => rfl
      | block n => exact absurd h.symm (block_name_ne n).1
      | head => exact absurd h (by decide)
  | block n =>
      cases b with
      | embed => exact absurd h (block_name_ne n).1
      | block k =>
          have hstrip := stripPrefix_block n
          rw [h, stripPrefix_block k] at hstrip
          have hparse := parseU32_toString n
          rw [← Option.some.inj hstrip, parseU32_toString] at hparse
          rw [Option.some.inj hparse]
      | head => exact absurd h (block_name_ne n).2
  | head =>
      cases b with
      | embed => exact absurd h (by decide)
      | block n => exact absurd h.symm (block_name_ne n).2
      | head => rfl

def StitchRange.Selects (range : StitchRange) : BundleKind → Prop
  | .embed => range.includeEmbed = true
  | .block n => range.start ≤ n ∧ n < range.stop
  | .head => range.includeHead = true

instance (range : StitchRange) : (kind : BundleKind) → Decidable (range.Selects kind)
  | .embed => inferInstanceAs (Decidable (range.includeEmbed = true))
  | .block n => inferInstanceAs (Decidable (range.start ≤ n ∧ n < range.stop))
  | .head => inferInstanceAs (Decidable (range.includeHead = true))

theorem includesBundle_name (range : StitchRange) (kind : BundleKind) :
    includesBundle range kind.name = .ok (decide (range.Selects kind)) := by
  cases kind with
  | embed =>
      have hincludes : includesBundle range "embed" = .ok range.includeEmbed := rfl
      exact hincludes.trans (congrArg Except.ok (Bool.decide_coe range.includeEmbed).symm)
  | block n =>
      obtain ⟨hembed, hhead⟩ := block_name_ne n
      rw [includesBundle, if_neg hembed, if_neg hhead]
      simp only [stripPrefix_block, parseU32_toString]
      rfl
  | head =>
      have hincludes : includesBundle range "head" = .ok range.includeHead := rfl
      exact hincludes.trans (congrArg Except.ok (Bool.decide_coe range.includeHead).symm)

def planNames (manifest : Manifest) (start stop : Nat) : List String :=
  (if start = 0 then ["embed"] else []) ++
    (List.range' start (stop - start)).map (fun n => "blk." ++ toString n) ++
    if stop = manifest.nLayers then ["head"] else []

theorem forRange_eq (manifest : Manifest) (start stop : Nat) :
    FetchPlan.forRange manifest start stop = .bundles (planNames manifest start stop) := rfl

/-- The names stand for the kinds that a range without truncation selects. -/
theorem name_mem_planNames {manifest : Manifest} {start stop : Nat} (hstop : stop < 2 ^ 32)
    (kind : BundleKind) :
    kind.name ∈ planNames manifest start stop ↔
      match kind with
      | .embed => start = 0
      | .block n => start ≤ n.toNat ∧ n.toNat < stop
      | .head => stop = manifest.nLayers := by
  have hblock : ∀ k ∈ List.range' start (stop - start),
      ∃ n : UInt32, "blk." ++ toString k = (BundleKind.block n).name ∧ n.toNat = k := by
    intro k hk
    rw [List.mem_range'_1] at hk
    have hk' : (UInt32.ofNat k).toNat = k := UInt32.toNat_ofNat_of_lt' (by
      show k < 2 ^ 32
      omega)
    exact ⟨UInt32.ofNat k, by rw [BundleKind.name, hk'], hk'⟩
  have hmem : kind.name ∈ planNames manifest start stop ↔
      (start = 0 ∧ kind = .embed) ∨ (∃ n : UInt32, kind = .block n ∧ start ≤ n.toNat ∧
        n.toNat < stop) ∨ (stop = manifest.nLayers ∧ kind = .head) := by
    have hembed : kind.name = "embed" ↔ kind = .embed :=
      BundleKind.name_injective.eq_iff (b := .embed)
    have hhead : kind.name = "head" ↔ kind = .head :=
      BundleKind.name_injective.eq_iff (b := .head)
    have hblocks : kind.name ∈ (List.range' start (stop - start)).map
        (fun n => "blk." ++ toString n) ↔
        ∃ n : UInt32, kind = .block n ∧ start ≤ n.toNat ∧ n.toNat < stop := by
      rw [List.mem_map]
      constructor
      · rintro ⟨k, hk, heq⟩
        obtain ⟨n, hname, hn⟩ := hblock k hk
        rw [List.mem_range'_1] at hk
        exact ⟨n, BundleKind.name_injective (heq.symm.trans hname), by omega, by omega⟩
      · rintro ⟨n, rfl, hlow, hhigh⟩
        exact ⟨n.toNat, List.mem_range'_1.mpr ⟨hlow, by omega⟩, rfl⟩
    rw [planNames, List.mem_append, List.mem_append, hblocks, or_assoc]
    refine or_congr ?_ (or_congr Iff.rfl ?_)
    · split_ifs with h <;> simp [h, hembed]
    · split_ifs with h <;> simp [h, hhead]
  rw [hmem]
  cases kind with
  | embed => simp
  | block n => simp
  | head => simp

/-- Sums are right up to multiples of `2 ^ 64`, and words. -/
def Modular (ar : Arith) : Prop :=
  ∀ a b e, ar.add a b = some e → e = (a + b) % 2 ^ 64

theorem modular_release : Modular release := by
  intro a b e h
  exact (Option.some.inj h).symm

variable {ar ar32 : Arith} {hash : Hashing} {json : ManifestJson}

def Chunk.Weighs (hash : Hashing) (c : Chunk) : Prop :=
  ∃ bytes, c.cid = hash.cidStringFor bytes ∧ c.size = bytes.length % 2 ^ 64

/-- What a manifest of the chunker says of the file it was made of: its header is a chunk, and its
bundles are of different kinds. -/
structure Manifest.Lists (ar : Arith) (hash : Hashing) (m : Mmap) (manifest : Manifest) : Prop where
  header : ∃ g, Gguf.open ar m = .ok g ∧ g.tensorDataOffset ≤ m.bytes.length ∧
    manifest.gguf.tensorDataOffset = g.tensorDataOffset ∧
    manifest.headerChunk =
      ⟨hash.cidStringFor (m.bytes.take g.tensorDataOffset), g.tensorDataOffset⟩
  distinct : (manifest.bundles.map BundleEntry.name).Nodup
  bundles : ∀ b ∈ manifest.bundles, (∃ kind : BundleKind, b.name = kind.name) ∧
    b.chunk.Weighs hash

private theorem foldlM_draft_size (hmod : Modular ar) {g : Gguf} {ts : List TensorIndexEntry}
    {d d' : Draft} (hd : d.size = d.bytes.length % 2 ^ 64)
    (h : ts.foldlM (Draft.add ar hash g) d = some d') :
    d'.size = d'.bytes.length % 2 ^ 64 := by
  induction ts generalizing d with
  | nil =>
      obtain rfl := Option.some.inj h
      exact hd
  | cons t ts ih =>
      rw [List.foldlM_cons] at h
      obtain ⟨d₁, hfirst, hrest⟩ := Option.bind_eq_some_iff.mp h
      refine ih ?_ hrest
      unfold Draft.add at hfirst
      obtain ⟨bytes, -, hfirst⟩ := Option.bind_eq_some_iff.mp hfirst
      obtain ⟨size, hsize, hfirst⟩ := Option.bind_eq_some_iff.mp hfirst
      obtain rfl := Option.some.inj hfirst
      show size = (d.bytes ++ bytes).length % 2 ^ 64
      rw [hmod _ _ _ hsize, hd, List.length_append, Nat.mod_add_mod]

def Emits (ar : Arith) (hash : Hashing) (g : Gguf) (group : BundleKey × List TensorIndexEntry)
    (b : BundleEntry) : Prop :=
  ∃ d, group.2.foldlM (Draft.add ar hash g) ⟨[], 0, []⟩ = some d ∧ b.name = group.1.toKind.name ∧
    b.cid = hash.cidStringFor d.bytes ∧ b.size = d.size ∧ b.members = d.members

private theorem Emits.weighs (hmod : Modular ar) {g : Gguf}
    {group : BundleKey × List TensorIndexEntry}
    {b : BundleEntry} (h : Emits ar hash g group b) : b.chunk.Weighs hash := by
  obtain ⟨d, hd, -, hcid, hsize, -⟩ := h
  have hlen : d.size = d.bytes.length % 2 ^ 64 := foldlM_draft_size hmod (by simp) hd
  exact ⟨d.bytes, hcid, hsize.trans hlen⟩

private theorem emitBundle_emits {g : Gguf} {opts : ChunkerOptions} {e e' : Emitted}
    {group : BundleKey × List TensorIndexEntry}
    (h : emitBundle ar ar32 hash g opts e group = some e') :
    ∃ b, e'.bundles = e.bundles ++ [b] ∧ Emits ar hash g group b := by
  unfold emitBundle at h
  obtain ⟨d, hd, h⟩ := Option.bind_eq_some_iff.mp h
  by_cases hdry : opts.dryRun = true
  · simp only [hdry, if_true] at h
    obtain ⟨stored, hstored, h⟩ := Option.bind_eq_some_iff.mp h
    obtain ⟨layerRange, -, h⟩ := Option.bind_eq_some_iff.mp h
    obtain rfl := Option.some.inj h
    obtain rfl := Option.some.inj hstored
    exact ⟨_, rfl, d, hd, rfl, rfl, rfl, rfl⟩
  · simp only [hdry] at h
    obtain ⟨stored, hstored, h⟩ := Option.bind_eq_some_iff.mp h
    obtain ⟨layerRange, -, h⟩ := Option.bind_eq_some_iff.mp h
    obtain rfl := Option.some.inj h
    exact ⟨_, congrArg (· ++ _) (Emitted.bundles_store hstored), d, hd, rfl, rfl, rfl, rfl⟩

private theorem emitBundles_emits {g : Gguf} {opts : ChunkerOptions}
    {groups : List (BundleKey × List TensorIndexEntry)} {e e' : Emitted}
    (h : groups.foldlM (emitBundle ar ar32 hash g opts) e = some e') :
    ∃ bundles, e'.bundles = e.bundles ++ bundles ∧
      List.Forall₂ (Emits ar hash g) groups bundles := by
  induction groups generalizing e with
  | nil =>
      obtain rfl := Option.some.inj h
      exact ⟨[], by simp, .nil⟩
  | cons group groups ih =>
      rw [List.foldlM_cons] at h
      obtain ⟨e₁, hfirst, hrest⟩ := Option.bind_eq_some_iff.mp h
      obtain ⟨b, hb, hemits⟩ := emitBundle_emits hfirst
      obtain ⟨bundles, hbundles, hall⟩ := ih hrest
      refine ⟨b :: bundles, ?_, .cons hemits hall⟩
      rw [hbundles, hb, List.append_assoc]
      rfl

theorem emitChunks_emits {g : Gguf} {opts : ChunkerOptions} {header : Bytes}
    {groups : List (BundleKey × List TensorIndexEntry)} {files : Files} {e : Emitted}
    (h : emitChunks ar ar32 hash g opts header groups files = some e) :
    List.Forall₂ (Emits ar hash g) groups e.bundles := by
  unfold emitChunks at h
  have hfrom : ∀ {start : Emitted}, start.bundles = [] →
      groups.foldlM (emitBundle ar ar32 hash g opts) start = some e →
      List.Forall₂ (Emits ar hash g) groups e.bundles := by
    intro start hstart hrun
    obtain ⟨bundles, hbundles, hall⟩ := emitBundles_emits hrun
    rw [hbundles, hstart]
    exact hall
  by_cases hdry : opts.dryRun = true
  · simp only [hdry, if_true] at h
    obtain ⟨start, hstart, h⟩ := Option.bind_eq_some_iff.mp h
    obtain rfl := Option.some.inj hstart
    exact hfrom rfl h
  · simp only [hdry] at h
    obtain ⟨bytesWritten, -, h⟩ := Option.bind_eq_some_iff.mp h
    obtain ⟨start, hstart, h⟩ := Option.bind_eq_some_iff.mp h
    obtain rfl := Option.some.inj hstart
    exact hfrom rfl h

private theorem groups_names_nodup (ts : List TensorIndexEntry) :
    ((groups (fun t => (classifyTensor t.name).key) ts).map
      fun group => group.1.toKind.name).Nodup := by
  obtain ⟨kinds, hkinds, hsorted, -⟩ := groups_kinds ts
  rw [hkinds, List.map_map]
  have hkeys : (kinds.map fun k => k.1.key).Nodup := hsorted.imp fun hlt => ne_of_lt hlt
  have hnames : (fun group : BundleKey × List TensorIndexEntry => group.1.toKind.name) ∘
      (fun k : BundleKind × List TensorIndexEntry => (k.1.key, k.2)) = fun k => k.1.name := by
    funext k
    exact congrArg BundleKind.name k.1.toKind_key
  rw [hnames]
  have hcomp : (kinds.map fun k => k.1.name) = (kinds.map Prod.fst).map BundleKind.name := by
    rw [List.map_map]
    rfl
  rw [hcomp]
  refine List.Nodup.map BundleKind.name_injective (List.Nodup.of_map BundleKind.key ?_)
  rw [List.map_map]
  exact hkeys

theorem chunkGguf_lists (hmod : Modular ar) {m : Mmap} {opts : ChunkerOptions} {files : Files}
    {outcome : ChunkOutcome} {files' : Files}
    (h : chunkGguf ar ar32 hash json m opts files = .ok (outcome, files')) :
    outcome.manifest.Lists ar hash m := by
  obtain ⟨g, kvs, d, tensors, header, hg, -, -, -, hslice, h⟩ := chunkGguf_ok h
  obtain ⟨e, hemit, hmanifest, -⟩ := chunkParsed_ok h
  unfold Mmap.slice at hslice
  split_ifs at hslice with hout
  obtain rfl := Option.some.inj hslice
  have hle : g.tensorDataOffset ≤ m.bytes.length := by omega
  have hemits := emitChunks_emits hemit
  have hnames : e.bundles.map BundleEntry.name =
      (groups (fun t => (classifyTensor t.name).key) tensors).map
        fun group => group.1.toKind.name :=
    map_eq_of_forall₂ hemits fun _ _ hgroup => hgroup.choose_spec.2.1
  rw [hmanifest]
  refine ⟨⟨g, hg, hle, rfl, ?_⟩, ?_, ?_⟩
  · simp [parsedManifest, hle]
  · rw [parsedManifest, hnames]
    exact groups_names_nodup tensors
  · intro b hb
    obtain ⟨group, -, hgroup⟩ := exists_of_forall₂ hemits hb
    have hweighs := hgroup.weighs hmod
    obtain ⟨-, -, hname, -⟩ := hgroup
    exact ⟨⟨group.1.toKind, hname⟩, hweighs⟩

section Opens

variable (ar hash)

/-- Whether the stitcher comes to the bundles, with the header chunk at hand. -/
def reachesBundles (manifest : Manifest) (headerBytes : Bytes) : Bool :=
  let scratch := scratchGgufFromHeader headerBytes manifest.gguf.tensorDataOffset
  if hlt : scratch.length < 2 ^ 63 then
    headerBytes.length = manifest.headerChunk.size && manifest.architecture.isSome &&
      (Gguf.open ar ⟨scratch, hlt⟩).isOk
  else false

/-- The files of the bundles in the range, up to one that is missing or has another size. -/
def bundleOpens (files : Files) (cacheDir : Location) (range : StitchRange) :
    List BundleEntry → List Location
  | [] => []
  | b :: bundles =>
      match includesBundle range b.name with
      | .error _ => []
      | .ok false => bundleOpens files cacheDir range bundles
      | .ok true =>
          let p := chunksDirResolve files cacheDir b.cid
          match files.lookup p with
          | none => [p]
          | some bytes =>
              if bytes.length ≠ b.size then [p]
              else p :: bundleOpens files cacheDir range bundles

/-- The chunk files that `stitch_subset` opens. -/
def stitchOpens (files : Files) (manifest : Manifest) (cacheDir : Location) (range : StitchRange) :
    List Location :=
  match validateRange manifest range with
  | .error _ => []
  | .ok () =>
      chunksDirResolve files cacheDir manifest.headerChunk.cid ::
        match readCachedChunk hash files cacheDir manifest.headerChunk.cid with
        | .error _ => []
        | .ok headerBytes =>
            if reachesBundles ar manifest headerBytes then
              bundleOpens files cacheDir range manifest.bundles
            else []

end Opens

variable {files files' : Files} {cacheDir : Location} {range : StitchRange} {manifest : Manifest}

private theorem openBundles_included {b : BundleEntry} {bundles : List BundleEntry}
    (h : includesBundle range b.name = .ok true) :
    openBundles files cacheDir range (b :: bundles) =
      (match files.lookup (chunksDirResolve files cacheDir b.cid) with
        | none => .error (.missing (chunksDirResolve files cacheDir b.cid))
        | some bytes =>
            if bytes.length ≠ b.size then .error (.bundleSize b.name b.size bytes.length)
            else do
              let mmaps ← openBundles files cacheDir range bundles
              .ok ((b.cid, bytes) :: mmaps)) := by
  rw [openBundles, h]
  rfl

private theorem openBundles_congr
    (hresolve : ∀ cid, chunksDirResolve files' cacheDir cid = chunksDirResolve files cacheDir cid)
    {bundles : List BundleEntry}
    (h : ∀ p ∈ bundleOpens files cacheDir range bundles, files'.lookup p = files.lookup p) :
    openBundles files' cacheDir range bundles = openBundles files cacheDir range bundles := by
  induction bundles with
  | nil => rfl
  | cons b bundles ih =>
      rw [bundleOpens] at h
      cases hincludes : includesBundle range b.name with
      | error e => rw [openBundles, openBundles, hincludes]; rfl
      | ok included =>
          rw [hincludes] at h
          cases included with
          | false =>
              rw [openBundles, openBundles, hincludes]
              exact ih h
          | true =>
              rw [openBundles_included hincludes, openBundles_included hincludes, hresolve]
              cases hlookup : files.lookup (chunksDirResolve files cacheDir b.cid) with
              | none =>
                  simp only [hlookup] at h
                  rw [h _ List.mem_cons_self, hlookup]
              | some bytes =>
                  simp only [hlookup] at h
                  split_ifs at h with hsize
                  · rw [h _ List.mem_cons_self, hlookup]
                    exact (if_pos hsize).trans (if_pos hsize).symm
                  · rw [h _ List.mem_cons_self, hlookup]
                    rw [ih fun p hp => h p (List.mem_cons_of_mem _ hp)]

/-- The bundle's name says whether it is in the range, and if it is it is mapped. -/
def Opened (range : StitchRange) (mmaps : List (String × Bytes)) (b : BundleEntry) : Prop :=
  ∃ included, includesBundle range b.name = .ok included ∧
    (included = true → ∃ bytes, mmaps.lookup b.cid = some bytes ∧ bytes.length = b.size)

theorem openBundles_opened {bundles : List BundleEntry} {mmaps : List (String × Bytes)}
    (h : openBundles files cacheDir range bundles = .ok mmaps) :
    (∀ b ∈ bundles, Opened range mmaps b) ∧ ∀ cid bytes, mmaps.lookup cid = some bytes →
      files.lookup (chunksDirResolve files cacheDir cid) = some bytes := by
  induction bundles generalizing mmaps with
  | nil =>
      obtain rfl := Except.ok.inj h
      exact ⟨List.forall_mem_nil _, fun _ _ hb => by cases hb⟩
  | cons b bundles ih =>
      unfold openBundles at h
      obtain ⟨included, hincluded, h⟩ := bind_ok h
      cases included with
      | false =>
          obtain ⟨hopened, hfiles⟩ := ih h
          refine ⟨List.forall_mem_cons.mpr ⟨⟨false, hincluded, fun hf => by cases hf⟩, hopened⟩,
            hfiles⟩
      | true =>
          cases hlookup : files.lookup (chunksDirResolve files cacheDir b.cid) with
          | none =>
              simp only [if_true, hlookup] at h
              cases h
          | some bytes =>
              simp only [if_true, hlookup] at h
              split at h
              · cases h
              · rename_i hsize
                obtain ⟨rest, hrest, h⟩ := bind_ok h
                obtain rfl := Except.ok.inj h
                obtain ⟨hopened, hfiles⟩ := ih hrest
                have hall : ∀ cid bytes', ((b.cid, bytes) :: rest).lookup cid = some bytes' →
                    files.lookup (chunksDirResolve files cacheDir cid) = some bytes' := by
                  intro cid bytes' hcid
                  rw [List.lookup_cons] at hcid
                  split at hcid
                  · rename_i heq
                    rw [eq_of_beq heq, hlookup]
                    exact hcid
                  · exact hfiles cid bytes' hcid
                refine ⟨List.forall_mem_cons.mpr ⟨⟨true, hincluded, fun _ =>
                  ⟨bytes, List.lookup_cons_self, not_not.mp hsize⟩⟩, ?_⟩, hall⟩
                intro c hc
                obtain ⟨included, hc', hmapped⟩ := hopened c hc
                refine ⟨included, hc', fun ht => ?_⟩
                obtain ⟨bytes', hbytes', hlen⟩ := hmapped ht
                have hsome : ∃ bytes'', ((b.cid, bytes) :: rest).lookup c.cid = some bytes'' := by
                  rw [List.lookup_cons]
                  split
                  · exact ⟨bytes, rfl⟩
                  · exact ⟨bytes', hbytes'⟩
                obtain ⟨bytes'', hbytes''⟩ := hsome
                have hsame := (hall _ _ hbytes'').symm.trans (hfiles _ _ hbytes')
                exact ⟨bytes'', hbytes'', Option.some.inj hsame ▸ hlen⟩

theorem assemble_congr (ar : Arith) (hash : Hashing)
    (hresolve : ∀ cid, chunksDirResolve files' cacheDir cid = chunksDirResolve files cacheDir cid)
    (h : ∀ p ∈ stitchOpens ar hash files manifest cacheDir range,
      files'.lookup p = files.lookup p) :
    assemble ar hash files' manifest cacheDir range =
      assemble ar hash files manifest cacheDir range := by
  unfold stitchOpens at h
  cases hvalid : validateRange manifest range with
  | error e =>
      unfold assemble
      rw [hvalid]
      rfl
  | ok u =>
      simp only [hvalid] at h
      have hheader : readCachedChunk hash files' cacheDir manifest.headerChunk.cid =
          readCachedChunk hash files cacheDir manifest.headerChunk.cid := by
        unfold readCachedChunk
        rw [hresolve]
        dsimp only
        rw [h _ List.mem_cons_self]
      cases hread : readCachedChunk hash files cacheDir manifest.headerChunk.cid with
      | error e =>
          unfold assemble
          rw [hvalid, hheader, hread]
          rfl
      | ok headerBytes =>
          simp only [hread] at h
          by_cases hreach : reachesBundles ar manifest headerBytes = true
          · rw [if_pos hreach] at h
            have hopens : openBundles files' cacheDir range manifest.bundles =
                openBundles files cacheDir range manifest.bundles :=
              openBundles_congr hresolve fun p hp => h p (List.mem_cons_of_mem _ hp)
            unfold assemble
            rw [hheader, hopens]
          · unfold assemble
            rw [hvalid, hheader, hread]
            simp only [reachesBundles] at hreach
            simp only [ofStitch, bind, Except.bind]
            by_cases hsize : headerBytes.length = manifest.headerChunk.size
            · rw [if_neg (not_not.mpr hsize), if_neg (not_not.mpr hsize)]
              split_ifs at hreach ⊢ with hlt
              · cases hopen : Gguf.open ar ⟨scratchGgufFromHeader headerBytes
                    manifest.gguf.tensorDataOffset, hlt⟩ with
                | error e =>
                    cases e <;> rfl
                | ok g =>
                    have hnone : manifest.architecture = none := by
                      simpa [hsize, hopen, Except.isOk, Except.toBool] using hreach
                    simp only [ofReader, hnone]
              · rfl
            · rw [if_pos hsize, if_pos hsize]

inductive Assembles (ar : Arith) (hash : Hashing) (files : Files) (manifest : Manifest)
    (cacheDir : Location) (range : StitchRange) : Assembly → Prop
  | intro {headerBytes : Bytes} {original : Gguf} {kvArch : String} {mmaps : List (String × Bytes)}
      {kept : List KeptTensor} {kvs : List KvEntry} {newKv index header : Bytes}
      {offsets : List Nat} {dataOffset : Nat}
      (valid : validateRange manifest range = .ok ())
      (read : readCachedChunk hash files cacheDir manifest.headerChunk.cid = .ok headerBytes)
      (size : headerBytes.length = manifest.headerChunk.size)
      (fits : (scratchGgufFromHeader headerBytes manifest.gguf.tensorDataOffset).length < 2 ^ 63)
      (parsed : Gguf.open ar
        ⟨scratchGgufFromHeader headerBytes manifest.gguf.tensorDataOffset, fits⟩ = .ok original)
      (architecture : manifest.architecture = some kvArch)
      (opened : openBundles files cacheDir range manifest.bundles = .ok mmaps)
      (selected : keepTensors ar range mmaps manifest.bundles = .ok kept)
      (entries : original.kvEntries ar = .ok kvs)
      (rewritten : rewriteKvs headerBytes (kvArch ++ ".block_count") range 24 kvs = some newKv)
      (indexed : writeIndex ar (max manifest.gguf.alignment 1) 0 kept = some (index, offsets))
      (headed : header = ggufMagic ++ leBytes 4 manifest.gguf.ggufVersion ++
        leBytes 8 kept.length ++ leBytes 8 (kvs.length + 2) ++
        (newKv ++ writeKvBool "intelnav.has_embed" range.includeEmbed ++
          writeKvBool "intelnav.has_head" range.includeHead) ++ index)
      (aligned : alignUp ar header.length (max manifest.gguf.alignment 1) = some dataOffset) :
      Assembles ar hash files manifest cacheDir range
        { header := header ++ List.replicate (dataOffset - header.length) 0
          alignment := max manifest.gguf.alignment 1, dataOffset, tensors := kept.zip offsets
          nKv := kvs.length + 2 }

theorem assemble_ok {ar : Arith} {hash : Hashing} {a : Assembly}
    (h : assemble ar hash files manifest cacheDir range = .ok a) :
    Assembles ar hash files manifest cacheDir range a := by
  unfold assemble at h
  obtain ⟨u, hvalid, h⟩ := bind_ok h
  obtain ⟨headerBytes, hread, h⟩ := bind_ok h
  split at h
  · cases h
  · rename_i hsize
    dsimp only at h
    split at h
    · rename_i hfits
      obtain ⟨original, hparsed, h⟩ := bind_ok h
      split at h
      · cases h
      · rename_i kvArch harch
        obtain ⟨mmaps, hopened, h⟩ := bind_ok h
        obtain ⟨kept, hselected, h⟩ := bind_ok h
        split at h
        · cases h
        · obtain ⟨kvs, hentries, h⟩ := bind_ok h
          obtain ⟨newKv, hrewritten, h⟩ := bind_ok h
          obtain ⟨⟨index, offsets⟩, hindexed, h⟩ := bind_ok h
          obtain ⟨dataOffset, haligned, h⟩ := bind_ok h
          obtain rfl := Except.ok.inj h
          exact .intro (ofStitch_ok hvalid) (ofStitch_ok hread) (not_not.mp hsize) hfits
            (ofReader_ok hparsed) harch (ofStitch_ok hopened) hselected (ofReader_ok hentries)
            (ofPanic_ok hrewritten) (ofPanic_ok hindexed) rfl (ofPanic_ok haligned)
    · cases h

theorem Assembles.run {ar : Arith} {hash : Hashing} {a : Assembly}
    (h : Assembles ar hash files manifest cacheDir range a) (hne : a.tensors ≠ []) :
    assemble ar hash files manifest cacheDir range = .ok a := by
  obtain ⟨hvalid, hread, hsize, hfits, hparsed, harch, hopened, hselected, hentries, hrewritten,
    hindexed, rfl, haligned⟩ := h
  rename_i kept kvs newKv index offsets dataOffset
  have hkept : kept ≠ [] := by
    rintro rfl
    exact hne rfl
  unfold assemble
  simp only [hvalid, hread, hsize, hparsed, harch, hopened, hselected, hentries, hrewritten,
    hindexed, haligned, hkept, hfits, ofStitch, ofReader, ofPanic, bind, Except.bind, ne_eq,
    not_true_eq_false, if_false, dif_pos]
  rfl

theorem stitchSubset_ok {ar : Arith} {hash : Hashing} {outPath : Location} {outcome : StitchOutcome}
    (h : stitchSubset ar hash manifest cacheDir range outPath files = (.ok outcome, files')) :
    ∃ a out, assemble ar hash files manifest cacheDir range = .ok a ∧
      writeTensors ar a.alignment a.dataOffset a.header a.tensors = (out, .ok ()) ∧
      outcome = ⟨outPath, out.length, a.tensors.length, a.nKv⟩ ∧
      files' = renameFile (files.insert (withExtension outPath "gguf.tmp") out)
        (withExtension outPath "gguf.tmp") outPath := by
  unfold stitchSubset at h
  split at h
  · cases h
  · rename_i a hassemble
    generalize hwrite : writeTensors ar a.alignment a.dataOffset a.header a.tensors = w at h
    obtain ⟨out, written⟩ := w
    dsimp only at h
    cases written with
    | error e => cases h
    | ok =>
        obtain ⟨houtcome, hfiles⟩ := Prod.mk.inj h
        exact ⟨a, out, hassemble, hwrite, (Except.ok.inj houtcome).symm, hfiles.symm⟩

end IntelNav.ModelStore
