import IntelNav.App.Announced

/-! Which slices contributions leave in the sidecars: the ranges reported as done, and the ranges
that a scan of the shard directories finds. -/

set_option autoImplicit false
set_option relaxedAutoImplicit false

namespace IntelNav.App

open IntelNav.Disk IntelNav.ModelStore IntelNav.Net IntelNav.Reading

structure Contributed where
  files : Files
  reported : List SliceKey

def SplitEvent.doneRanges : SplitEvent → List (UInt16 × UInt16)
  | .done _ _ _ kept _ => kept
  | _ => []

def SwarmPullEvent.doneRanges : SwarmPullEvent → List (UInt16 × UInt16)
  | .done kept _ => kept
  | _ => []

section Report

variable (ar ar32 : Arith) (hash : Hashing) (json : ManifestJson) (side : SidecarJson)
  (modelsDir : Location)

/-- The slices of the `Done` events of a contribution. -/
def reportedBy (files : Files) : Contribution → List SliceKey
  | .split entry path gguf =>
      let events := (startSplit ar ar32 hash json side entry path gguf modelsDir files).1
      (events.flatMap SplitEvent.doneRanges).map fun r => (entry.modelCid, r)
  | .pull modelCid range provider server =>
      let events := (startPull hash json side modelCid range provider modelsDir server files).1
      (events.flatMap SwarmPullEvent.doneRanges).map fun r => (modelCid, r)

def contributeNext (s : Contributed) (c : Contribution) : Option Contributed :=
  (contribute ar ar32 hash json side modelsDir s.files c).map fun files =>
    ⟨files, s.reported ++ reportedBy ar ar32 hash json side modelsDir s.files c⟩

/-- The ranges reported as done are among those a scan returns, in whatever order it goes. -/
def AllHosted (s : Contributed) : Prop :=
  ∀ key ∈ s.reported, ∀ scan : Listing s.files (join modelsDir ".shards"),
    ∃ k ∈ scanKeptRanges (shardsOnDisk side s.files (join modelsDir ".shards") scan.names)
      scan.names, k.modelCid = key.1 ∧ key.2 ∈ k.kept

/-- The ranges take in all of the sidecar they replace, and none of them is disabled. -/
def Widens (files : Files) (root : Location) (ranges : List (UInt16 × UInt16)) : Prop :=
  (∀ r ∈ ranges, (loadDisabled side files root).contains r.1 r.2 = false) ∧
    ∀ bytes k, files.lookup (root ++ ["kept_ranges.json"]) = some bytes →
      side.keptFromBytes bytes = some k → ∀ r ∈ k.kept, r ∈ ranges

/-- A contribution that takes nothing back: the model CID is a plain name, the ranges widen those
kept before, the path of a split is text, and a pull names no chunk outside its directory. -/
def TakesNothingBack (s : Contributed) : Contribution → Prop
  | .split entry path _ =>
      PlainName entry.modelCid ∧ path.toStr.isSome ∧
        Widens side s.files (shardDir modelsDir entry.modelCid) (defaultKeptRanges entry)
  | .pull modelCid range _ server =>
      PlainName modelCid ∧ Widens side s.files (shardDir modelsDir modelCid) [range] ∧
        ∀ bytes manifest wanted, server.sentManifest = some bytes →
          json.fromJsonBytes bytes = some manifest → rangeChunks manifest range = .ok wanted →
          ∀ c ∈ wanted, '/' ∉ c.cid.toList

end Report

variable {ar ar32 : Arith} {hash : Hashing} {json : ManifestJson} {side : SidecarJson}
  {modelsDir root : Location} {files files' : Files}

/-- The sidecar names the slice, and nothing disables it. -/
structure Kept (side : SidecarJson) (modelsDir : Location) (files : Files) (key : SliceKey) :
    Prop where
  plain : PlainName key.1
  sidecar : ∃ k : KeptRanges, files.lookup (shardDir modelsDir key.1 ++ ["kept_ranges.json"]) =
    some (side.keptToBytes k) ∧ k.modelCid = key.1 ∧ key.2 ∈ k.kept
  enabled : (loadDisabled side files (shardDir modelsDir key.1)).contains key.2.1 key.2.2 = false

theorem sidecar_scanned (hside : side.RoundTrips) {k : KeptRanges} (hplain : PlainName k.modelCid)
    (hlookup : files.lookup (shardDir modelsDir k.modelCid ++ ["kept_ranges.json"]) =
      some (side.keptToBytes k)) {r : UInt16 × UInt16} (hmem : r ∈ k.kept)
    (henabled : (loadDisabled side files (shardDir modelsDir k.modelCid)).contains r.1 r.2 = false)
    (scan : Listing files (join modelsDir ".shards")) :
    k.retain (loadDisabled side files (shardDir modelsDir k.modelCid)) ∈
        scanKeptRanges (shardsOnDisk side files (join modelsDir ".shards") scan.names) scan.names ∧
      r ∈ (k.retain (loadDisabled side files (shardDir modelsDir k.modelCid))).kept := by
  have hretained :
    r ∈ (k.retain (loadDisabled side files (shardDir modelsDir k.modelCid))).kept := by
    rw [KeptRanges.retain, List.mem_filter]
    exact ⟨hmem, by rw [henabled]; rfl⟩
  refine ⟨?_, hretained⟩
  rw [shardDir_plain hplain] at hlookup henabled hretained ⊢
  have hname : k.modelCid ∈ scan.names := by
    rw [scan.mem_iff]
    rw [List.append_assoc] at hlookup
    exact ⟨["kept_ranges.json"], Option.isSome_iff_exists.mpr ⟨_, hlookup⟩⟩
  set disk := shardsOnDisk side files (join modelsDir ".shards") scan.names
  have hdisk : disk.lookup k.modelCid = some _ := shardsOnDisk_lookup hname
  have hkept : disk.kept k.modelCid = some k := by
    rw [Shards.kept, hdisk, Option.bind_some]
    dsimp only
    rw [join_plain plain_kept, hlookup, Option.bind_some, hside.kept]
  have hdisabled : disk.loadDisabled k.modelCid =
      loadDisabled side files (join modelsDir ".shards" ++ [k.modelCid]) := by
    rw [Shards.loadDisabled, hdisk, Option.bind_some]
    rfl
  refine List.mem_filterMap.mpr ⟨k.modelCid, hname, ?_⟩
  rw [hkept, Option.bind_some, hdisabled, if_neg (List.ne_nil_of_mem hretained)]

theorem Kept.scanned (hside : side.RoundTrips) {key : SliceKey}
    (h : Kept side modelsDir files key) (scan : Listing files (join modelsDir ".shards")) :
    ∃ k ∈ scanKeptRanges (shardsOnDisk side files (join modelsDir ".shards") scan.names) scan.names,
      k.modelCid = key.1 ∧ key.2 ∈ k.kept := by
  obtain ⟨hplain, ⟨k, hlookup, hcid, hmem⟩, henabled⟩ := h
  rw [← hcid] at hplain hlookup henabled
  obtain ⟨hscanned, hretained⟩ := sidecar_scanned hside hplain hlookup hmem henabled scan
  exact ⟨_, hscanned, hcid, hretained⟩

theorem Kept.congr {key : SliceKey} (h : Kept side modelsDir files key)
    (hsame : ∀ name, name = "kept_ranges.json" ∨ name = "disabled_ranges.json" →
      files'.lookup (shardDir modelsDir key.1 ++ [name]) =
        files.lookup (shardDir modelsDir key.1 ++ [name])) :
    Kept side modelsDir files' key := by
  refine ⟨h.plain, ?_, ?_⟩
  · rw [hsame _ (.inl rfl)]
    exact h.sidecar
  · have hdisabled := hsame _ (.inr rfl)
    rw [← join_plain plain_disabled] at hdisabled
    rw [loadDisabled, hdisabled]
    exact h.enabled

/-- Once the sidecar of a model is replaced by a wider one, its slices are kept, the old and the new
ones, and those of the other models stay. -/
private theorem Kept.widened {modelCid : String} (hplain : PlainName modelCid)
    (hside : side.RoundTrips) {k : KeptRanges} (hcid : k.modelCid = modelCid)
    (hwidens : Widens side files (shardDir modelsDir modelCid) k.kept)
    (hframe : AgreeOff (fun p => shardDir modelsDir modelCid <+: p) files files')
    (hdisabled : files'.lookup (shardDir modelsDir modelCid ++ ["disabled_ranges.json"]) =
      files.lookup (shardDir modelsDir modelCid ++ ["disabled_ranges.json"]))
    (hkept : files'.lookup (shardDir modelsDir modelCid ++ ["kept_ranges.json"]) =
      some (side.keptToBytes k)) {key : SliceKey}
    (hkey : Kept side modelsDir files key ∨ ∃ r ∈ k.kept, key = (modelCid, r)) :
    Kept side modelsDir files' key := by
  obtain ⟨henabled, hwider⟩ := hwidens
  have hnew : ∀ r ∈ k.kept, Kept side modelsDir files' (modelCid, r) := by
    intro r hr
    refine ⟨hplain, ⟨k, hkept, hcid, hr⟩, ?_⟩
    rw [← join_plain plain_disabled] at hdisabled
    rw [loadDisabled, hdisabled]
    exact henabled r hr
  rcases hkey with hold | ⟨r, hr, rfl⟩
  · by_cases hmodel : key.1 = modelCid
    · obtain ⟨k₀, hlookup, -, hmem⟩ := hold.sidecar
      rw [hmodel] at hlookup
      have hr := hwider _ k₀ hlookup (hside.kept k₀) key.2 hmem
      have hkey := hnew key.2 hr
      rw [← hmodel] at hkey
      exact hkey
    · refine hold.congr fun name _ => hframe _ ?_
      rintro ⟨rest, hrest⟩
      rw [shardDir_plain hplain, shardDir_plain hold.plain, List.append_assoc,
        List.append_assoc] at hrest
      exact hmodel (List.cons.inj (List.append_cancel_left hrest)).1.symm
  · exact hnew r hr

private theorem split_keeps (hside : side.RoundTrips) {entry : CatalogEntry} {path : PathBuf}
    {gguf : Mmap} (hplain : PlainName entry.modelCid) (htext : path.toStr.isSome)
    (hwidens : Widens side files (shardDir modelsDir entry.modelCid) (defaultKeptRanges entry))
    {key : SliceKey} (hkey : Kept side modelsDir files key ∨
      key ∈ reportedBy ar ar32 hash json side modelsDir files (.split entry path gguf)) :
    Kept side modelsDir (startSplit ar ar32 hash json side entry path gguf modelsDir files).2
      key := by
  simp only [reportedBy, List.mem_map, List.mem_flatMap] at hkey
  rcases startSplit_cases ar ar32 hash json side entry path gguf modelsDir files with
    ⟨hundone, hsame⟩ | ⟨outcome, files₁, -, hsplit, hdone⟩
  · rw [hsame]
    refine hkey.resolve_right ?_
    rintro ⟨r, ⟨event, hevent, hr⟩, rfl⟩
    cases event with
    | done c n b kept root => exact hundone c n b kept root hevent
    | started _ _ => cases hr
    | error _ => cases hr
  · rw [hdone] at hkey ⊢
    have hprefix : ∀ p, ChunkerPlace (shardDir modelsDir entry.modelCid) p →
        shardDir modelsDir entry.modelCid <+: p := by
      rintro p (_ | _)
      · exact List.prefix_append _ _
      · exact List.prefix_append _ _
    obtain ⟨k, hsidecar, hcid, hk⟩ := splitSidecar_text side entry htext
    rw [hsidecar]
    refine Kept.widened hplain hside hcid (hk ▸ hwidens) ((hsplit.frame.mono hprefix).trans
      (agreeOff_insert (List.prefix_append _ _) _ _)) ?_ (AList.lookup_insert _) ?_
    · rw [AList.lookup_insert_ne (by simp)]
      exact hsplit.frame _ (not_chunkerPlace_entry _ (by decide))
    · refine hkey.imp_right ?_
      rintro ⟨r, ⟨event, hevent, hr⟩, rfl⟩
      simp only [List.mem_cons, List.not_mem_nil, or_false] at hevent
      rcases hevent with rfl | rfl
      · cases hr
      · exact ⟨r, hk ▸ hr, rfl⟩

theorem startPull_reports {modelCid : String} {range : UInt16 × UInt16} {provider : ProviderRecord}
    {server : ChunkServer} {kept : List (UInt16 × UInt16)} {dir : Location}
    (hdone : .done kept dir ∈
      (startPull hash json side modelCid range provider modelsDir server files).1) :
    kept = [range] := by
  unfold startPull at hdone
  dsimp only at hdone
  split at hdone
  · split at hdone
    · simp at hdone
    · split at hdone
      · simp at hdone
      · simp at hdone
        exact hdone.1
  · simp at hdone

private theorem pull_keeps (hbase : hash.Base32) (hside : side.RoundTrips) {modelCid : String}
    {range : UInt16 × UInt16} {provider : ProviderRecord} {server : ChunkServer}
    (hplain : PlainName modelCid)
    (hwidens : Widens side files (shardDir modelsDir modelCid) [range])
    (hchunks : ∀ bytes manifest wanted, server.sentManifest = some bytes →
      json.fromJsonBytes bytes = some manifest → rangeChunks manifest range = .ok wanted →
      ∀ c ∈ wanted, '/' ∉ c.cid.toList) {key : SliceKey}
    (hkey : Kept side modelsDir files key ∨ key ∈ reportedBy ar ar32 hash json side modelsDir files
      (.pull modelCid range provider server)) :
    Kept side modelsDir
      (startPull hash json side modelCid range provider modelsDir server files).2 key := by
  simp only [reportedBy, List.mem_map, List.mem_flatMap] at hkey
  have hrun : startPull hash json side modelCid range provider modelsDir server files = (_, _) :=
    Prod.mk.eta.symm
  have hreports : ∀ kept root, SwarmPullEvent.done kept root ∈
      (startPull hash json side modelCid range provider modelsDir server files).1 →
      kept = [range] := fun kept root hmem => startPull_reports hmem
  set events := (startPull hash json side modelCid range provider modelsDir server files).1
  set files' := (startPull hash json side modelCid range provider modelsDir server files).2
  by_cases hdone : ∃ kept shardRoot, SwarmPullEvent.done kept shardRoot ∈ events
  · obtain ⟨kept, shardRoot, hmem⟩ := hdone
    obtain ⟨bytes, manifest, wanted, fetched, hpulled⟩ := startPull_done hbase hrun hmem
    have hframe := hpulled.outside
    have hsidecar := hpulled.keeps_ranges
    rw [join_plain plain_kept] at hsidecar
    refine Kept.widened hplain hside (k := pulledRanges modelCid range manifest) rfl hwidens
      (hframe.mono fun p hp => hp.within) (hframe _ (not_pullPlace_entry (by decide) (by decide)))
      hsidecar (hkey.imp_right ?_)
    rintro ⟨r, ⟨event, hevent, hr⟩, rfl⟩
    cases event with
    | done kept root =>
        obtain rfl := hreports kept root hevent
        exact ⟨r, hr, rfl⟩
    | started _ _ | manifestOk _ _ | chunksDone _ _ | error _ => cases hr
  · have hundone : ∀ kept shardRoot, SwarmPullEvent.done kept shardRoot ∉ events :=
      fun kept shardRoot hmem => hdone ⟨kept, shardRoot, hmem⟩
    obtain ⟨manifestCid, hframe⟩ := startPull_undone hbase hrun hundone hchunks
    have hold : Kept side modelsDir files key := by
      refine hkey.resolve_right ?_
      rintro ⟨r, ⟨event, hevent, hr⟩, rfl⟩
      cases event with
      | done kept root => exact hundone kept root hevent
      | started _ _ | manifestOk _ _ | chunksDone _ _ | error _ => cases hr
    refine hold.congr fun name _ => ?_
    by_cases hmodel : key.1 = modelCid
    · rw [hmodel]
      exact hframe _ (not_fetchPlace_entry _ _ _)
    · refine hframe _ fun hplace => ?_
      obtain ⟨rest, hrest⟩ := hplace.pullPlace.within
      rw [shardDir_plain hplain, shardDir_plain hold.plain, List.append_assoc,
        List.append_assoc] at hrest
      exact hmodel (List.cons.inj (List.append_cancel_left hrest)).1.symm

theorem contributeNext_keeps (hbase : hash.Base32) (hside : side.RoundTrips) {s s' : Contributed}
    {c : Contribution} (h : ∀ key ∈ s.reported, Kept side modelsDir s.files key)
    (hok : TakesNothingBack json side modelsDir s c)
    (hstep : contributeNext ar ar32 hash json side modelsDir s c = some s') :
    ∀ key ∈ s'.reported, Kept side modelsDir s'.files key := by
  obtain ⟨files', hfiles, rfl⟩ := Option.map_eq_some_iff.mp hstep
  intro key hkey
  have hkey' := (List.mem_append.mp hkey).imp_left (h key)
  cases c with
  | split entry path gguf =>
      obtain rfl := Option.some.inj hfiles
      exact split_keeps hside hok.1 hok.2.1 hok.2.2 hkey'
  | pull modelCid range provider server =>
      obtain rfl := Option.some.inj hfiles
      exact pull_keeps hbase hside hok.1 hok.2.1 hok.2.2 hkey'

/-- In every run of contributions that take nothing back, all that was reported is hosted. -/
theorem contributed_hosted (ar ar32 : Arith) (hash : Hashing) (json : ManifestJson)
    (side : SidecarJson) (hbase : hash.Base32) (hside : side.RoundTrips) (modelsDir : Location)
    (start : Files) (contributions : List Contribution) (s : Contributed)
    (hrun : Transition.Run (contributeNext ar ar32 hash json side modelsDir)
      (TakesNothingBack json side modelsDir) ⟨start, []⟩ contributions s) :
    AllHosted side modelsDir s := by
  have hkept : ∀ key ∈ s.reported, Kept side modelsDir s.files key :=
    hrun.invariant (by simp) fun x c y hx hok hstep => contributeNext_keeps hbase hside hx hok hstep
  intro key hkey scan
  exact (hkept key hkey).scanned hside scan

/-! A second range of one model. -/

private theorem not_allHosted (hside : side.RoundTrips) {s : Contributed} {key : SliceKey}
    (hkey : key ∈ s.reported) (hnone : ∀ name bytes,
      s.files.lookup (join modelsDir ".shards" ++ [name] ++ ["kept_ranges.json"]) = some bytes →
        ∃ k : KeptRanges, bytes = side.keptToBytes k ∧ key.2 ∉ k.kept) :
    ¬ AllHosted side modelsDir s := by
  intro hhosted
  obtain ⟨k, hk, -, hmem⟩ := hhosted key hkey (Listing.of _ _)
  obtain ⟨name, hname, hk⟩ := List.mem_filterMap.mp hk
  obtain ⟨k₀, hkept, hk⟩ := Option.bind_eq_some_iff.mp hk
  obtain ⟨-, hk⟩ := Option.ite_none_left_eq_some.mp hk
  obtain rfl := Option.some.inj hk
  rw [Shards.kept, shardsOnDisk_lookup hname, Option.bind_some] at hkept
  obtain ⟨b, hb, hparsed⟩ := Option.bind_eq_some_iff.mp hkept
  rw [join_plain plain_kept] at hb
  obtain ⟨k₁, rfl, hnot⟩ := hnone name b hb
  rw [hside.kept] at hparsed
  obtain rfl := Option.some.inj hparsed
  exact hnot (List.mem_filter.mp hmem).1

private theorem Pulled.takes_back (hside : side.RoundTrips) {modelCid : String}
    (hplain : PlainName modelCid)
    {range : UInt16 × UInt16} {provider : ProviderRecord} {server : ChunkServer}
    {events : List SwarmPullEvent} {bytes : Bytes} {manifest : Manifest} {wanted : List Chunk}
    {fetched : Files} (h : Pulled hash json side modelCid range provider
      (shardDir modelsDir modelCid) server files events files' bytes manifest wanted fetched)
    (honly : AgreeOff (fun p => shardDir modelsDir modelCid <+: p) ∅ files) (key : SliceKey)
    {reported : List SliceKey} (hkey : key ∈ reported) (hne : key.2 ≠ range) :
    ¬ AllHosted side modelsDir ⟨files', reported⟩ := by
  have hsidecar := h.keeps_ranges
  rw [join_plain plain_kept, shardDir_plain hplain] at hsidecar
  refine not_allHosted hside hkey fun name b hb => ?_
  dsimp only at hb
  by_cases hname : name = modelCid
  · rw [hname, hsidecar] at hb
    exact ⟨_, (Option.some.inj hb).symm, fun hmem => hne (List.mem_singleton.mp hmem)⟩
  · have hframe := honly.trans (h.outside.mono fun p hp => hp.within)
    rw [hframe, AList.lookup_empty] at hb
    · cases hb
    · rintro ⟨rest, hrest⟩
      rw [shardDir_plain hplain, List.append_assoc, List.append_assoc] at hrest
      exact hname (List.cons.inj (List.append_cancel_left hrest)).1.symm

def wholeEntry : CatalogEntry where
  modelCid := "qwen2"
  displayName := "Qwen"
  blockCount := 2
  defaultSplits := []

/-- After a split of the whole model, a pull of one layer leaves nothing but this layer. -/
theorem pull_takes_back :
    ∃ s₁ s₂, contributeNext release release32 longHash oneLayerJson prettySidecars ["models"]
        ⟨∅, []⟩ (.split wholeEntry (utf8 "/models/qwen2.gguf") twinFile) = some s₁ ∧
      contributeNext release release32 longHash oneLayerJson prettySidecars ["models"] s₁
        (.pull "qwen2" (0, 1) oneLayerProvider oneLayerServer) = some s₂ ∧
      ("qwen2", 0, 2) ∈ s₂.reported ∧ ¬ AllHosted prettySidecars ["models"] s₂ := by
  obtain ⟨outcome, files₁, hsplit, hrun⟩ :=
    startSplit_empty oneLayerJson wholeEntry "/models/qwen2.gguf" ["models"]
  have hentry : wholeEntry.modelCid = "qwen2" := rfl
  have hplain : PlainName "qwen2" := ⟨by decide, by decide, by decide, by decide⟩
  rw [hentry] at hsplit hrun
  set root := shardDir ["models"] "qwen2" with hroot
  set files := files₁.insert (root ++ ["kept_ranges.json"]) (prettySidecars.keptToBytes
    ⟨"qwen2", wholeEntry.displayName, wholeEntry.blockCount, "/models/qwen2.gguf",
      defaultKeptRanges wholeEntry⟩) with hfiles
  have hsplitPlace : AgreeOff (fun p => ChunkerPlace root p ∨ p = root ++ ["kept_ranges.json"])
      ∅ files :=
    (hsplit.frame.mono fun p hp => .inl hp).trans (agreeOff_insert (.inr rfl) _ _)
  have honly : AgreeOff (fun p => root <+: p) ∅ files := by
    refine hsplitPlace.mono ?_
    rintro p ((_ | _) | rfl)
    · exact List.prefix_append _ _
    · exact List.prefix_append _ _
    · exact List.prefix_append _ _
  have hfresh : ∀ p, files.lookup (root ++ longHash.cidStringFor (utf8 oneLayer.pretty) ::
      "chunks" :: p) = none := by
    intro p
    rw [hsplitPlace, AList.lookup_empty]
    rintro (hplace | hplace)
    · generalize hq : root ++ longHash.cidStringFor (utf8 oneLayer.pretty) :: "chunks" :: p = q
        at hplace
      cases hplace
      all_goals
        have hnames := List.append_cancel_left hq
        simp at hnames
      exact oneLayer_cid_ne_chunks hnames.1
    · have hnames := List.append_cancel_left hplace
      simp at hnames
  have hdone := oneLayer_done oneLayerJson_parses oneLayerProvider rfl rfl hfresh
  obtain ⟨bytes, manifest, wanted, fetched, hpulled⟩ :=
    startPull_done longHash_base32 Prod.mk.eta.symm hdone
  refine ⟨⟨files, [("qwen2", 0, 2)]⟩, ⟨_, _⟩, ?_, rfl, ?_, ?_⟩
  · simp only [contributeNext, contribute, reportedBy, hrun, hentry]
    rfl
  · exact List.mem_append_left _ (List.mem_singleton.mpr rfl)
  · exact hpulled.takes_back prettySidecars_roundTrips hplain honly ("qwen2", 0, 2)
      (List.mem_append_left _ (List.mem_singleton.mpr rfl)) (by decide)

/-- One split is hosted. -/
theorem contributed_hosted_split :
    ∃ s, contributeNext release release32 longHash prettyJson prettySidecars ["models"] ⟨∅, []⟩
        (.split twinEntry (utf8 "/models/twins.gguf") twinFile) = some s ∧
      ("twins", 0, 1) ∈ s.reported ∧ AllHosted prettySidecars ["models"] s := by
  obtain ⟨outcome, files, hsplit, hrun⟩ :=
    startSplit_empty prettyJson twinEntry "/models/twins.gguf" ["models"]
  obtain ⟨s, hnext, hreported⟩ : ∃ s, contributeNext release release32 longHash prettyJson
      prettySidecars ["models"] ⟨∅, []⟩ (.split twinEntry (utf8 "/models/twins.gguf") twinFile) =
        some s ∧
        s.reported = [("twins", 0, 1)] := by
    simp only [contributeNext, contribute, reportedBy, hrun]
    exact ⟨_, rfl, rfl⟩
  refine ⟨s, hnext, by rw [hreported]; exact List.mem_singleton.mpr rfl, ?_⟩
  have hfresh : TakesNothingBack prettyJson prettySidecars ["models"] ⟨∅, []⟩
      (.split twinEntry (utf8 "/models/twins.gguf") twinFile) := by
    refine ⟨plain_twins, ?_, fun r _ => rfl, fun bytes k hbytes => ?_⟩
    · rw [PathBuf.toStr_utf8]
      rfl
    rw [AList.lookup_empty] at hbytes
    cases hbytes
  exact contributed_hosted release release32 longHash prettyJson prettySidecars longHash_base32
    prettySidecars_roundTrips ["models"] ∅ [.split twinEntry (utf8 "/models/twins.gguf") twinFile] _
    (.snoc .nil hfresh hnext)

end IntelNav.App
