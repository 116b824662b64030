import IntelNav.App.Catalog
import IntelNav.App.HostedRanges
import IntelNav.Ranking.Keep

/-! The gate before the chat (`crates/app/src/gate.rs`): who may pass as a host, and the slice that
is suggested to the others. -/

set_option autoImplicit false
set_option relaxedAutoImplicit false

namespace IntelNav.App

open IntelNav.Disk IntelNav.ModelStore IntelNav.Net IntelNav.Ranking IntelNav.Reading
open Downloads (Fit HubEntry catalog fitFor saturatingMul)

inductive HardwareTier
  | capable
  | modest
  | constrained
  deriving DecidableEq

inductive GatePass
  | hosting
  | relay
  deriving DecidableEq

structure Suggestion where
  entry : HubEntry
  range : UInt16 × UInt16
  fit : Fit
  deriving DecidableEq

inductive GateState
  | pass (how : GatePass)
  | needsContribution (suggestion : Option Suggestion) (tier : HardwareTier)
  deriving DecidableEq

/-- What a split takes of the entry; the text of a CID is the first letters of a longer one. -/
def splitOf (cidText : String → String) (entry : HubEntry) : CatalogEntry where
  modelCid := entry.modelCid cidText
  displayName := entry.displayName
  blockCount := entry.blockCount
  defaultSplits := entry.defaultSplits

def span (r : UInt16 × UInt16) : Nat := (r.2 - r.1).toNat

/-- The part of the memory of a model that goes to a range of its layers. -/
def sliceRam (entry : HubEntry) (r : UInt16 × UInt16) : Nat :=
  saturatingMul entry.ramBytesMin (span r) / max entry.blockCount.toNat 1

/-- Comfortable before tight, then the smaller model, then the smaller slice. -/
def better (prev candidate : Suggestion) : Bool :=
  match prev.fit, candidate.fit with
  | .tight, .fits => true
  | .fits, .tight => false
  | _, _ =>
      if candidate.entry.sizeBytes ≠ prev.entry.sizeBytes then
        decide (candidate.entry.sizeBytes < prev.entry.sizeBytes)
      else decide (span candidate.range < span prev.range)

def bestSuggestion (entries : List HubEntry) (free : Nat) : Option Suggestion :=
  entries.foldl (fun best entry =>
    entry.swarmRanges.foldl (fun best range =>
      let fit := fitFor (sliceRam entry range) free
      if fit = .tooBig then best
      else
        let candidate : Suggestion := ⟨entry, range, fit⟩
        some (match best with
          | none => candidate
          | some prev => if better prev candidate then candidate else prev)) best) none

def classifyHardware (entries : List HubEntry) (free : Nat) : HardwareTier :=
  if entries.any fun entry => decide (4 * 1024 * 1024 * 1024 ≤ entry.sizeBytes) &&
      decide (entry.ramBytesMin ≤ free) then .capable
  else if 1024 * 1024 * 1024 ≤ free then .modest
  else .constrained

section Check

variable (side : SidecarJson) (modelsDir : Location)

/-- A sidecar names a range that is not disabled; one that does not parse is passed over. -/
def hostsAnySlice (files : Files) (names : List String) : Bool :=
  names.any fun name =>
    let root := join modelsDir ".shards" ++ [name]
    match (files.lookup (join root "kept_ranges.json")).bind side.keptFromBytes with
    | none => false
    | some k => k.kept.any fun r => !(loadDisabled side files root).contains r.1 r.2

/-- `check` on a disk whose shard directories have these names. -/
def check (relayOnly : Bool) (free : Nat) (files : Files) (names : List String) : GateState :=
  if hostsAnySlice side modelsDir files names then .pass .hosting
  else if relayOnly then .pass .relay
  else .needsContribution (bestSuggestion catalog free) (classifyHardware catalog free)

end Check

variable {side : SidecarJson} {modelsDir : Location} {files : Files}

private theorem hostsAnySlice_iff (names : List String) :
    hostsAnySlice side modelsDir files names = true ↔
      scanKeptRanges (shardsOnDisk side files (join modelsDir ".shards") names) names ≠ [] := by
  set disk := shardsOnDisk side files (join modelsDir ".shards") names with hdisk
  have hsidecar : ∀ name ∈ names,
      disk.kept name = (files.lookup (join (join modelsDir ".shards" ++ [name])
        "kept_ranges.json")).bind side.keptFromBytes ∧
      disk.loadDisabled name = loadDisabled side files (join modelsDir ".shards" ++ [name]) := by
    intro name hname
    have hlookup : disk.lookup name = some _ := shardsOnDisk_lookup hname
    constructor
    · rw [Shards.kept, hlookup, Option.bind_some]
    · rw [Shards.loadDisabled, hlookup, Option.bind_some]
      rfl
  have hone : ∀ (k : KeptRanges) (d : DisabledRanges),
      (k.kept.any fun r => !d.contains r.1 r.2) = true ↔ (k.retain d).kept ≠ [] := by
    intro k d
    rw [KeptRanges.retain, Ne, List.filter_eq_nil_iff, List.any_eq_true]
    push Not
    rfl
  rw [hostsAnySlice, List.any_eq_true, scanKeptRanges, Ne, List.filterMap_eq_nil_iff]
  push Not
  apply exists_congr
  intro name
  apply and_congr_right
  intro hname
  obtain ⟨hkept, hdisabled⟩ := hsidecar name hname
  rw [hkept, hdisabled]
  dsimp only
  cases (files.lookup (join (join modelsDir ".shards" ++ [name]) "kept_ranges.json")).bind
      side.keptFromBytes with
  | none => simp
  | some k =>
      rw [Option.bind_some, hone]
      by_cases hnil : (k.retain (loadDisabled side files
          (join modelsDir ".shards" ++ [name]))).kept = []
      · simp [hnil]
      · simp [hnil]

theorem Kept.passes (hside : side.RoundTrips) {key : SliceKey}
    (h : Kept side modelsDir files key) (scan : Listing files (join modelsDir ".shards"))
    (relayOnly : Bool) (free : Nat) :
    check side modelsDir relayOnly free files scan.names = .pass .hosting := by
  obtain ⟨k, hk, -, -⟩ := h.scanned hside scan
  have hhosts : hostsAnySlice side modelsDir files scan.names = true := by
    rw [hostsAnySlice_iff]
    exact List.ne_nil_of_mem hk
  rw [check, if_pos hhosts]

def slicesOf (free : Nat) (entry : HubEntry) : List Suggestion :=
  entry.swarmRanges.map fun r => ⟨entry, r, fitFor (sliceRam entry r) free⟩

/-- The slices that fit, in the order of the entries and of their splits. -/
def slices (entries : List HubEntry) (free : Nat) : List Suggestion :=
  entries.flatMap fun entry => (slicesOf free entry).filter fun s => decide (s.fit ≠ .tooBig)

private theorem bestSuggestion_eq (entries : List HubEntry) (free : Nat) :
    bestSuggestion entries free = (slices entries free).foldl (keep better) none := by
  rw [bestSuggestion, slices, List.foldl_flatMap]
  congr 1
  funext best entry
  rw [List.foldl_filter, slicesOf, List.foldl_map]
  congr 1
  funext best r
  by_cases hfit : fitFor (sliceRam entry r) free = .tooBig
  · simp [hfit]
  · cases best <;> simp [hfit, keep]

private theorem mem_slices {entries : List HubEntry} {free : Nat} {s : Suggestion} :
    s ∈ slices entries free ↔ s.entry ∈ entries ∧ s.range ∈ s.entry.swarmRanges ∧
      s.fit = fitFor (sliceRam s.entry s.range) free ∧ s.fit ≠ .tooBig := by
  simp only [slices, slicesOf, List.mem_flatMap, List.mem_filter, List.mem_map, decide_eq_true_eq]
  constructor
  · rintro ⟨entry, hentry, ⟨r, hr, rfl⟩, hfit⟩
    exact ⟨hentry, hr, rfl, hfit⟩
  · rintro ⟨hentry, hr, hfit, hne⟩
    refine ⟨s.entry, hentry, ⟨s.range, hr, ?_⟩, hne⟩
    rw [← hfit]

def rank (s : Suggestion) : Nat ×ₗ Nat ×ₗ Nat :=
  toLex (if s.fit = .tight then 1 else 0, toLex (s.entry.sizeBytes, span s.range))

private theorem better_iff {s c : Suggestion} (hs : s.fit ≠ .tooBig) (hc : c.fit ≠ .tooBig) :
    better s c = true ↔ rank c < rank s := by
  have hlex : rank c < rank s ↔
      (if c.fit = .tight then 1 else 0) < (if s.fit = .tight then 1 else 0) ∨
        (if c.fit = .tight then 1 else 0) = (if s.fit = .tight then 1 else 0) ∧
          (c.entry.sizeBytes < s.entry.sizeBytes ∨
            c.entry.sizeBytes = s.entry.sizeBytes ∧ span c.range < span s.range) := by
    simp only [rank, Prod.Lex.toLex_lt_toLex]
  have hsize : (if c.entry.sizeBytes ≠ s.entry.sizeBytes then
      decide (c.entry.sizeBytes < s.entry.sizeBytes) else decide (span c.range < span s.range)) =
        true ↔ c.entry.sizeBytes < s.entry.sizeBytes ∨
          c.entry.sizeBytes = s.entry.sizeBytes ∧ span c.range < span s.range := by
    split_ifs with hne
    · simp [hne]
    · simp [not_not.mp hne]
  rw [hlex, better]
  cases hfs : s.fit <;> cases hfc : c.fit <;> simp_all

private theorem bestSuggestion_argmin (entries : List HubEntry) (free : Nat) :
    bestSuggestion entries free = (slices entries free).argmin rank := by
  rw [bestSuggestion_eq]
  apply foldl_keep
  intro s hs c hc
  exact better_iff (mem_slices.mp hs).2.2.2 (mem_slices.mp hc).2.2.2

private theorem bestSuggestion_least {entries : List HubEntry} {free : Nat} {s : Suggestion}
    (h : bestSuggestion entries free = some s) :
    s ∈ slices entries free ∧ ∀ c ∈ slices entries free, better s c = false := by
  rw [bestSuggestion_argmin] at h
  have hmem : s ∈ slices entries free := List.argmin_mem h
  refine ⟨hmem, fun c hc => ?_⟩
  rw [Bool.eq_false_iff]
  intro hbetter
  have hlt := (better_iff (mem_slices.mp hmem).2.2.2 (mem_slices.mp hc).2.2.2).mp hbetter
  exact absurd (List.le_of_mem_argmin hc h) (not_le_of_gt hlt)

private theorem bestSuggestion_none {entries : List HubEntry} {free : Nat} :
    bestSuggestion entries free = none ↔ slices entries free = [] := by
  rw [bestSuggestion_argmin, List.argmin_eq_none]

theorem unsuggested_constrained {free : Nat} (h : bestSuggestion catalog free = none) :
    classifyHardware catalog free = .constrained := by
  have hlow : free < 1024 * 1024 * 1024 := by
    by_contra hfree
    have hroom : saturatingMul (sliceRam Downloads.smallest (0, 6)) 13 / 10 ≤ free :=
      (by decide : saturatingMul (sliceRam Downloads.smallest (0, 6)) 13 / 10 ≤
        1024 * 1024 * 1024).trans (not_lt.mp hfree)
    have hfits : fitFor (sliceRam Downloads.smallest (0, 6)) free = .fits := if_pos hroom
    have hmem : (⟨Downloads.smallest, (0, 6), .fits⟩ : Suggestion) ∈ slices catalog free := by
      rw [mem_slices]
      refine ⟨List.mem_cons_self, List.mem_cons_self, hfits.symm, ?_⟩
      exact fun heq => by cases heq
    rw [bestSuggestion_none.mp h] at hmem
    cases hmem
  have hnone : (catalog.any fun entry => decide (4 * 1024 * 1024 * 1024 ≤ entry.sizeBytes) &&
      decide (entry.ramBytesMin ≤ free)) = false := by
    rw [List.any_eq_false]
    intro entry hentry
    have hram : ∀ entry ∈ catalog, 4 * 1024 * 1024 * 1024 ≤ entry.sizeBytes →
        1024 * 1024 * 1024 ≤ entry.ramBytesMin := by decide
    simp only [Bool.and_eq_true, decide_eq_true_eq, not_and, not_le]
    intro hsize
    exact hlow.trans_le (hram entry hentry hsize)
  rw [classifyHardware, hnone, if_neg Bool.false_ne_true, if_neg (not_le.mpr hlow)]

def Even (entry : HubEntry) : Prop :=
  ∃ r rest, entry.defaultSplits = r :: rest ∧ ∀ r' ∈ rest, span r' = span r

private theorem catalog_splits : catalog.map HubEntry.defaultSplits =
    [Downloads.splits24, Downloads.splits28, Downloads.splits36, Downloads.splits28,
      Downloads.splits28, Downloads.splits28] := rfl

private theorem catalog_even : ∀ entry ∈ catalog, Even entry := by
  intro entry hentry
  have hsplits : entry.defaultSplits ∈ catalog.map HubEntry.defaultSplits :=
    List.mem_map_of_mem hentry
  rw [catalog_splits] at hsplits
  simp only [List.mem_cons, List.not_mem_nil, or_false] at hsplits
  have heven : ∀ r rest, entry.defaultSplits = r :: rest → (∀ r' ∈ rest, span r' = span r) →
      Even entry := fun r rest h hall => ⟨r, rest, h, hall⟩
  rcases hsplits with h | h | h | h | h | h
  all_goals
    refine heven _ _ h ?_
    intro r' hr'
    simp only [List.mem_cons, List.not_mem_nil, or_false] at hr'
    rcases hr' with rfl | rfl | rfl
    all_goals rfl

def firstSlice (free : Nat) (entry : HubEntry) : Option Suggestion :=
  match entry.defaultSplits with
  | [] => none
  | r :: _ =>
      if fitFor (sliceRam entry r) free = .tooBig then none
      else some ⟨entry, r, fitFor (sliceRam entry r) free⟩

private theorem bestSuggestion_first {entries : List HubEntry} {free : Nat}
    (heven : ∀ entry ∈ entries, Even entry) :
    bestSuggestion entries free = (entries.filterMap (firstSlice free)).foldl
    (keep better) none := by
  rw [bestSuggestion_eq, slices, List.foldl_flatMap, List.foldl_filterMap]
  apply List.foldl_ext
  intro best entry hentry
  obtain ⟨r, rest, hsplits, hspan⟩ := heven entry hentry
  have hslices : slicesOf free entry =
      (r :: rest).map fun r => ⟨entry, r, fitFor (sliceRam entry r) free⟩ := by
    rw [slicesOf, HubEntry.swarmRanges, hsplits, if_neg (List.cons_ne_nil r rest)]
  have hfits : ∀ s ∈ slicesOf free entry, s.entry = entry ∧ span s.range = span r ∧
      s.fit = fitFor (sliceRam entry r) free := by
    intro s hs
    rw [hslices] at hs
    obtain ⟨r', hr', rfl⟩ := List.mem_map.mp hs
    have hsame : span r' = span r := by
      rcases List.mem_cons.mp hr' with rfl | hrest
      · rfl
      · exact hspan r' hrest
    refine ⟨rfl, hsame, ?_⟩
    dsimp only
    rw [sliceRam, sliceRam, hsame]
  rw [firstSlice, hsplits]
  dsimp only
  by_cases hfit : fitFor (sliceRam entry r) free = .tooBig
  · have hnone : (slicesOf free entry).filter (fun s => decide (s.fit ≠ .tooBig)) = [] := by
      rw [List.filter_eq_nil_iff]
      intro s hs
      rw [(hfits s hs).2.2, hfit]
      decide
    rw [hnone, if_pos hfit]
    rfl
  · have hall : (slicesOf free entry).filter (fun s => decide (s.fit ≠ .tooBig)) =
        slicesOf free entry := by
      rw [List.filter_eq_self]
      intro s hs
      rw [(hfits s hs).2.2]
      exact decide_eq_true hfit
    rw [hall, if_neg hfit]
    rw [hslices] at hfits ⊢
    rw [List.map_cons]
    apply foldl_keep_alike
    · intro s hs p
      obtain ⟨hentry', hspan', hfit'⟩ := hfits s (List.mem_cons_of_mem _ hs)
      simp only [better, hentry', hspan', hfit']
    · rw [Bool.eq_false_iff]
      intro hself
      exact lt_irrefl _ ((better_iff hfit hfit).mp hself)

private theorem suggestion_first {free : Nat} {s : Suggestion}
    (h : bestSuggestion catalog free = some s) :
    s.entry.defaultSplits.head? = some s.range := by
  rw [bestSuggestion_first catalog_even] at h
  have hmem : s ∈ catalog.filterMap (firstSlice free) := by
    rcases mem_of_foldl_keep h with hmem | hnone
    · exact hmem
    · cases hnone
  obtain ⟨entry, hentry, hfirst⟩ := List.mem_filterMap.mp hmem
  unfold firstSlice at hfirst
  split at hfirst
  · cases hfirst
  · rename_i r rest hsplits
    obtain ⟨-, hfirst⟩ := Option.ite_none_left_eq_some.mp hfirst
    obtain rfl := Option.some.inj hfirst
    simp only [hsplits, List.head?_cons]

private theorem suggestion_kept {free : Nat} {s : Suggestion}
    (h : bestSuggestion catalog free = some s)
    (cidText : String → String) : defaultKeptRanges (splitOf cidText s.entry) = [s.range] := by
  obtain ⟨rest, hsplits⟩ := List.head?_eq_some_iff.mp (suggestion_first h)
  simp only [defaultKeptRanges, splitOf, hsplits]

variable {ar ar32 : Arith} {hash : Hashing} {json : ManifestJson} {files' : Files}

private theorem split_sidecar {entry : CatalogEntry} {path : PathBuf} {gguf : Mmap}
    (htext : path.toStr.isSome) {c : String} {n b : Nat} {kept : List (UInt16 × UInt16)}
    {shardRoot : Location}
    (hdone : .done c n b kept shardRoot ∈
      (startSplit ar ar32 hash json side entry path gguf modelsDir files).1)
    (hfiles : (startSplit ar ar32 hash json side entry path gguf modelsDir files).2 = files') :
    ∃ k, files'.lookup (shardDir modelsDir entry.modelCid ++ ["kept_ranges.json"]) =
        some (side.keptToBytes k) ∧ k.modelCid = entry.modelCid ∧
      k.kept = defaultKeptRanges entry ∧
      loadDisabled side files' (shardDir modelsDir entry.modelCid) =
        loadDisabled side files (shardDir modelsDir entry.modelCid) := by
  rcases startSplit_cases ar ar32 hash json side entry path gguf modelsDir files with
    ⟨hundone, -⟩ | ⟨outcome, files₁, -, hsplit, hrun⟩
  · exact absurd hdone (hundone c n b kept shardRoot)
  · rw [hrun] at hfiles
    subst hfiles
    obtain ⟨k, hsidecar, hcid, hk⟩ := splitSidecar_text side entry htext
    refine ⟨k, ?_, hcid, hk, ?_⟩
    · rw [AList.lookup_insert, hsidecar]
    · rw [loadDisabled, loadDisabled, join_plain plain_disabled, AList.lookup_insert_ne (by simp),
        hsplit.frame _ (not_chunkerPlace_entry _ (by decide))]

def Base58Text (cidText : String → String) : Prop :=
  ∀ t, '/' ∉ (cidText t).toList ∧ 3 ≤ (cidText t).toList.length

private theorem plain_of_letters {name : String} (hslash : '/' ∉ name.toList)
    (hlong : 3 ≤ name.toList.length) : PlainName name := by
  have hne : ∀ other : String, other.toList.length < 3 → name ≠ other := by
    rintro other hshort rfl
    omega
  exact ⟨hslash, hne _ (by decide), hne _ (by decide), hne _ (by decide)⟩

private theorem modelCid_plain {cidText : String → String} (h : Base58Text cidText)
    (entry : HubEntry) :
    PlainName (entry.modelCid cidText) := by
  obtain ⟨hslash, hlong⟩ := h s!"hf|{entry.hfRepo}|{entry.ggufFile}"
  apply plain_of_letters
  · rw [HubEntry.modelCid, String.toList_ofList]
    exact fun hmem => hslash (List.mem_of_mem_take hmem)
  · rw [HubEntry.modelCid, String.toList_ofList, List.length_take]
    omega

private theorem split_scanned (hside : side.RoundTrips) {entry : CatalogEntry} {r : UInt16 × UInt16}
    (hplain : PlainName entry.modelCid) (hone : defaultKeptRanges entry = [r]) {path : PathBuf}
    {gguf : Mmap} (htext : path.toStr.isSome) {c : String} {n b : Nat}
    {kept : List (UInt16 × UInt16)} {shardRoot : Location}
    (hdone : .done c n b kept shardRoot ∈
      (startSplit ar ar32 hash json side entry path gguf modelsDir files).1)
    (hfiles : (startSplit ar ar32 hash json side entry path gguf modelsDir files).2 = files')
    (henabled :
      (loadDisabled side files (shardDir modelsDir entry.modelCid)).contains r.1 r.2 = false)
    (scan : Listing files' (join modelsDir ".shards")) :
    (∀ relayOnly free, check side modelsDir relayOnly free files' scan.names = .pass .hosting) ∧
      ∃ k ∈ scanKeptRanges (shardsOnDisk side files' (join modelsDir ".shards") scan.names)
          scan.names, k.modelCid = entry.modelCid ∧ k.kept = [r] ∧
        files'.lookup (shardDir modelsDir entry.modelCid ++ ["kept_ranges.json"]) =
          some (side.keptToBytes k) := by
  obtain ⟨k, hlookup, hmodel, hkept, hdisabled⟩ := split_sidecar htext hdone hfiles
  rw [hone] at hkept
  rw [← hdisabled] at henabled
  rw [← hmodel] at hplain hlookup henabled ⊢
  have hmem : r ∈ k.kept := by
    rw [hkept]
    exact List.mem_singleton_self r
  obtain ⟨hscanned, -⟩ := sidecar_scanned hside hplain hlookup hmem henabled scan
  have hwhole : k.retain (loadDisabled side files' (shardDir modelsDir k.modelCid)) = k := by
    have hall : k.kept.filter (fun r => !(loadDisabled side files'
        (shardDir modelsDir k.modelCid)).contains r.1 r.2) = k.kept := by
      rw [List.filter_eq_self, hkept]
      intro r' hr'
      rw [List.mem_singleton.mp hr', henabled]
      rfl
    rw [KeptRanges.retain, hall]
  rw [hwhole] at hscanned
  have hhosted : Kept side modelsDir files' (k.modelCid, r) :=
    ⟨hplain, ⟨k, hlookup, rfl, hmem⟩, henabled⟩
  exact ⟨fun relayOnly free => hhosted.passes hside scan relayOnly free, k, hscanned, rfl, hkept,
    hlookup⟩

/-- A suggestion of the gate is the first slice of its entry and fits, with none better; and once
its model is split, from a path in text and with the slice not left before, just this slice is
kept, the gate takes the user for a host and the slice is announced. -/
theorem suggestion_opens (ar ar32 : Arith) (hash : Hashing) (json : ManifestJson)
    (side : SidecarJson)
    (hside : side.RoundTrips) (cidText : String → String) (hcid : Base58Text cidText)
    (modelsDir : Location) (free : Nat) (s : Suggestion)
    (hs : bestSuggestion catalog free = some s) :
    (s ∈ slices catalog free ∧ s.entry.defaultSplits.head? = some s.range ∧
        ∀ c ∈ slices catalog free, better s c = false) ∧
      ∀ files path gguf events files', PathBuf.toStr path ≠ none →
        startSplit ar ar32 hash json side (splitOf cidText s.entry) path gguf modelsDir files =
          (events, files') →
        (∃ c n b kept root, .done c n b kept root ∈ events) →
        (loadDisabled side files (shardDir modelsDir (s.entry.modelCid cidText))).contains
          s.range.1 s.range.2 = false →
        ∀ scan : Listing files' (join modelsDir ".shards"),
          (∀ relayOnly free', check side modelsDir relayOnly free' files' scan.names =
            .pass .hosting) ∧
          ∃ k ∈ scanKeptRanges (shardsOnDisk side files' (join modelsDir ".shards") scan.names)
              scan.names, k.modelCid = s.entry.modelCid cidText ∧ k.kept = [s.range] ∧
            files'.lookup (shardDir modelsDir (s.entry.modelCid cidText) ++ ["kept_ranges.json"]) =
              some (side.keptToBytes k) := by
  obtain ⟨hslice, hleast⟩ := bestSuggestion_least hs
  refine ⟨⟨hslice, suggestion_first hs, hleast⟩, ?_⟩
  rintro files path gguf events files' htext hrun ⟨c, n, b, kept, root, hdone⟩ henabled scan
  rw [show events = (startSplit ar ar32 hash json side (splitOf cidText s.entry) path gguf
    modelsDir files).1 by rw [hrun]] at hdone
  exact split_scanned hside (modelCid_plain hcid s.entry) (suggestion_kept hs cidText)
    (Option.isSome_iff_ne_none.mpr htext) hdone (by rw [hrun]) henabled scan

def someText : String := "8qbHbw2BbbTHBW1sbeqakYXVKRQM8Ne7pLK7m6CVfeR"

private theorem someText_base58 : Base58Text fun _ => someText := by
  intro _
  have hletters : '/' ∉ someText.toList ∧ 3 ≤ someText.toList.length := by decide
  exact hletters

/-- With one gibibyte free a quarter of the smallest model is suggested. -/
theorem suggestion_opens_smallest :
    bestSuggestion catalog (1024 ^ 3) = some ⟨Downloads.smallest, (0, 6), .fits⟩ ∧
      ∃ events files', startSplit release release32 longHash prettyJson prettySidecars
          (splitOf (fun _ => someText) Downloads.smallest) (utf8 "/models/qwen.gguf") twinFile
          ["models"] ∅ = (events, files') ∧
        check prettySidecars ["models"] false 0 files'
          (Listing.of files' (join ["models"] ".shards")).names = .pass .hosting := by
  have hs : bestSuggestion catalog (1024 ^ 3) = some ⟨Downloads.smallest, (0, 6), .fits⟩ := by
    decide +kernel
  obtain ⟨outcome, files, -, hrun⟩ := startSplit_empty prettyJson
    (splitOf (fun _ => someText) Downloads.smallest) "/models/qwen.gguf" ["models"]
  refine ⟨hs, _, _, hrun, ?_⟩
  have hopens := (suggestion_opens release release32 longHash prettyJson prettySidecars
    prettySidecars_roundTrips _ someText_base58 ["models"] (1024 ^ 3) _ hs).2 ∅ _ twinFile _ _
    (by rw [PathBuf.toStr_utf8]; exact nofun) hrun
      ⟨_, _, _, _, _, List.mem_cons_of_mem _ (List.mem_singleton_self _)⟩ rfl (Listing.of _ _)
  exact hopens.1 false 0

def SidecarsStay (modelsDir : Location) (files files' : Files) : Prop :=
  ∀ name file, file = "kept_ranges.json" ∨ file = "disabled_ranges.json" →
    files'.lookup (join (join modelsDir ".shards" ++ [name]) file) =
      files.lookup (join (join modelsDir ".shards" ++ [name]) file)

private theorem hostsAnySlice_listing (scan : Listing files (join modelsDir ".shards")) :
    hostsAnySlice side modelsDir files scan.names = true ↔ ∃ name k,
      (files.lookup (join (join modelsDir ".shards" ++ [name]) "kept_ranges.json")).bind
          side.keptFromBytes = some k ∧
        ∃ r ∈ k.kept, (loadDisabled side files (join modelsDir ".shards" ++ [name])).contains
          r.1 r.2 = false := by
  simp only [hostsAnySlice, List.any_eq_true]
  constructor
  · rintro ⟨name, -, hname⟩
    split at hname
    · cases hname
    · rename_i k hk
      obtain ⟨r, hr, henabled⟩ := List.any_eq_true.mp hname
      exact ⟨name, k, hk, r, hr, by simpa using henabled⟩
  · rintro ⟨name, k, hk, r, hr, henabled⟩
    refine ⟨name, (scan.mem_iff name).mpr ⟨["kept_ranges.json"], ?_⟩, ?_⟩
    · obtain ⟨bytes, hbytes, -⟩ := Option.bind_eq_some_iff.mp hk
      rw [join_plain plain_kept, List.append_assoc] at hbytes
      exact Option.isSome_iff_exists.mpr ⟨bytes, hbytes⟩
    · rw [hk]
      exact List.any_eq_true.mpr ⟨r, hr, by simpa using henabled⟩

theorem SidecarsStay.hosts (h : SidecarsStay modelsDir files files')
    (scan : Listing files (join modelsDir ".shards"))
    (scan' : Listing files' (join modelsDir ".shards")) :
    hostsAnySlice side modelsDir files' scan'.names =
      hostsAnySlice side modelsDir files scan.names := by
  rw [Bool.eq_iff_iff, hostsAnySlice_listing, hostsAnySlice_listing]
  simp only [loadDisabled, h _ _ (.inl rfl), h _ _ (.inr rfl)]

/-- Done or not, a contribution leaves the sidecars of the other models; one that is not done
leaves its own. -/
private theorem unreported_stay (hbase : hash.Base32) {s s' : Contributed} {c : Contribution}
    (hok : TakesNothingBack json side modelsDir s c)
    (hstep : contributeNext ar ar32 hash json side modelsDir s c = some s')
    (hnone : reportedBy ar ar32 hash json side modelsDir s.files c = []) :
    SidecarsStay modelsDir s.files s'.files := by
  obtain ⟨files', hfiles, rfl⟩ := Option.map_eq_some_iff.mp hstep
  cases c with
  | split entry path gguf =>
      obtain rfl := Option.some.inj hfiles
      rcases startSplit_cases ar ar32 hash json side entry path gguf modelsDir s.files with
        ⟨-, hsame⟩ | ⟨outcome, files₁, -, -, hdone⟩
      · intro name file _
        rw [hsame]
      · rw [reportedBy, hdone] at hnone
        cases hsplits : entry.defaultSplits <;>
          simp [SplitEvent.doneRanges, defaultKeptRanges, hsplits] at hnone
  | pull modelCid range provider server =>
      obtain rfl := Option.some.inj hfiles
      obtain ⟨hplain, -, hchunks⟩ := hok
      have hundone : ∀ kept shardRoot, SwarmPullEvent.done kept shardRoot ∉
          (startPull hash json side modelCid range provider modelsDir server s.files).1 := by
        intro kept shardRoot hdone
        obtain rfl := startPull_reports hdone
        have hmem : (modelCid, range) ∈ reportedBy ar ar32 hash json side modelsDir s.files
            (.pull modelCid range provider server) := by
          simp only [reportedBy, List.mem_map, List.mem_flatMap]
          exact ⟨range, ⟨_, hdone, List.mem_singleton_self _⟩, rfl⟩
        rw [hnone] at hmem
        cases hmem
      obtain ⟨manifestCid, hframe⟩ :=
        startPull_undone hbase Prod.mk.eta.symm hundone hchunks
      intro name file hfile
      have hplainFile : PlainName file := by
        rcases hfile with rfl | rfl
        · exact plain_kept
        · exact plain_disabled
      rw [join_plain hplainFile]
      apply hframe
      by_cases hname : name = modelCid
      · rw [hname, ← shardDir_plain hplain]
        exact not_fetchPlace_entry _ _ _
      · intro hplace
        obtain ⟨rest, hrest⟩ := hplace.pullPlace.within
        rw [shardDir_plain hplain, List.append_assoc, List.append_assoc] at hrest
        exact hname (List.cons.inj (List.append_cancel_left hrest)).1.symm

/-- As long as nothing was reported the sidecars are those of the start, and all that was reported
is kept. -/
private theorem contributions_sidecars (hbase : hash.Base32) (hside : side.RoundTrips)
    {start : Files} {contributions : List Contribution} {s : Contributed}
    (hrun : Transition.Run (contributeNext ar ar32 hash json side modelsDir)
      (TakesNothingBack json side modelsDir) ⟨start, []⟩ contributions s) :
    (s.reported = [] → SidecarsStay modelsDir start s.files) ∧
      ∀ key ∈ s.reported, Kept side modelsDir s.files key := by
  apply hrun.invariant (I := fun s => (s.reported = [] → SidecarsStay modelsDir start s.files) ∧
    ∀ key ∈ s.reported, Kept side modelsDir s.files key)
  · exact ⟨fun _ _ _ _ => rfl, by simp⟩
  · rintro x c y ⟨hstay, hkept⟩ hok hstep
    refine ⟨fun hnone => ?_, contributeNext_keeps hbase hside hkept hok hstep⟩
    obtain ⟨files', -, hy⟩ := Option.map_eq_some_iff.mp hstep
    have hreported : x.reported ++ reportedBy ar ar32 hash json side modelsDir x.files c = [] := by
      rw [← hnone, ← hy]
    obtain ⟨hbefore, hnow⟩ := List.append_eq_nil_iff.mp hreported
    have hnext := unreported_stay hbase hok hstep hnow
    intro name file hfile
    rw [hnext name file hfile, hstay hbefore name file hfile]

/-- From a disk that hosts nothing, in every run of contributions that take nothing back, the gate
takes the user for a host just when one of them was reported as done; and just then a daemon that
boots on this disk has something to announce. -/
theorem contributed_passes_iff (ar ar32 : Arith) (hash : Hashing) (json : ManifestJson)
    (side : SidecarJson) (hbase : hash.Base32) (hside : side.RoundTrips) (modelsDir : Location)
    (start : Files) (scan₀ : Listing start (join modelsDir ".shards"))
    (hstart : hostsAnySlice side modelsDir start scan₀.names = false)
    (contributions : List Contribution) (s : Contributed)
    (hrun : Transition.Run (contributeNext ar ar32 hash json side modelsDir)
      (TakesNothingBack json side modelsDir) ⟨start, []⟩ contributions s)
    (scan : Listing s.files (join modelsDir ".shards")) (relayOnly : Bool) (free : Nat) :
    (check side modelsDir relayOnly free s.files scan.names = .pass .hosting ↔ s.reported ≠ []) ∧
      ∀ peerId now mintedAt manifestCid, (Daemon.boot peerId now ⟨scan.names, mintedAt, manifestCid⟩
        (shardsOnDisk side s.files (join modelsDir ".shards") scan.names)).announce.isSome ↔
          s.reported ≠ [] := by
  obtain ⟨hstay, hkept⟩ := contributions_sidecars hbase hside hrun
  have hhosts : hostsAnySlice side modelsDir s.files scan.names = true ↔ s.reported ≠ [] := by
    constructor
    · intro h hnone
      rw [(hstay hnone).hosts scan₀ scan, hstart] at h
      cases h
    · intro hne
      obtain ⟨key, hkey⟩ := List.exists_mem_of_ne_nil _ hne
      obtain ⟨k, hk, -, -⟩ := (hkept key hkey).scanned hside scan
      rw [hostsAnySlice_iff]
      exact List.ne_nil_of_mem hk
  constructor
  · rw [← hhosts, check]
    cases hostsAnySlice side modelsDir s.files scan.names <;> cases relayOnly <;> simp
  · intro peerId now mintedAt manifestCid
    rw [← hhosts, hostsAnySlice_iff, Daemon.boot]
    dsimp only
    split_ifs with hnil
    · simp [hnil]
    · simp [hnil]

theorem contributed_passes_iff_split :
    ∃ s, contributeNext release release32 longHash prettyJson prettySidecars ["models"] ⟨∅, []⟩
        (.split twinEntry (utf8 "/models/twins.gguf") twinFile) = some s ∧
      check prettySidecars ["models"] false 0 s.files
        (Listing.of s.files (join ["models"] ".shards")).names = .pass .hosting := by
  obtain ⟨outcome, files, hsplit, hrun⟩ :=
    startSplit_empty prettyJson twinEntry "/models/twins.gguf" ["models"]
  obtain ⟨s, hnext, hreported⟩ : ∃ s, contributeNext release release32 longHash prettyJson
      prettySidecars ["models"] ⟨∅, []⟩ (.split twinEntry (utf8 "/models/twins.gguf") twinFile) =
        some s ∧
        s.reported = [("twins", 0, 1)] := by
    simp only [contributeNext, contribute, reportedBy, hrun]
    exact ⟨_, rfl, rfl⟩
  have hfresh : TakesNothingBack prettyJson prettySidecars ["models"] ⟨∅, []⟩
      (.split twinEntry (utf8 "/models/twins.gguf") twinFile) := by
    refine ⟨plain_twins, ?_, fun r _ => rfl, fun bytes k hbytes => ?_⟩
    · rw [PathBuf.toStr_utf8]
      rfl
    rw [AList.lookup_empty] at hbytes
    cases hbytes
  have hnobody : hostsAnySlice prettySidecars ["models"] ∅
      (Listing.of ∅ (join ["models"] ".shards")).names = false := rfl
  have hiff := (contributed_passes_iff release release32 longHash prettyJson prettySidecars
    longHash_base32 prettySidecars_roundTrips ["models"] ∅ (Listing.of ∅ _) hnobody
    [.split twinEntry (utf8 "/models/twins.gguf") twinFile] s (.snoc .nil hfresh hnext)
    (Listing.of _ _) false 0).1
  refine ⟨s, hnext, hiff.mpr ?_⟩
  rw [hreported]
  exact List.cons_ne_nil _ _

end IntelNav.App
