import Mathlib.Data.List.AList

/-! The sidecar files of the shard directories (`crates/app/src/contribute.rs`). -/

set_option autoImplicit false
set_option relaxedAutoImplicit false

namespace IntelNav.App

/-- `kept_ranges.json`: the slices of one model this host contributes. -/
structure KeptRanges where
  modelCid : String
  displayName : String
  blockCount : UInt16
  ggufPath : String
  kept : List (UInt16 × UInt16)
  deriving DecidableEq

/-- `disabled_ranges.json`: the slices the user has left. -/
structure DisabledRanges where
  disabled : List (UInt16 × UInt16)
  deriving DecidableEq

namespace DisabledRanges

def contains (d : DisabledRanges) (start stop : UInt16) : Bool :=
  d.disabled.any fun r => r.1 = start ∧ r.2 = stop

def add (d : DisabledRanges) (start stop : UInt16) : DisabledRanges :=
  if d.contains start stop then d else ⟨d.disabled ++ [(start, stop)]⟩

def remove (d : DisabledRanges) (start stop : UInt16) : DisabledRanges :=
  ⟨d.disabled.filter fun r => !(r.1 = start ∧ r.2 = stop)⟩

private theorem contains_iff {d : DisabledRanges} {start stop : UInt16} :
    d.contains start stop = true ↔ (start, stop) ∈ d.disabled := by
  simp only [contains, List.any_eq_true, decide_eq_true_eq]
  constructor
  · rintro ⟨⟨a, b⟩, hmem, rfl, rfl⟩
    exact hmem
  · exact fun hmem => ⟨_, hmem, rfl, rfl⟩

@[simp] theorem contains_add (d : DisabledRanges) (start stop s e : UInt16) :
    (d.add start stop).contains s e = true ↔
      d.contains s e = true ∨ (s = start ∧ e = stop) := by
  unfold add
  split_ifs with h
  · constructor
    · exact .inl
    · rintro (h' | ⟨rfl, rfl⟩)
      · exact h'
      · exact h
  · simp [contains_iff]

end DisabledRanges

/-- The sidecars in one shard directory, as their JSON reads: a missing, malformed or just
truncated file is `none`. -/
structure Shard where
  kept : Option KeptRanges
  disabled : Option DisabledRanges
  deriving DecidableEq

/-- The directories under `<models_dir>/.shards`, by name. -/
abbrev Shards := AList fun _ : String => Shard

namespace Shards

/-- The parsed `kept_ranges.json` of a directory. -/
def kept (disk : Shards) (dir : String) : Option KeptRanges :=
  (disk.lookup dir).bind Shard.kept

/-- `DisabledRanges::load`: an unreadable file counts as empty. -/
def loadDisabled (disk : Shards) (dir : String) : DisabledRanges :=
  ((disk.lookup dir).bind Shard.disabled).getD ⟨[]⟩

/-- A contribution makes the directory and writes its `kept_ranges.json`. -/
def writeKept (disk : Shards) (dir : String) (contents : Option KeptRanges) : Shards :=
  disk.insert dir ⟨contents, (disk.lookup dir).bind Shard.disabled⟩

/-- Write `disabled_ranges.json`; in a directory that is not there the write fails. -/
def writeDisabled (disk : Shards) (dir : String) (contents : Option DisabledRanges) : Shards :=
  match disk.lookup dir with
  | some shard => disk.insert dir { shard with disabled := contents }
  | none => disk

@[simp] theorem kept_writeKept (disk : Shards) (dir dir' : String)
    (contents : Option KeptRanges) :
    (disk.writeKept dir contents).kept dir' = if dir' = dir then contents else disk.kept dir' := by
  unfold kept writeKept
  split_ifs with h
  · rw [h, AList.lookup_insert]
    rfl
  · rw [AList.lookup_insert_ne h]

@[simp] theorem loadDisabled_writeKept (disk : Shards) (dir dir' : String)
    (contents : Option KeptRanges) :
    (disk.writeKept dir contents).loadDisabled dir' = disk.loadDisabled dir' := by
  unfold loadDisabled writeKept
  by_cases h : dir' = dir
  · rw [h, AList.lookup_insert]
    rfl
  · rw [AList.lookup_insert_ne h]

@[simp] theorem kept_writeDisabled (disk : Shards) (dir dir' : String)
    (contents : Option DisabledRanges) :
    (disk.writeDisabled dir contents).kept dir' = disk.kept dir' := by
  unfold kept writeDisabled
  split
  · rename_i shard hshard
    by_cases h : dir' = dir
    · rw [h, AList.lookup_insert, hshard]
      rfl
    · rw [AList.lookup_insert_ne h]
  · rfl

theorem loadDisabled_writeDisabled_ne (disk : Shards) {dir dir' : String}
    (contents : Option DisabledRanges) (h : dir' ≠ dir) :
    (disk.writeDisabled dir contents).loadDisabled dir' = disk.loadDisabled dir' := by
  unfold loadDisabled writeDisabled
  split
  · rw [AList.lookup_insert_ne h]
  · rfl

theorem loadDisabled_writeDisabled (disk : Shards) (dir : String)
    (contents : Option DisabledRanges) :
    (disk.writeDisabled dir contents).loadDisabled dir = contents.getD ⟨[]⟩ ∨
      disk.kept dir = none := by
  unfold loadDisabled writeDisabled kept
  split
  · left
    rw [AList.lookup_insert]
    rfl
  · right
    rename_i hnone
    rw [hnone]
    rfl

end Shards

end IntelNav.App
