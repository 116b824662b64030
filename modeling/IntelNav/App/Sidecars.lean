import IntelNav.App.Contribute
import IntelNav.ModelStore.PrettyJson

/-! The sidecar files of a shard as JSON. -/

set_option autoImplicit false
set_option relaxedAutoImplicit false

namespace IntelNav.App

open IntelNav.ModelStore IntelNav.Text.Json

/-- `pull_source.json`: where the slice came from. -/
structure PullSource where
  sourcePeerId : String
  manifestCid : String
  manifestUrl : String
  range : UInt16 × UInt16
  deriving DecidableEq

/-- The JSON forms of the sidecars, by the JSON library. `manifestCidField` looks for nothing but
that field of the object. -/
structure SidecarJson where
  keptToBytes : KeptRanges → Bytes
  keptFromBytes : Bytes → Option KeptRanges
  disabledFromBytes : Bytes → Option DisabledRanges
  sourceToBytes : PullSource → Bytes
  sourceFromBytes : Bytes → Option PullSource
  manifestCidField : Bytes → Option String

/-- What is written is read back; an empty file is no JSON. -/
structure SidecarJson.RoundTrips (side : SidecarJson) : Prop where
  kept : ∀ k, side.keptFromBytes (side.keptToBytes k) = some k
  empty : side.keptFromBytes [] = none
  source : ∀ s, side.sourceFromBytes (side.sourceToBytes s) = some s
  field : ∀ s, side.manifestCidField (side.sourceToBytes s) = some s.manifestCid

/-! Pretty-printed sidecars. -/

def prettyRange (depth : Nat) : UInt16 × UInt16 → List Char :=
  pair depth fun n : UInt16 => natural n.toNat

def KeptRanges.fields : List (String × (KeptRanges → List Char)) :=
  [("model_cid", fun k => quoted k.modelCid), ("display_name", fun k => quoted k.displayName),
    ("block_count", fun k => natural k.blockCount.toNat),
    ("gguf_path", fun k => quoted k.ggufPath), ("kept", fun k => array 1 (prettyRange 2) k.kept)]

def DisabledRanges.fields : List (String × (DisabledRanges → List Char)) :=
  [("disabled", fun d => array 1 (prettyRange 2) d.disabled)]

def PullSource.fields : List (String × (PullSource → List Char)) :=
  [("source_peer_id", fun s => quoted s.sourcePeerId),
    ("manifest_cid", fun s => quoted s.manifestCid),
    ("manifest_url", fun s => quoted s.manifestUrl), ("range", fun s => prettyRange 1 s.range)]

section Fields

variable {α : Type} (fields : List (String × (α → List Char)))

def prettyBytes (a : α) : Bytes := utf8 (String.ofList (object 0 fields a))

variable {fields}

private theorem prettyBytes_fields (hfields : ∀ f ∈ fields, Framed f.2) {a b : α}
    (h : prettyBytes fields a = prettyBytes fields b) : ∀ f ∈ fields, f.2 a = f.2 b :=
  fields_eq hfields (String.ofList_inj.mp (utf8_inj.mp h))

private theorem prettyBytes_ne_nil (a : α) : prettyBytes fields a ≠ [] := by
  intro h
  have hnil : prettyBytes fields a = utf8 "" := h
  have htext := congrArg String.toList (utf8_inj.mp hnil)
  rw [String.toList_ofList] at htext
  exact object_ne_nil 0 fields a htext

end Fields

private theorem framed_uint16 : Framed fun n : UInt16 => natural n.toNat :=
  framed_natural.comp UInt16.toNat

private theorem uint16_injective : Function.Injective fun n : UInt16 => natural n.toNat :=
  fun _ _ h => UInt16.toNat_inj.mp (natural_injective h)

private theorem framed_range (depth : Nat) : Framed (prettyRange depth) :=
  framed_pair framed_uint16 depth

private theorem range_injective (depth : Nat) : Function.Injective (prettyRange depth) :=
  pair_injective framed_uint16 uint16_injective depth

private theorem framed_kept : ∀ f ∈ KeptRanges.fields, Framed f.2 := by
  simp only [KeptRanges.fields, List.forall_mem_cons]
  exact ⟨framed_quoted.comp _, framed_quoted.comp _, framed_natural.comp _, framed_quoted.comp _,
    (framed_array (framed_range 2) 1).comp _, nofun⟩

private theorem framed_source : ∀ f ∈ PullSource.fields, Framed f.2 := by
  simp only [PullSource.fields, List.forall_mem_cons]
  exact ⟨framed_quoted.comp _, framed_quoted.comp _, framed_quoted.comp _,
    (framed_range 1).comp _, nofun⟩

private theorem kept_injective : Function.Injective (prettyBytes KeptRanges.fields) := by
  intro a b h
  have hfields := prettyBytes_fields framed_kept h
  simp only [KeptRanges.fields, List.forall_mem_cons] at hfields
  obtain ⟨hcid, hname, hcount, hpath, hkept, -⟩ := hfields
  cases a
  cases b
  congr 1
  · exact quoted_injective hcid
  · exact quoted_injective hname
  · exact uint16_injective hcount
  · exact quoted_injective hpath
  · exact array_injective (framed_range 2) (range_injective 2) 1 hkept

private theorem source_injective : Function.Injective (prettyBytes PullSource.fields) := by
  intro a b h
  have hfields := prettyBytes_fields framed_source h
  simp only [PullSource.fields, List.forall_mem_cons] at hfields
  obtain ⟨hpeer, hcid, hurl, hrange, -⟩ := hfields
  cases a
  cases b
  congr 1
  · exact quoted_injective hpeer
  · exact quoted_injective hcid
  · exact quoted_injective hurl
  · exact range_injective 1 hrange

noncomputable def prettySidecars : SidecarJson where
  keptToBytes := prettyBytes KeptRanges.fields
  keptFromBytes := Function.partialInv (prettyBytes KeptRanges.fields)
  disabledFromBytes := Function.partialInv (prettyBytes DisabledRanges.fields)
  sourceToBytes := prettyBytes PullSource.fields
  sourceFromBytes := Function.partialInv (prettyBytes PullSource.fields)
  manifestCidField bytes :=
    (Function.partialInv (prettyBytes PullSource.fields) bytes).map PullSource.manifestCid

theorem prettySidecars_roundTrips : prettySidecars.RoundTrips where
  kept := Function.partialInv_left kept_injective
  empty := dif_neg (not_exists.mpr prettyBytes_ne_nil)
  source := Function.partialInv_left source_injective
  field s := by
    have hread := Function.partialInv_left source_injective s
    change (Function.partialInv (prettyBytes PullSource.fields)
      (prettyBytes PullSource.fields s)).map _ = _
    rw [hread, Option.map_some]

end IntelNav.App
