import IntelNav.ModelStore.GgufGrammar
import IntelNav.ModelStore.Bundle
import IntelNav.Text.Json

/-! Manifests as pretty-printed JSON with a trailing newline. -/

set_option autoImplicit false
set_option relaxedAutoImplicit false

namespace IntelNav.ModelStore

open IntelNav.Text.Json

def BundleMember.fields (depth : Nat) : List (String × (BundleMember → List Char)) :=
  [("name", fun b => quoted b.name),
    ("shape", fun b => array (depth + 1) (fun d : Int64 => number d.toInt) b.shape),
    ("dtype", fun b => quoted b.dtype), ("dtype_code", fun b => natural b.dtypeCode),
    ("data_offset_rel", fun b => natural b.dataOffsetRel), ("cid", fun b => quoted b.cid),
    ("size", fun b => natural b.size), ("offset_in_bundle", fun b => natural b.offsetInBundle)]

def BundleMember.pretty (depth : Nat) : BundleMember → List Char := object depth (fields depth)

def BundleEntry.fields (depth : Nat) : List (String × (BundleEntry → List Char)) :=
  [("name", fun b => quoted b.name),
    ("layer_range", fun b => nullable (pair (depth + 1) natural) b.layerRange),
    ("cid", fun b => quoted b.cid), ("size", fun b => natural b.size),
    ("members", fun b => array (depth + 1) (BundleMember.pretty (depth + 2)) b.members)]

def BundleEntry.pretty (depth : Nat) : BundleEntry → List Char := object depth (fields depth)

def GgufInfo.fields : List (String × (GgufInfo → List Char)) :=
  [("gguf_version", fun g => natural g.ggufVersion), ("alignment", fun g => natural g.alignment),
    ("tensor_data_offset", fun g => natural g.tensorDataOffset), ("n_kv", fun g => natural g.nKv),
    ("n_tensors", fun g => natural g.nTensors)]

def Chunk.fields : List (String × (Chunk → List Char)) :=
  [("cid", fun c => quoted c.cid), ("size", fun c => natural c.size)]

def Manifest.fields : List (String × (Manifest → List Char)) :=
  [("format", fun m => quoted m.format), ("version", fun m => natural m.version),
    ("name", fun m => nullable quoted m.name),
    ("architecture", fun m => nullable quoted m.architecture),
    ("n_layers", fun m => natural m.nLayers), ("gguf", fun m => object 1 GgufInfo.fields m.gguf),
    ("header_chunk", fun m => object 1 Chunk.fields m.headerChunk),
    ("bundles", fun m => array 1 (BundleEntry.pretty 2) m.bundles)]

def Manifest.pretty (m : Manifest) : String := String.ofList (object 0 Manifest.fields m ++ ['\n'])

/-! No two manifests have one text. -/

private theorem framed_shape : Framed fun d : Int64 => number d.toInt :=
  framed_number.comp Int64.toInt

private theorem framed_member_fields (depth : Nat) :
    ∀ f ∈ BundleMember.fields depth, Framed f.2 := by
  simp only [BundleMember.fields, List.forall_mem_cons]
  exact ⟨framed_quoted.comp _, (framed_array framed_shape _).comp _, framed_quoted.comp _,
    framed_natural.comp _, framed_natural.comp _, framed_quoted.comp _, framed_natural.comp _,
    framed_natural.comp _, nofun⟩

private theorem BundleMember.pretty_injective (depth : Nat) :
    Function.Injective (BundleMember.pretty depth) := by
  intro a b h
  have hfields := fields_eq (framed_member_fields depth) h
  simp only [fields, List.forall_mem_cons] at hfields
  obtain ⟨hname, hshape, hdtype, hcode, hoffset, hcid, hsize, hin, -⟩ := hfields
  have hshape_inj : Function.Injective fun d : Int64 => number d.toInt :=
    fun _ _ h => Int64.toInt_inj.mp (number_injective h)
  cases a
  cases b
  congr 1
  · exact quoted_injective hname
  · exact array_injective framed_shape hshape_inj _ hshape
  · exact quoted_injective hdtype
  · exact natural_injective hcode
  · exact natural_injective hoffset
  · exact quoted_injective hcid
  · exact natural_injective hsize
  · exact natural_injective hin

private theorem framed_member (depth : Nat) : Framed (BundleMember.pretty depth) :=
  framed_object (framed_member_fields depth) depth

private theorem framed_entry_fields (depth : Nat) : ∀ f ∈ BundleEntry.fields depth, Framed f.2 := by
  simp only [BundleEntry.fields, List.forall_mem_cons]
  exact ⟨framed_quoted.comp _,
    (framed_nullable (framed_pair framed_natural _) (notNull_pair _ _)).comp _,
    framed_quoted.comp _, framed_natural.comp _, (framed_array (framed_member _) _).comp _, nofun⟩

private theorem BundleEntry.pretty_injective (depth : Nat) :
    Function.Injective (BundleEntry.pretty depth) := by
  intro a b h
  have hfields := fields_eq (framed_entry_fields depth) h
  simp only [fields, List.forall_mem_cons] at hfields
  obtain ⟨hname, hrange, hcid, hsize, hmembers, -⟩ := hfields
  have hpair := pair_injective framed_natural natural_injective (depth + 1)
  cases a
  cases b
  congr 1
  · exact quoted_injective hname
  · exact nullable_injective hpair (notNull_pair _ _) hrange
  · exact quoted_injective hcid
  · exact natural_injective hsize
  · exact array_injective (framed_member _) (BundleMember.pretty_injective _) _ hmembers

private theorem framed_info : ∀ f ∈ GgufInfo.fields, Framed f.2 := by
  simp only [GgufInfo.fields, List.forall_mem_cons]
  exact ⟨framed_natural.comp _, framed_natural.comp _, framed_natural.comp _,
    framed_natural.comp _, framed_natural.comp _, nofun⟩

private theorem info_injective : Function.Injective (object 1 GgufInfo.fields) := by
  intro a b h
  have hfields := fields_eq framed_info h
  simp only [GgufInfo.fields, List.forall_mem_cons] at hfields
  obtain ⟨hversion, halignment, hoffset, hkv, htensors, -⟩ := hfields
  cases a
  cases b
  congr 1
  · exact natural_injective hversion
  · exact natural_injective halignment
  · exact natural_injective hoffset
  · exact natural_injective hkv
  · exact natural_injective htensors

private theorem framed_chunk : ∀ f ∈ Chunk.fields, Framed f.2 := by
  simp only [Chunk.fields, List.forall_mem_cons]
  exact ⟨framed_quoted.comp _, framed_natural.comp _, nofun⟩

private theorem chunk_injective : Function.Injective (object 1 Chunk.fields) := by
  intro a b h
  have hfields := fields_eq framed_chunk h
  simp only [Chunk.fields, List.forall_mem_cons] at hfields
  obtain ⟨hcid, hsize, -⟩ := hfields
  cases a
  cases b
  congr 1
  · exact quoted_injective hcid
  · exact natural_injective hsize

private theorem framed_manifest_fields : ∀ f ∈ Manifest.fields, Framed f.2 := by
  have htext := framed_nullable framed_quoted notNull_quoted
  have hentry : Framed (BundleEntry.pretty 2) := framed_object (framed_entry_fields 2) 2
  simp only [Manifest.fields, List.forall_mem_cons]
  exact ⟨framed_quoted.comp _, framed_natural.comp _, htext.comp _, htext.comp _,
    framed_natural.comp _, (framed_object framed_info 1).comp _,
    (framed_object framed_chunk 1).comp _, (framed_array hentry 1).comp _, nofun⟩

private theorem Manifest.pretty_injective : Function.Injective Manifest.pretty := by
  intro a b h
  have hobject := List.append_cancel_right (String.ofList_inj.mp h)
  have hfields := fields_eq framed_manifest_fields hobject
  simp only [fields, List.forall_mem_cons] at hfields
  obtain ⟨hformat, hversion, hname, harch, hlayers, hgguf, hheader, hbundles, -⟩ := hfields
  have htext := nullable_injective quoted_injective notNull_quoted
  have hentry : Framed (BundleEntry.pretty 2) := framed_object (framed_entry_fields 2) 2
  cases a
  cases b
  congr 1
  · exact quoted_injective hformat
  · exact natural_injective hversion
  · exact htext hname
  · exact htext harch
  · exact natural_injective hlayers
  · exact info_injective hgguf
  · exact chunk_injective hheader
  · exact array_injective hentry (BundleEntry.pretty_injective 2) 1 hbundles

def Manifest.toJsonBytes (m : Manifest) : Bytes := utf8 m.pretty

theorem Manifest.length_toJsonBytes_le (m : Manifest) :
    m.toJsonBytes.length ≤ 4 * ((object 0 Manifest.fields m).length + 1) := by
  have hlen := Text.length_encode_le (object 0 Manifest.fields m ++ ['\n'])
  rw [← Text.toUTF8_ofList, List.length_append] at hlen
  exact hlen

private theorem Manifest.toJsonBytes_injective : Function.Injective Manifest.toJsonBytes :=
  fun _ _ h => Manifest.pretty_injective (utf8_inj.mp h)

noncomputable def prettyJson : ManifestJson where
  toJsonBytes := Manifest.toJsonBytes
  fromJsonBytes := Function.partialInv Manifest.toJsonBytes

@[simp] theorem prettyJson_toJsonBytes (m : Manifest) :
    prettyJson.toJsonBytes m = m.toJsonBytes := rfl

theorem prettyJson_roundTrips : prettyJson.RoundTrips :=
  Function.partialInv_left Manifest.toJsonBytes_injective

end IntelNav.ModelStore
