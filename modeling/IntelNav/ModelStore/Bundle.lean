import IntelNav.ModelStore.Gguf

/-! Bundles, the fetch units of a model, and the manifest that lists them. -/

set_option autoImplicit false
set_option relaxedAutoImplicit false

namespace IntelNav.ModelStore

open IntelNav.Reading

inductive BundleKind
  | embed
  | block (n : UInt32)
  | head
  deriving DecidableEq

namespace BundleKind

def name : BundleKind → String
  | .embed => "embed"
  | .block n => "blk." ++ toString n.toNat
  | .head => "head"

/-- The half-open layer range, in `u32` arithmetic; embed and head have none. -/
def layerRange (ar : Arith) : BundleKind → Option (Option (Nat × Nat))
  | .block n => do
      let stop ← ar.add n.toNat 1
      pure (some (n.toNat, stop))
  | _ => some none

end BundleKind

/-- `str::parse::<u32>`: digits after at most one plus sign. -/
def parseU32 (s : List Char) : Option UInt32 :=
  let digits := match s with
    | '+' :: rest => rest
    | _ => s
  if digits ≠ [] ∧ digits.all Char.isDigit then
    let n := digits.foldl (fun n c => 10 * n + (c.toNat - '0'.toNat)) 0
    if n < 2 ^ 32 then some (UInt32.ofNat n) else none
  else none

def stripPrefix (p s : List Char) : Option (List Char) :=
  if p <+: s then some (s.drop p.length) else none

/-- Route a tensor to its bundle; what nothing recognizes falls through to the head. -/
def classifyTensor (name : String) : BundleKind :=
  if "token_embd".toList <+: name.toList then .embed
  else
    match stripPrefix "blk.".toList name.toList with
    | some rest =>
        match parseU32 (rest.takeWhile (· ≠ '.')) with
        | some n => .block n
        | none => .head
    | none => .head

example : classifyTensor "blk.17.ffn_down.weight" = .block 17 := by decide

def ggmlTypeName : Nat → String
  | 0 => "F32" | 1 => "F16" | 2 => "Q4_0" | 3 => "Q4_1" | 6 => "Q5_0" | 7 => "Q5_1" | 8 => "Q8_0"
  | 9 => "Q8_1" | 10 => "Q2_K" | 11 => "Q3_K" | 12 => "Q4_K" | 13 => "Q5_K" | 14 => "Q6_K"
  | 15 => "Q8_K" | 16 => "IQ2_XXS" | 17 => "IQ2_XS" | 18 => "IQ3_XXS" | 19 => "IQ1_S"
  | 20 => "IQ4_NL" | 21 => "IQ3_S" | 22 => "IQ2_S" | 23 => "IQ4_XS" | 24 => "I8" | 25 => "I16"
  | 26 => "I32" | 27 => "I64" | 28 => "F64" | 29 => "IQ1_M" | 30 => "BF16" | 34 => "TQ1_0"
  | 35 => "TQ2_0" | _ => "GGML_UNKNOWN"

structure BundleMember where
  name : String
  shape : List Int64
  dtype : String
  dtypeCode : Nat
  dataOffsetRel : Nat
  cid : String
  size : Nat
  offsetInBundle : Nat
  deriving DecidableEq

structure BundleEntry where
  name : String
  layerRange : Option (Nat × Nat)
  cid : String
  size : Nat
  members : List BundleMember
  deriving DecidableEq

def manifestVersion : Nat := 2

structure GgufInfo where
  ggufVersion : Nat
  alignment : Nat
  tensorDataOffset : Nat
  nKv : Nat
  nTensors : Nat
  deriving DecidableEq

structure Chunk where
  cid : String
  size : Nat
  deriving DecidableEq

def BundleEntry.chunk (b : BundleEntry) : Chunk := ⟨b.cid, b.size⟩

structure Manifest where
  format : String
  version : Nat
  name : Option String
  architecture : Option String
  nLayers : Nat
  gguf : GgufInfo
  headerChunk : Chunk
  bundles : List BundleEntry
  deriving DecidableEq

structure ManifestJson where
  toJsonBytes : Manifest → Bytes
  fromJsonBytes : Bytes → Option Manifest

def ManifestJson.RoundTrips (json : ManifestJson) : Prop :=
  ∀ m, json.fromJsonBytes (json.toJsonBytes m) = some m

end IntelNav.ModelStore
