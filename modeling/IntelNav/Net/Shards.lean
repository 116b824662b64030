import Mathlib.Data.List.AList
import Mathlib.Data.List.Dedup
import IntelNav.Net.Swarm
import IntelNav.Text.Marks
import IntelNav.Wire.Cbor

/-! What hosts publish to the DHT and what a consumer finds there: shard discovery
(`crates/net/src/dht.rs`) and the coverage of a model (`crates/net/src/swarm_index.rs`). -/

set_option autoImplicit false
set_option relaxedAutoImplicit false

namespace IntelNav.Net

open IntelNav.Wire IntelNav.Text

variable {Key : Type}

structure ProviderRecord where
  peerId : String
  addrs : List String
  chunksUrl : Option String
  manifestCid : Option String
  forwardUrl : Option String
  mintedAt : UInt64
  deriving DecidableEq

/-- Lightweight model metadata stored under the model's key. -/
structure ModelEnvelope where
  cid : String
  displayName : String
  arch : String
  blockCount : UInt32
  totalBytes : UInt64
  quant : String
  deriving DecidableEq

structure RangeCoverage where
  start : UInt16
  stop : UInt16
  providers : List ProviderRecord
  deriving DecidableEq

structure SwarmModel where
  cid : String
  envelope : Option ModelEnvelope
  ranges : List RangeCoverage
  deriving DecidableEq

inductive Topic
  | shard (cid : String) (start stop : UInt16)
  | model (cid : String)
  deriving DecidableEq

def shardName (cid : String) (start stop : UInt16) : String :=
  "intelnav/shard/v1|" ++ cid ++ "|" ++ toString start.toNat ++ "|" ++ toString stop.toNat

def modelName (cid : String) : String := "intelnav/model/v1|" ++ cid

def shardKey (blake3 : List UInt8 → Key) (cid : String) (start stop : UInt16) : Key :=
  blake3 (shardName cid start stop).toUTF8.data.toList

def modelKey (blake3 : List UInt8 → Key) (cid : String) : Key :=
  blake3 (modelName cid).toUTF8.data.toList

def Topic.name : Topic → String
  | .shard cid start stop => shardName cid start stop
  | .model cid => modelName cid

def Topic.key (blake3 : List UInt8 → Key) : Topic → Key
  | .shard cid start stop => shardKey blake3 cid start stop
  | .model cid => modelKey blake3 cid

/-- `ciborium::into_writer` of a record. -/
def ProviderRecord.encode (r : ProviderRecord) : Value :=
  Cbor.fields [("peer_id", Cbor.text r.peerId), ("addrs", Cbor.seq (r.addrs.map Cbor.text)),
    ("chunks_url", Cbor.option Cbor.text r.chunksUrl),
    ("manifest_cid", Cbor.option Cbor.text r.manifestCid),
    ("forward_url", Cbor.option Cbor.text r.forwardUrl), ("minted_at", Cbor.uint r.mintedAt.toNat)]

def ModelEnvelope.encode (env : ModelEnvelope) : Value :=
  Cbor.fields [("cid", Cbor.text env.cid), ("display_name", Cbor.text env.displayName),
    ("arch", Cbor.text env.arch), ("block_count", Cbor.uint env.blockCount.toNat),
    ("total_bytes", Cbor.uint env.totalBytes.toNat), ("quant", Cbor.text env.quant)]

/-- `ciborium::from_reader` for the two types of records. -/
structure RecordReader where
  record : Value → Option ProviderRecord
  envelope : Value → Option ModelEnvelope

/-- A call of `announce_shard` or `announce_model`. -/
inductive Announcement
  | shard (cid : String) (start stop : UInt16) (record : ProviderRecord)
  | model (env : ModelEnvelope)
  deriving DecidableEq

def Announcement.topic : Announcement → Topic
  | .shard cid start stop _ => .shard cid start stop
  | .model env => .model env.cid

def Announcement.value : Announcement → Value
  | .shard _ _ _ record => record.encode
  | .model env => env.encode

/-- What `find_shard_providers` makes of the reply to its lookup. -/
def findShardProviders (rd : RecordReader) (raw : Except String (List Value)) :
    Except String (List ProviderRecord) :=
  raw.map (List.filterMap rd.record)

/-- What `fetch_model_envelope` makes of the reply to its lookup. -/
def fetchModelEnvelope (rd : RecordReader) (raw : Except String (List Value)) :
    Except String (Option ModelEnvelope) :=
  raw.map (List.findSome? rd.envelope)

/-- `refresh_one`, given what is replied to the lookup of the model and to the lookup of each
range. -/
def refreshOne (rd : RecordReader) (cid : String) (model : Except String (List Value))
    (shards : List ((UInt16 × UInt16) × Except String (List Value))) : SwarmModel where
  cid := cid
  envelope := (fetchModelEnvelope rd model).toOption.getD none
  ranges := shards.map fun r =>
    ⟨r.1.1, r.1.2, (findShardProviders rd r.2).toOption.getD []⟩

namespace SwarmModel

def uniqueProviders (m : SwarmModel) : Nat :=
  (m.ranges.flatMap fun r => r.providers.map ProviderRecord.peerId).dedup.length

def fullyServed (m : SwarmModel) : Bool :=
  !m.ranges.isEmpty && m.ranges.all fun r => !r.providers.isEmpty

end SwarmModel

private theorem bar_not_mem_digits (n : UInt16) : '|' ∉ (toString n.toNat).toList := by
  intro h
  rw [Nat.toString_eq_ofList_toDigits, String.toList_ofList] at h
  have hdigit := Nat.isDigit_of_mem_toDigits (by decide) (by decide) h
  exact absurd hdigit (by decide)

private theorem digits_injective {n n' : UInt16}
    (h : (toString n.toNat).toList = (toString n'.toNat).toList) : n = n' := by
  rw [Nat.toString_eq_ofList_toDigits, String.toList_ofList, Nat.toString_eq_ofList_toDigits,
    String.toList_ofList] at h
  apply UInt16.toNat_inj.mp
  rw [← Nat.ofDigitChars_ten_toDigits (n := n.toNat), h, Nat.ofDigitChars_ten_toDigits]

private theorem toList_shardName (cid : String) (start stop : UInt16) :
    (shardName cid start stop).toList = "intelnav/shard/v1|".toList ++
      ((cid.toList ++ '|' :: (toString start.toNat).toList) ++ '|' ::
        (toString stop.toNat).toList) := by
  have hbar : "|".toList = ['|'] := by decide
  unfold shardName
  simp only [String.toList_append, hbar, List.append_assoc, List.cons_append, List.nil_append]

private theorem toList_modelName (cid : String) :
    (modelName cid).toList = "intelnav/model/v1|".toList ++ cid.toList := by
  unfold modelName
  rw [String.toList_append]

private theorem shardName_ne_modelName (cid cid' : String) (start stop : UInt16) :
    shardName cid start stop ≠ modelName cid' := by
  intro h
  have hlists := congrArg String.toList h
  rw [toList_shardName, toList_modelName] at hlists
  have hlengths :
    "intelnav/shard/v1|".toList.length = "intelnav/model/v1|".toList.length := by decide
  have hkinds := (List.append_inj hlists hlengths).1
  exact absurd hkinds (by decide)

theorem name_injective : Function.Injective Topic.name := by
  intro t t' h
  cases t with
  | shard cid start stop =>
      cases t' with
      | shard cid' start' stop' =>
          have hlists : (shardName cid start stop).toList = (shardName cid' start' stop').toList :=
            congrArg String.toList h
          rw [toList_shardName, toList_shardName] at hlists
          have hrest := List.append_cancel_left hlists
          obtain ⟨hfront, hstop⟩ :=
            split_at_last (bar_not_mem_digits stop) (bar_not_mem_digits stop') hrest
          obtain ⟨hcid, hstart⟩ :=
            split_at_last (bar_not_mem_digits start) (bar_not_mem_digits start') hfront
          rw [String.toList_inj.mp hcid, digits_injective hstart, digits_injective hstop]
      | model cid' => exact absurd h (shardName_ne_modelName cid cid' start stop)
  | model cid =>
      cases t' with
      | shard cid' start' stop' =>
        exact absurd h.symm (shardName_ne_modelName cid' cid start' stop')
      | model cid' =>
          have hlists : (modelName cid).toList = (modelName cid').toList := congrArg String.toList h
          rw [toList_modelName, toList_modelName] at hlists
          rw [String.toList_inj.mp (List.append_cancel_left hlists)]

private theorem key_eq (blake3 : List UInt8 → Key) (t : Topic) :
    t.key blake3 = blake3 t.name.toUTF8.data.toList := by
  cases t <;> rfl

theorem key_injective {blake3 : List UInt8 → Key} (hblake3 : Function.Injective blake3) :
    Function.Injective (Topic.key blake3) := by
  intro t t' h
  rw [key_eq, key_eq] at h
  apply name_injective
  have hbytes : t.name.toUTF8.data = t'.name.toUTF8.data := Array.toList_inj.mp (hblake3 h)
  exact String.toByteArray_inj.mp (ByteArray.ext hbytes)

end IntelNav.Net
