import Mathlib.Algebra.Order.Ring.Nat

/-! Identifiers and value types shared by the crates (`crates/core`). -/

set_option autoImplicit false
set_option relaxedAutoImplicit false

namespace IntelNav.Core

structure PeerId where
  bytes : Vector UInt8 32
  deriving DecidableEq

structure SessionId where
  bytes : Vector UInt8 32
  deriving DecidableEq

abbrev ModelId := String

/-- Layer range of a shard; the runtime reads it as half open. -/
structure LayerRange where
  start : UInt16
  stop : UInt16
  deriving DecidableEq

inductive Backend
  | llamaCpp | vllm | mlxLm | ollama | unknown
  deriving DecidableEq

inductive Quant
  | q4km | q5km | q8_0 | fp16 | bf16
  deriving DecidableEq

def Quant.asStr : Quant → String
  | .q4km => "Q4_K_M"
  | .q5km => "Q5_K_M"
  | .q8_0 => "Q8_0"
  | .fp16 => "fp16"
  | .bf16 => "bf16"

inductive Role
  | volunteer | cloud
  deriving DecidableEq

/-- Single entry in a contributor's `layers` vector. -/
structure ShardRoute where
  cid : String
  start : UInt16
  stop : UInt16
  deriving DecidableEq

/-- Capability vector advertised in the DHT; `tokPerSec` is the bit pattern of an `f32`. -/
structure CapabilityV1 where
  peerId : PeerId
  backend : Backend
  quants : List Quant
  vramBytes : UInt64
  ramBytes : UInt64
  tokPerSec : UInt32
  maxSeq : UInt32
  models : List ModelId
  layers : List ShardRoute
  role : Role
  deriving DecidableEq

end IntelNav.Core
