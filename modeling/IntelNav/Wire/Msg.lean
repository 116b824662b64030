import IntelNav.Core.Types

/-! The protocol messages of `crates/wire`. -/

set_option autoImplicit false
set_option relaxedAutoImplicit false

namespace IntelNav.Wire

open IntelNav.Core

/-- Phase of the inference pass the hidden state belongs to. -/
inductive Phase
  | prefill | decode
  deriving DecidableEq

inductive Dtype
  | fp16 | bf16 | int8
  deriving DecidableEq

/-- The `[u32; 3]` shape `[batch, seq, hidden]` of a payload. -/
structure Shape3 where
  batch : UInt32
  seq : UInt32
  hidden : UInt32
  deriving DecidableEq

/-- The fields of `Msg::ForwardHidden`. The counter `seq` is a natural number: a link adds one to
it for each request, so it stays far below the 64 bits of the source. -/
structure Forward where
  sessionId : SessionId
  seq : Nat
  phase : Phase
  dtype : Dtype
  shape : Shape3
  payload : List UInt8
  kvDelta : Option (List UInt8)
  kvTruncateTo : Option UInt32
  deriving DecidableEq

/-- Normative protocol messages; an `f32` is carried as its bit pattern. -/
inductive Msg
  | hello (peerId : PeerId) (protoVer : UInt32) (supportedQuants : List Quant)
  | sessionInit (sessionId : SessionId) (clientX25519Pub : Vector UInt8 32) (modelCid : String)
      (layerRange : LayerRange) (maxSeq : UInt32)
  | sessionAck (sessionId : SessionId) (shardX25519Pub : Vector UInt8 32)
  | prompt (sessionId : SessionId) (ciphertext : List UInt8) (nonce : Vector UInt8 12)
  | forwardHidden (fwd : Forward)
  | token (sessionId : SessionId) (seq : UInt64) (logitsTopK : Option (List (UInt32 × UInt32)))
      (sampled : UInt32)
  | heartbeat (sessionId : SessionId) (lastSeq : UInt64) (health : UInt8)
  | abortSession (sessionId : SessionId) (reason : String)
  | advertise (capabilityV1 : CapabilityV1) (sig : List UInt8)
  | gossip (topic : String) (payload : List UInt8) (sig : List UInt8)
  deriving DecidableEq

end IntelNav.Wire
