import IntelNav.Wire.Msg
import Mathlib.Data.List.Basic

/-! The CBOR bytes serde and ciborium produce for a message.

Structs are maps with text keys in field order, enum units are text, byte vectors are arrays of
integers (serde's default for `Vec<u8>`), and every integer takes its shortest header. A float's
bytes are a parameter. -/

set_option autoImplicit false
set_option relaxedAutoImplicit false

namespace IntelNav.Wire.Cbor

open IntelNav.Core

/-- The `k` lowest bytes of `n`, most significant first. -/
def beBytes : Nat → Nat → List UInt8
  | 0, _ => []
  | k + 1, n => UInt8.ofNat (n / 256 ^ k) :: beBytes k n

/-- A header: the major type in the top three bits, then the shortest form of the argument. -/
def head (major n : Nat) : List UInt8 :=
  if n < 24 then [UInt8.ofNat (major * 32 + n)]
  else if n < 2 ^ 8 then UInt8.ofNat (major * 32 + 24) :: beBytes 1 n
  else if n < 2 ^ 16 then UInt8.ofNat (major * 32 + 25) :: beBytes 2 n
  else if n < 2 ^ 32 then UInt8.ofNat (major * 32 + 26) :: beBytes 4 n
  else UInt8.ofNat (major * 32 + 27) :: beBytes 8 n

def uint (n : Nat) : List UInt8 := head 0 n

def text (s : String) : List UInt8 := head 3 s.utf8ByteSize ++ s.toUTF8.data.toList

def null : List UInt8 := [0xf6]

def seq (items : List (List UInt8)) : List UInt8 := head 4 items.length ++ items.flatten

def fields (kvs : List (String × List UInt8)) : List UInt8 :=
  head 5 kvs.length ++ (kvs.map fun kv => text kv.1 ++ kv.2).flatten

/-- A `Vec<u8>` or `[u8; N]`: one integer for each byte. -/
def bytes (bs : List UInt8) : List UInt8 := seq (bs.map fun b => uint b.toNat)

def hexDigit (n : Nat) : Char :=
  if n < 10 then Char.ofNat (48 + n) else Char.ofNat (87 + n)

/-- `hex::serde`: lower-case hexadecimal text. -/
def hex (bs : List UInt8) : List UInt8 :=
  text (String.ofList (bs.flatMap fun b => [hexDigit (b.toNat / 16), hexDigit (b.toNat % 16)]))

def option {α : Type} (ser : α → List UInt8) : Option α → List UInt8
  | none => null
  | some a => ser a

def sessionId (s : SessionId) : List UInt8 := hex s.bytes.toList

def peerId (p : PeerId) : List UInt8 := hex p.bytes.toList

def quant (q : Quant) : List UInt8 := text q.asStr

def backend : Backend → List UInt8
  | .llamaCpp => text "llama-cpp"
  | .vllm => text "vllm"
  | .mlxLm => text "mlx-lm"
  | .ollama => text "ollama"
  | .unknown => text "unknown"

def role : Role → List UInt8
  | .volunteer => text "volunteer"
  | .cloud => text "cloud"

def phase : Phase → List UInt8
  | .prefill => text "prefill"
  | .decode => text "decode"

def dtype : Dtype → List UInt8
  | .fp16 => text "fp16"
  | .bf16 => text "bf16"
  | .int8 => text "int8"

def layerRange (r : LayerRange) : List UInt8 :=
  fields [("start", uint r.start.toNat), ("end", uint r.stop.toNat)]

def shape (s : Shape3) : List UInt8 :=
  seq [uint s.batch.toNat, uint s.seq.toNat, uint s.hidden.toNat]

def shardRoute (r : ShardRoute) : List UInt8 :=
  fields [("cid", text r.cid), ("start", uint r.start.toNat), ("end", uint r.stop.toNat)]

def capability (f32 : UInt32 → List UInt8) (c : CapabilityV1) : List UInt8 :=
  fields [("peer_id", peerId c.peerId), ("backend", backend c.backend),
    ("quants", seq (c.quants.map quant)), ("vram_bytes", uint c.vramBytes.toNat),
    ("ram_bytes", uint c.ramBytes.toNat), ("tok_per_sec", f32 c.tokPerSec),
    ("max_seq", uint c.maxSeq.toNat), ("models", seq (c.models.map text)),
    ("layers", seq (c.layers.map shardRoute)), ("role", role c.role)]

/-- `kv_truncate_to` is skipped when it is `None`; `kv_delta` is not. -/
def forward (f : Forward) : List UInt8 :=
  fields ([("kind", text "forward_hidden"), ("session_id", sessionId f.sessionId),
    ("seq", uint f.seq), ("phase", phase f.phase), ("dtype", dtype f.dtype),
    ("shape", shape f.shape), ("payload", bytes f.payload), ("kv_delta", option bytes f.kvDelta)] ++
    match f.kvTruncateTo with
    | none => []
    | some keep => [("kv_truncate_to", uint keep.toNat)])

/-- The serialization of a message: the `kind` tag first, then the variant's fields. -/
def msg (f32 : UInt32 → List UInt8) : Msg → List UInt8
  | .hello p v qs => fields [("kind", text "hello"), ("peer_id", peerId p),
      ("proto_ver", uint v.toNat), ("supported_quants", seq (qs.map quant))]
  | .sessionInit s pub cid r maxSeq => fields [("kind", text "session_init"),
      ("session_id", sessionId s), ("client_x25519_pub", bytes pub.toList),
      ("model_cid", text cid), ("layer_range", layerRange r), ("max_seq", uint maxSeq.toNat)]
  | .sessionAck s pub => fields [("kind", text "session_ack"), ("session_id", sessionId s),
      ("shard_x25519_pub", bytes pub.toList)]
  | .prompt s ct nonce => fields [("kind", text "prompt"), ("session_id", sessionId s),
      ("ciphertext", bytes ct), ("nonce", bytes nonce.toList)]
  | .forwardHidden f => forward f
  | .token s n top sampled => fields [("kind", text "token"), ("session_id", sessionId s),
      ("seq", uint n.toNat),
      ("logits_top_k", option (fun l => seq (l.map fun p => seq [uint p.1.toNat, f32 p.2])) top),
      ("sampled", uint sampled.toNat)]
  | .heartbeat s n health => fields [("kind", text "heartbeat"), ("session_id", sessionId s),
      ("last_seq", uint n.toNat), ("health", uint health.toNat)]
  | .abortSession s reason => fields [("kind", text "abort_session"),
      ("session_id", sessionId s), ("reason", text reason)]
  | .advertise c sig => fields [("kind", text "advertise"), ("capability_v1", capability f32 c),
      ("sig", bytes sig)]
  | .gossip topic payload sig => fields [("kind", text "gossip"), ("topic", text topic),
      ("payload", bytes payload), ("sig", bytes sig)]

def headLen (n : Nat) : Nat :=
  if n < 24 then 1 else if n < 2 ^ 8 then 2 else if n < 2 ^ 16 then 3
  else if n < 2 ^ 32 then 5 else 9

@[simp] theorem length_beBytes (k n : Nat) : (beBytes k n).length = k := by
  induction k with
  | zero => rfl
  | succ k ih => rw [beBytes, List.length_cons, ih]

@[simp] theorem length_head (major n : Nat) : (head major n).length = headLen n := by
  unfold head headLen
  split_ifs <;> simp

@[simp] theorem length_uint (n : Nat) : (uint n).length = headLen n := length_head 0 n

@[simp] theorem length_text (s : String) :
    (text s).length = headLen s.utf8ByteSize + s.utf8ByteSize := by
  rw [text, List.length_append, length_head, Array.length_toList]
  rfl

@[simp] theorem length_null : null.length = 1 := rfl

@[simp] theorem length_bytes (bs : List UInt8) :
    (bytes bs).length = headLen bs.length + bs.length + bs.countP (fun b => 24 ≤ b.toNat) := by
  have hsum : (bs.map fun b => uint b.toNat).flatten.length =
      bs.length + bs.countP (fun b => 24 ≤ b.toNat) := by
    induction bs with
    | nil => rfl
    | cons b bs ih =>
        have hb := b.toNat_lt
        rw [List.map_cons, List.flatten_cons, List.length_append, ih, List.length_cons,
          List.countP_cons, length_uint]
        simp only [headLen, decide_eq_true_eq]
        split_ifs <;> omega
  rw [bytes, seq, List.length_append, hsum, length_head, List.length_map, Nat.add_assoc]

private theorem utf8Size_hexDigit (n : Nat) (hn : n < 16) : (hexDigit n).utf8Size = 1 := by
  decide +revert

private theorem utf8ByteSize_ofList (cs : List Char) :
    (String.ofList cs).utf8ByteSize = (cs.map Char.utf8Size).sum := by
  induction cs with
  | nil => rfl
  | cons c cs ih =>
      have hcons : String.ofList (c :: cs) = String.singleton c ++ String.ofList cs := by
        rw [String.singleton_eq_ofList, ← String.ofList_append, List.singleton_append]
      rw [hcons, String.utf8ByteSize_append, String.utf8ByteSize_singleton, ih, List.map_cons,
        List.sum_cons]

theorem utf8ByteSize_hex (bs : List UInt8) :
    (String.ofList (bs.flatMap fun b =>
      [hexDigit (b.toNat / 16), hexDigit (b.toNat % 16)])).utf8ByteSize = 2 * bs.length := by
  rw [utf8ByteSize_ofList]
  induction bs with
  | nil => rfl
  | cons b bs ih =>
      have hb := b.toNat_lt
      rw [List.flatMap_cons, List.map_append, List.sum_append, ih, List.length_cons]
      simp only [List.map_cons, List.map_nil, List.sum_cons, List.sum_nil]
      rw [utf8Size_hexDigit _ (by omega), utf8Size_hexDigit _ (by omega)]
      omega

@[simp] theorem length_hex (bs : List UInt8) :
    (hex bs).length = headLen (2 * bs.length) + 2 * bs.length := by
  rw [hex, length_text, utf8ByteSize_hex]

@[simp] theorem length_sessionId (s : SessionId) : (sessionId s).length = 66 := by
  rw [sessionId, length_hex, Vector.length_toList]
  rfl

@[simp] theorem length_phase_decode : (phase .decode).length = 7 := rfl

@[simp] theorem length_dtype (d : Dtype) : (dtype d).length = 5 := by
  cases d <;> rfl

@[simp] theorem length_shape (s : Shape3) :
    (shape s).length =
      1 + headLen s.batch.toNat + headLen s.seq.toNat + headLen s.hidden.toNat := by
  simp [shape, seq, headLen, Nat.add_assoc]

private theorem length_phase_le (p : Phase) : (phase p).length ≤ 8 := by
  cases p <;> decide

private theorem headLen_le (n : Nat) : headLen n ≤ 9 := by
  rw [headLen]
  split_ifs <;> omega

private theorem length_bytes_le (bs : List UInt8) : (bytes bs).length ≤ 9 + 2 * bs.length := by
  have hhead := headLen_le bs.length
  have hcount : bs.countP (fun b => 24 ≤ b.toNat) ≤ bs.length := List.countP_le_length
  rw [length_bytes]
  omega

private theorem length_forward_texts :
    (text "kind").length = 5 ∧ (text "forward_hidden").length = 15 ∧
      (text "session_id").length = 11 ∧ (text "seq").length = 4 ∧ (text "phase").length = 6 ∧
      (text "dtype").length = 6 ∧ (text "shape").length = 6 ∧ (text "payload").length = 8 ∧
      (text "kv_delta").length = 9 ∧ (text "kv_truncate_to").length = 15 := by decide

theorem length_forward_le (f : Forward) (hkv : f.kvDelta = none) :
    (forward f).length ≤ 250 + 2 * f.payload.length := by
  obtain ⟨hkind, hname, hsession, hseq, hph, hd, hs, hpay, hdelta, hkeep⟩ := length_forward_texts
  have hphase := length_phase_le f.phase
  have hpayload := length_bytes_le f.payload
  have h₁ := headLen_le f.seq
  have h₂ := headLen_le f.shape.batch.toNat
  have h₃ := headLen_le f.shape.seq.toNat
  have h₄ := headLen_le f.shape.hidden.toNat
  cases htrunc : f.kvTruncateTo with
  | none =>
      simp only [forward, hkv, htrunc, fields, option, List.append_nil, List.map_cons,
        List.map_nil, List.flatten_cons, List.flatten_nil, List.length_append, List.length_cons,
        List.length_nil, length_head, hkind, hname, hsession, hseq, hph, hd, hs, hpay, hdelta,
        length_sessionId, length_uint, length_dtype, length_shape, length_null]
      have h₅ := headLen_le (0 + 1 + 1 + 1 + 1 + 1 + 1 + 1 + 1)
      omega
  | some keep =>
      simp only [forward, hkv, htrunc, fields, option, List.cons_append, List.nil_append,
        List.map_cons, List.map_nil, List.flatten_cons, List.flatten_nil, List.length_append,
        List.length_cons, List.length_nil, length_head, hkind, hname, hsession, hseq, hph, hd, hs,
        hpay, hdelta, hkeep, length_sessionId, length_uint, length_dtype, length_shape, length_null]
      have h₅ := headLen_le (0 + 1 + 1 + 1 + 1 + 1 + 1 + 1 + 1 + 1)
      have h₆ := headLen_le keep.toNat
      omega

theorem length_forward_reply (f : Forward) (hphase : f.phase = .decode) (hkv : f.kvDelta = none)
    (htrunc : f.kvTruncateTo = none) :
    (forward f).length =
      151 + headLen f.seq + headLen f.shape.batch.toNat + headLen f.shape.seq.toNat +
        headLen f.shape.hidden.toNat + (bytes f.payload).length := by
  obtain ⟨hkind, hname, hsession, hseq, hph, hd, hs, hpay, hdelta, -⟩ := length_forward_texts
  simp only [forward, hphase, hkv, htrunc, fields, option, List.append_nil, List.map_cons,
    List.map_nil, List.flatten_cons, List.flatten_nil, List.length_append, List.length_cons,
    List.length_nil, length_head, hkind, hname, hsession, hseq, hph, hd, hs, hpay, hdelta,
    length_sessionId, length_uint, length_phase_decode, length_dtype, length_shape, length_null]
  have hhead : headLen (0 + 1 + 1 + 1 + 1 + 1 + 1 + 1 + 1) = 1 := rfl
  omega

end IntelNav.Wire.Cbor
