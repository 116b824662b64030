import IntelNav.Core.Floats
import IntelNav.Wire.Msg
import Mathlib.Data.List.Basic
import Mathlib.Algebra.BigOperators.Group.List.Basic

/-! Hidden states and their wire payloads (`crates/ggml/src/hidden.rs`).

The arithmetic of `f32` is a parameter: an operation class on an arbitrary type `F`. -/

set_option autoImplicit false
set_option relaxedAutoImplicit false

namespace IntelNav.Ggml

open IntelNav.Core IntelNav.Wire

variable {F : Type}

/-- In-memory hidden state or logits: row-major data with its shape. -/
structure Hidden (F : Type) where
  data : List F
  shape : List Nat
  deriving DecidableEq

inductive HiddenError
  | emptyShape
  | dataLen (len : Nat) (shape : List Nat) (elems : Nat)
  | rank (shape : List Nat)
  | position (pos seq : Nat)
  | emptyData
  | shapeOverflow (shape : Shape3)
  | sliceLen (len : Nat) (shape : Shape3) (elems : Nat)
  | payloadSize (shape : Shape3) (dtype : Dtype) (expected got : Nat)
  | bf16
  | panic
  deriving DecidableEq

/-- `Hidden::new`: the data length must be the product of the shape. -/
def Hidden.new (data : List F) (shape : List Nat) : Except HiddenError (Hidden F) :=
  if shape.isEmpty then .error .emptyShape
  else if data.length ≠ shape.prod then .error (.dataLen data.length shape shape.prod)
  else .ok ⟨data, shape⟩

/-- The row at one sequence position of each batch of a rank-3 state. -/
def Hidden.selectPosition (x : Hidden F) (pos : Nat) : Except HiddenError (Hidden F) :=
  match x.shape with
  | [b, seq, inner] =>
    if pos ≥ seq then .error (.position pos seq)
    else
      Hidden.new ((List.range b).flatMap fun i =>
        (x.data.drop (i * seq * inner + pos * inner)).take inner) [b, inner]
  | _ => .error (.rank x.shape)

/-- The fold both greedy decoders use: the first index whose value exceeds all before it. -/
def argmaxFold [F32 F] (xs : List F) : Nat :=
  (xs.zipIdx.foldl (fun (best : Nat × F) (xi : F × Nat) =>
    if F32.lt best.2 xi.1 then (xi.2, xi.1) else best) (0, F32.negInfinity)).1

def Hidden.argmaxLast [F32 F] (x : Hidden F) : Except HiddenError UInt32 :=
  if x.data.isEmpty then .error .emptyData
  else .ok (UInt32.ofNat (argmaxFold x.data % x.shape.getLastD x.data.length))

structure HiddenPayload where
  dtype : Dtype
  shape : Shape3
  bytes : List UInt8
  deriving DecidableEq

/-- `usize` is 64 bits wide. -/
def usizeMod : Nat := 2 ^ 64

def isizeMax : Nat := 2 ^ 63 - 1

/-- The product of the shape, refused when it overflows `usize`. -/
def shapeNElems (s : Shape3) : Except HiddenError Nat :=
  let n := s.batch.toNat * s.seq.toNat * s.hidden.toNat
  if n < usizeMod then .ok n else .error (.shapeOverflow s)

def le16 (v : UInt16) : List UInt8 := [v.toUInt8, (v >>> 8).toUInt8]

def ofLe16 (b₀ b₁ : UInt8) : UInt16 := UInt16.ofNat (b₀.toNat + 256 * b₁.toNat)

def le32 (v : UInt32) : List UInt8 :=
  [v.toUInt8, (v >>> 8).toUInt8, (v >>> 16).toUInt8, (v >>> 24).toUInt8]

def ofLe32 (b₀ b₁ b₂ b₃ : UInt8) : UInt32 :=
  UInt32.ofNat (b₀.toNat + 256 * (b₁.toNat + 256 * (b₂.toNat + 256 * b₃.toNat)))

/-- Row `r` of a row-major matrix with `h` columns. -/
def rowSlice {α : Type} (flat : List α) (h r : Nat) : List α := (flat.drop (r * h)).take h

section Codec

variable [F32 F]

/-- The scale of one row: its largest magnitude over 127, or one for an all-zero row. -/
def int8Scale (row : List F) : F :=
  let absmax := row.foldl (fun m x => F32.max m (F32.abs x)) (F32.ofInt 0)
  if F32.lt (F32.ofInt 0) absmax then F32.div absmax (F32.ofInt 127) else F32.ofInt 1

/-- `f32::clamp(-127.0, 127.0)`. -/
def clamp127 (x : F) : F :=
  let x := if F32.lt x (F32.ofInt (-127)) then F32.ofInt (-127) else x
  if F32.lt (F32.ofInt 127) x then F32.ofInt 127 else x

def int8Quant (inv x : F) : UInt8 := (F32.toI8 (clamp127 (F32.round (F32.mul x inv)))).toUInt8

/-- Per-row symmetric quantization: all scales first, then the values row by row. -/
def encodeInt8Rows (flat : List F) (rows h : Nat) : List UInt8 :=
  let scales := (List.range rows).map fun r => int8Scale (rowSlice flat h r)
  scales.flatMap (fun s => le32 (F32.toBits s)) ++
    (List.range rows).flatMap fun r =>
      let inv := F32.div (F32.ofInt 1) (int8Scale (rowSlice flat h r))
      (rowSlice flat h r).map (int8Quant inv)

/-- Encode a flat `[batch, seq, hidden]` slice with the requested wire dtype. -/
def encodeHiddenWith (xs : List F) (shape : Shape3) (dtype : Dtype) :
    Except HiddenError HiddenPayload := do
  let n ← shapeNElems shape
  if xs.length ≠ n then .error (.sliceLen xs.length shape n)
  else
    match dtype with
    | .fp16 => .ok ⟨dtype, shape, xs.flatMap fun x => le16 (F32.toF16 x)⟩
    | .int8 =>
      .ok ⟨dtype, shape,
        encodeInt8Rows xs (shape.batch.toNat * shape.seq.toNat) shape.hidden.toNat⟩
    | .bf16 => .error .bf16

/-- `chunks_exact(2)` read as half floats. -/
def decodeFp16 : List UInt8 → List F
  | b₀ :: b₁ :: rest => F32.ofF16 (ofLe16 b₀ b₁) :: decodeFp16 rest
  | _ => []

/-- `chunks_exact(4)` read as floats. -/
def decodeScales : List UInt8 → List F
  | b₀ :: b₁ :: b₂ :: b₃ :: rest => F32.ofBits (ofLe32 b₀ b₁ b₂ b₃) :: decodeScales rest
  | _ => []

def int8Dequant (s : F) (b : UInt8) : F := F32.mul (F32.ofInt b.toInt8.toInt) s

/-- The values of an `Int8` payload, row by row, each row with its own scale. -/
def decodeInt8Rows (scales : List F) (q : List UInt8) (h : Nat) : List F :=
  scales.zipIdx.flatMap fun (s, r) => (rowSlice q h r).map (int8Dequant s)

/-- Decode a wire payload. The expected size is computed with wrapping arithmetic, as in a release
build; an allocation past `isize::MAX` and `split_at` past the end panic. -/
def decodeHidden (p : HiddenPayload) : Except HiddenError (Shape3 × List F) := do
  let n ← shapeNElems p.shape
  let rows := p.shape.batch.toNat * p.shape.seq.toNat
  let scaleBytes := rows * 4 % usizeMod
  let expected := match p.dtype with
    | .fp16 | .bf16 => n * 2 % usizeMod
    | .int8 => (scaleBytes + n) % usizeMod
  if p.bytes.length ≠ expected then
    .error (.payloadSize p.shape p.dtype expected p.bytes.length)
  else
    match p.dtype with
    | .fp16 => if n * 4 > isizeMax then .error .panic else .ok (p.shape, decodeFp16 p.bytes)
    | .int8 =>
      if scaleBytes > p.bytes.length ∨ rows * 4 > isizeMax ∨ n * 4 > isizeMax then .error .panic
      else
        .ok (p.shape, decodeInt8Rows (decodeScales (p.bytes.take scaleBytes))
          (p.bytes.drop scaleBytes) p.shape.hidden.toNat)
    | .bf16 => .error .bf16

end Codec

end IntelNav.Ggml
