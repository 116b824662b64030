import Mathlib.Tactic.Common
import Mathlib.Algebra.Order.Ring.Nat
import Mathlib.Data.List.Sort
import IntelNav.Reading.Cursor
import IntelNav.Reading.Words

/-! The GGUF reader: header, KV metadata and tensor index of a mapped file. CIDs of byte strings are
taken over a digest and a text form that the CID libraries supply. -/

set_option autoImplicit false
set_option relaxedAutoImplicit false

namespace IntelNav.ModelStore

open IntelNav.Reading

abbrev Bytes := List UInt8

/-- SHA-256, and the base32 text of the raw-codec CIDv1 over a digest. -/
structure Hashing where
  sha256 : Bytes → Bytes
  cidStringFromSha256 : Bytes → String

def Hashing.cidStringFor (h : Hashing) (bytes : Bytes) : String :=
  h.cidStringFromSha256 (h.sha256 bytes)

/-! The `usize` and the `u32` arithmetic of the release build, and of one that catches overflows. -/

abbrev release : Arith := .wrapping 64

abbrev release32 : Arith := .wrapping 32

abbrev checked : Arith := .trapping 64

abbrev checked32 : Arith := .trapping 32

theorem words_release : release.Words 64 := Arith.words_wrapping 64

theorem words_checked : checked.Words 64 := Arith.words_trapping 64

/-! Limits of the format. -/

/-- `b"GGUF"`. -/
def ggufMagic : Bytes := [0x47, 0x47, 0x55, 0x46]

def ggufVersionSupported : Nat := 3
def ggufDefaultAlignment : Nat := 32
def ggufMaxTensors : Nat := 1 <<< 20
def ggufMaxKv : Nat := 1 <<< 16
def ggufMaxDims : Nat := 8

/-- The contents of a file; no mapping is longer than `isize::MAX`. -/
structure Mmap where
  bytes : Bytes
  length_lt : bytes.length < 2 ^ 63

inductive Defect
  | shortRead (n left : Nat)
  | tooManyTensors (n : Nat)
  | tooManyKvs (n : Nat)
  | tooManyDims (n : Nat)
  | tooManyDimsOf (name : String) (n : Nat)
  | notUtf8
  | peekPastEof
  | nestedArray
  deriving DecidableEq

def Defect.reason : Defect → String
  | .shortRead n left => s!"short read of {n} bytes (have {left})"
  | .tooManyTensors n => s!"n_tensors = {n} exceeds cap {ggufMaxTensors}"
  | .tooManyKvs n => s!"n_kv = {n} exceeds cap {ggufMaxKv}"
  | .tooManyDims n => s!"tensor n_dims = {n} exceeds cap {ggufMaxDims}"
  | .tooManyDimsOf name n =>
      "tensor \x60" ++ name ++ s!"\x60 n_dims = {n} exceeds cap {ggufMaxDims}"
  | .notUtf8 => "string is not valid UTF-8"
  | .peekPastEof => "peek_u32 past EOF"
  | .nestedArray => "nested arrays are not supported in GGUF v3"

inductive GgufError
  | badMagic (got : Bytes)
  | badVersion (got : Nat)
  | malformed (offset : Nat) (defect : Defect)
  | unknownKvType (got : Nat)
  deriving DecidableEq

inductive KvType
  | u8 | i8 | u16 | i16 | u32 | i32 | f32 | bool | string | array | u64 | i64 | f64
  deriving DecidableEq

def KvType.code : KvType → Nat
  | .u8 => 0 | .i8 => 1 | .u16 => 2 | .i16 => 3 | .u32 => 4 | .i32 => 5 | .f32 => 6 | .bool => 7
  | .string => 8 | .array => 9 | .u64 => 10 | .i64 => 11 | .f64 => 12

def KvType.fromU32 : Nat → Except GgufError KvType
  | 0 => .ok .u8 | 1 => .ok .i8 | 2 => .ok .u16 | 3 => .ok .i16 | 4 => .ok .u32 | 5 => .ok .i32
  | 6 => .ok .f32 | 7 => .ok .bool | 8 => .ok .string | 9 => .ok .array | 10 => .ok .u64
  | 11 => .ok .i64 | 12 => .ok .f64 | v => .error (.unknownKvType v)

/-- The size of a scalar; strings and arrays carry theirs in the payload. -/
def KvType.scalarSize : KvType → Option Nat
  | .u8 | .i8 | .bool => some 1
  | .u16 | .i16 => some 2
  | .u32 | .i32 | .f32 => some 4
  | .u64 | .i64 | .f64 => some 8
  | .string | .array => none

abbrev Parser (α : Type) := Cursor UInt8 GgufError α

section Primitives

variable (ar : Arith)

def readBytes (n : Nat) : Parser Bytes :=
  Cursor.take ar (fun pos n left => .malformed pos (.shortRead n left)) n

def readU32 : Parser Nat := do
  let b ← readBytes ar 4
  pure (ofLeBytes b)

def readU64 : Parser Nat := do
  let b ← readBytes ar 8
  pure (ofLeBytes b)

def readString : Parser String := do
  let len ← readU64 ar
  let bytes ← readBytes ar len
  match String.fromUTF8? ⟨bytes.toArray⟩ with
  | some s => pure s
  | none => Cursor.fail fun pos => .malformed (pos - len) .notUtf8

def KvType.read (v : Nat) : Parser KvType :=
  match KvType.fromU32 v with
  | .ok ty => pure ty
  | .error e => Cursor.fail fun _ => e

def peekU32 : Parser Nat := fun buf pos =>
  match ar.add pos 4 with
  | none => .error .panicked
  | some stop =>
      if buf.length < stop then .error (.failed (.malformed pos .peekPastEof))
      else if stop < pos then .error .panicked
      else .ok (ofLeBytes ((buf.drop pos).take (stop - pos)), pos)

def skipString : Parser Unit := do
  let n ← readU64 ar
  let _ ← readBytes ar n
  pure ()

/-- `n` values of a fixed size. -/
def skipScalars (size n : Nat) : Parser Unit :=
  match ar.mul size n with
  | none => Cursor.panic
  | some len => do
      let _ ← readBytes ar len
      pure ()

def skipKvValue (ty : KvType) : Parser Unit :=
  match ty.scalarSize with
  | some size => do
      let _ ← readBytes ar size
      pure ()
  | none =>
      if ty = .string then skipString ar
      else do
        let elementTy ← KvType.read (← readU32 ar)
        let n ← readU64 ar
        match elementTy.scalarSize with
        | some size => skipScalars ar size n
        | none =>
            if elementTy = .string then do
              let _ ← (skipString ar).times n
              pure ()
            else Cursor.fail fun pos => .malformed pos .nestedArray

def alignUp (offset alignment : Nat) : Option Nat :=
  if alignment = 0 then some offset
  else
    let rem := offset % alignment
    if rem = 0 then some offset else ar.add offset (alignment - rem)

end Primitives

structure Gguf where
  mmap : Mmap
  version : Nat
  alignment : Nat
  tensorDataOffset : Nat
  nKv : Nat
  nTensors : Nat
  kvEndOffset : Nat
  indexEndOffset : Nat

structure KvEntry where
  key : String
  ty : KvType
  arrayElementTy : Option KvType
  /-- The bytes of the value, and of the whole entry, as they stand in the file. -/
  value : Bytes
  entry : Bytes

structure TensorIndexEntry where
  name : String
  shape : List Int64
  dtype : Nat
  dataOffsetRel : Nat
  nBytes : Nat

section Parse

variable (ar : Arith)

/-- One KV entry of the first walk, with its effect on the alignment. -/
def readAlignment (alignment : Nat) : Parser Nat := do
  let key ← readString ar
  let ty ← KvType.read (← readU32 ar)
  let (raw, _) ← (skipKvValue ar ty).spanned
  pure (if key = "general.alignment" ∧ ty = .u32 then ofLeBytes (raw.take 4) else alignment)

def readAlignments : Nat → Nat → Parser Nat
  | 0, alignment => pure alignment
  | n + 1, alignment => do
      let alignment ← readAlignment ar alignment
      readAlignments n alignment

/-- One entry of the tensor index, without its size; `tooMany` reports its dimensions. -/
def readTensor (tooMany : String → Nat → Defect) : Parser TensorIndexEntry := do
  let name ← readString ar
  let nDims ← readU32 ar
  if nDims > ggufMaxDims then
    Cursor.fail fun pos => .malformed pos (tooMany name nDims)
  else
    let shape ← (readU64 ar).times nDims
    let dtype ← readU32 ar
    let dataOffsetRel ← readU64 ar
    pure
      { name, shape := shape.map Int64.ofNat, dtype, dataOffsetRel, nBytes := 0 }

/-- The fixed part of the header: the counts of tensors and KV entries. -/
def readCounts : Parser (Nat × Nat) := do
  let magic ← readBytes ar 4
  if magic ≠ ggufMagic then Cursor.fail fun _ => .badMagic magic
  else
    let version ← readU32 ar
    if version ≠ ggufVersionSupported then Cursor.fail fun _ => .badVersion version
    else
      let nTensors ← readU64 ar
      let nKv ← readU64 ar
      if nTensors > ggufMaxTensors then
        Cursor.fail fun _ => .malformed 16 (.tooManyTensors nTensors)
      else if nKv > ggufMaxKv then Cursor.fail fun _ => .malformed 24 (.tooManyKvs nKv)
      else pure (nTensors, nKv)

/-- The walk of `Gguf::open` over header, KV metadata and tensor index. -/
def readHeader (mmap : Mmap) : Parser Gguf := do
  let (nTensors, nKv) ← readCounts ar
  let alignment ← readAlignments ar nKv ggufDefaultAlignment
  let kvEnd ← Cursor.here
  let _ ← (readTensor ar fun _ n => .tooManyDims n).times nTensors
  let indexEnd ← Cursor.here
  match alignUp ar indexEnd alignment with
  | none => Cursor.panic
  | some tensorDataOffset =>
      pure
        { mmap, version := ggufVersionSupported, alignment, tensorDataOffset, nKv, nTensors
          kvEndOffset := kvEnd, indexEndOffset := indexEnd }

def Gguf.open (mmap : Mmap) : Except (Stop GgufError) Gguf :=
  (readHeader ar mmap mmap.bytes 0).map Prod.fst

def readKvEntry : Parser KvEntry := do
  let (entry, kv) ← Cursor.spanned (do
    let key ← readString ar
    let ty ← KvType.read (← readU32 ar)
    let (value, arrayElementTy) ← Cursor.spanned (do
      let elementTy ← if ty = .array then do
          let elementTy ← KvType.read (← peekU32 ar)
          pure (some elementTy)
        else pure none
      skipKvValue ar ty
      pure elementTy)
    pure (key, ty, arrayElementTy, value))
  let (key, ty, arrayElementTy, value) := kv
  pure { key, ty, arrayElementTy, value, entry }

def Gguf.kvEntries (g : Gguf) : Except (Stop GgufError) (List KvEntry) :=
  ((readKvEntry ar).times g.nKv g.mmap.bytes 24).map Prod.fst

/-- Each tensor of the sorted list runs to the offset of the next one, the last one to the end. -/
def spans (fileEndRel : Nat) : List (Nat × TensorIndexEntry) → Option (List (Nat × Nat))
  | [] => some []
  | [(i, t)] => do
      let n ← ar.sub fileEndRel t.dataOffsetRel
      pure [(i, n)]
  | (i, t) :: (j, u) :: rest => do
      let n ← ar.sub u.dataOffsetRel t.dataOffsetRel
      let sizes ← spans fileEndRel ((j, u) :: rest)
      pure ((i, n) :: sizes)

def setSize (ts : List TensorIndexEntry) (i n : Nat) : List TensorIndexEntry :=
  ts.modify i fun t => { t with nBytes := n }

def Gguf.tensors (g : Gguf) : Except (Stop GgufError) (List TensorIndexEntry) := do
  let (ts, _) ← (readTensor ar .tooManyDimsOf).times g.nTensors g.mmap.bytes g.kvEndOffset
  let sorted := ts.zipIdx.map (fun (t, i) => (i, t)) |>.mergeSort
    fun a b => decide (a.2.dataOffsetRel ≤ b.2.dataOffsetRel)
  match ar.sub g.mmap.bytes.length g.tensorDataOffset with
  | none => .error .panicked
  | some fileEndRel =>
      match spans ar fileEndRel sorted with
      | none => .error .panicked
      | some sizes => .ok (sizes.foldl (fun ts (i, n) => setSize ts i n) ts)

/-- `&mmap[start..stop]`. -/
def Mmap.slice (m : Mmap) (start stop : Nat) : Option Bytes :=
  if stop < start ∨ m.bytes.length < stop then none
  else some ((m.bytes.drop start).take (stop - start))

def Gguf.tensorBytes (g : Gguf) (entry : TensorIndexEntry) : Option Bytes := do
  let start ← ar.add g.tensorDataOffset entry.dataOffsetRel
  let stop ← ar.add start entry.nBytes
  g.mmap.slice start stop

end Parse

end IntelNav.ModelStore
