import IntelNav.ModelStore.Gguf
import IntelNav.Text.Utf8

/-! The grammar of GGUF headers, and the reader that accepts just its words. -/

set_option autoImplicit false
set_option relaxedAutoImplicit false

namespace IntelNav.ModelStore

open IntelNav.Reading

def utf8 (s : String) : Bytes := s.toUTF8.data.toList

theorem utf8_inj {s t : String} : utf8 s = utf8 t ↔ s = t := by
  constructor
  · intro h
    refine String.toByteArray_inj.mp (ByteArray.ext (Array.toList_inj.mp ?_))
    simpa [utf8, String.toUTF8_eq_toByteArray] using h
  · rintro rfl
    rfl

theorem KvType.fromU32_eq_ok {v : Nat} {ty : KvType} : fromU32 v = .ok ty ↔ ty.code = v := by
  constructor
  · intro h
    unfold fromU32 at h
    split at h <;> first | (obtain rfl := Except.ok.inj h; rfl) | cases h
  · rintro rfl
    cases ty <;> rfl

/-- A text with its length in eight bytes; GGUF does not say what is in it. -/
structure Blob where
  bytes : Bytes
  length_lt : bytes.length < 2 ^ 64

def Blob.word (b : Blob) : Bytes := leBytes 8 b.bytes.length ++ b.bytes

structure Name where
  text : String
  length_lt : (utf8 text).length < 2 ^ 64

def Name.word (n : Name) : Bytes := leBytes 8 (utf8 n.text).length ++ utf8 n.text

/-- The value of a KV entry. The payload of an array of scalars is as long as its size times its
count, by the arithmetic of the reader. -/
inductive Value (ar : Arith)
  | scalar (ty : KvType) (payload : Bytes) (hsize : ty.scalarSize = some payload.length)
  | string (text : Blob)
  | scalars (ty : KvType) (size n : Nat) (payload : Bytes) (hsize : ty.scalarSize = some size)
      (hn : n < 2 ^ 64) (hlen : ar.mul size n = some payload.length)
  | strings (texts : List Blob) (hn : texts.length < 2 ^ 64)

namespace Value

variable {ar : Arith}

def ty : Value ar → KvType
  | .scalar ty .. => ty
  | .string _ => .string
  | .scalars .. | .strings .. => .array

def word : Value ar → Bytes
  | .scalar _ payload _ => payload
  | .string text => text.word
  | .scalars ty _ n payload _ _ _ => leBytes 4 ty.code ++ leBytes 8 n ++ payload
  | .strings texts _ =>
      leBytes 4 KvType.string.code ++ leBytes 8 texts.length ++ texts.flatMap Blob.word

end Value

structure Entry (ar : Arith) where
  key : Name
  value : Value ar

namespace Entry

variable {ar : Arith}

def word (e : Entry ar) : Bytes :=
  e.key.word ++ leBytes 4 e.value.ty.code ++ e.value.word

def alignment (alignment : Nat) (e : Entry ar) : Nat :=
  if e.key.text = "general.alignment" ∧ e.value.ty = .u32 then ofLeBytes (e.value.word.take 4)
  else alignment

end Entry

structure TensorInfo where
  name : Name
  shape : List UInt64
  dtype : UInt32
  dataOffsetRel : UInt64
  dims : shape.length ≤ ggufMaxDims

namespace TensorInfo

def word (t : TensorInfo) : Bytes :=
  t.name.word ++ leBytes 4 t.shape.length ++ t.shape.flatMap (fun d => leBytes 8 d.toNat) ++
    leBytes 4 t.dtype.toNat ++ leBytes 8 t.dataOffsetRel.toNat

def indexEntry (t : TensorInfo) : TensorIndexEntry where
  name := t.name.text
  shape := t.shape.map fun d => Int64.ofNat d.toNat
  dtype := t.dtype.toNat
  dataOffsetRel := t.dataOffsetRel.toNat
  nBytes := 0

end TensorInfo

structure Header (ar : Arith) where
  entries : List (Entry ar)
  tensors : List TensorInfo
  entries_le : entries.length ≤ ggufMaxKv
  tensors_le : tensors.length ≤ ggufMaxTensors

namespace Header

variable {ar : Arith} (hd : Header ar)

def counts : Bytes :=
  ggufMagic ++ leBytes 4 ggufVersionSupported ++ leBytes 8 hd.tensors.length ++
    leBytes 8 hd.entries.length

def kv : Bytes := hd.entries.flatMap Entry.word

def index : Bytes := hd.tensors.flatMap TensorInfo.word

def word : Bytes := hd.counts ++ hd.kv ++ hd.index

/-- The last `general.alignment` of type `u32`, or the default. -/
def alignment : Nat := hd.entries.foldl Entry.alignment ggufDefaultAlignment

def kvEnd : Nat := hd.counts.length + hd.kv.length

/-- The first multiple of the alignment that is not before the offset. -/
def alignedUp (offset alignment : Nat) : Nat :=
  if alignment = 0 then offset else (offset + alignment - 1) / alignment * alignment

/-- What `Gguf::open` tells of a file that begins with the header. -/
def gguf (mmap : Mmap) : Gguf where
  mmap
  version := ggufVersionSupported
  alignment := hd.alignment
  tensorDataOffset := alignedUp hd.word.length hd.alignment
  nKv := hd.entries.length
  nTensors := hd.tensors.length
  kvEndOffset := hd.kvEnd
  indexEndOffset := hd.word.length

end Header

/-! The readers of the parts. -/

section Reading

variable {ar : Arith} (har : ar.Words 64)

def fileBound : Nat := 2 ^ 63

include har

theorem reads_readBytes {n : Nat}
    (hn : n < 2 ^ 64 ∨ ∀ c e, ar.add c n = some e → 2 ^ 64 ≤ e) :
    Reads fileBound (readBytes ar n) fun _ a s => a = s ∧ s.length = n :=
  Reads.take har (by decide) _ hn

theorem reads_readU32 :
    Reads fileBound (readU32 ar) fun _ a s => a < 2 ^ 32 ∧ s = leBytes 4 a := by
  refine ((reads_readBytes har (.inl (by decide))).bind fun _ b _ _ =>
    Reads.pure _ (ofLeBytes b)).congr fun pos a s => ?_
  constructor
  · rintro ⟨b, s₁, s₂, ⟨rfl, hlen⟩, ⟨rfl, rfl⟩, rfl⟩
    refine ⟨by simpa [hlen] using ofLeBytes_lt b, ?_⟩
    rw [List.append_nil, ← hlen, leBytes_ofLeBytes]
  · rintro ⟨ha, rfl⟩
    exact ⟨_, _, [], ⟨rfl, length_leBytes 4 a⟩, ⟨(ofLeBytes_leBytes_of_lt ha).symm, rfl⟩, by simp⟩

theorem reads_readU64 :
    Reads fileBound (readU64 ar) fun _ a s => a < 2 ^ 64 ∧ s = leBytes 8 a := by
  refine ((reads_readBytes har (.inl (by decide))).bind fun _ b _ _ =>
    Reads.pure _ (ofLeBytes b)).congr fun pos a s => ?_
  constructor
  · rintro ⟨b, s₁, s₂, ⟨rfl, hlen⟩, ⟨rfl, rfl⟩, rfl⟩
    refine ⟨by simpa [hlen] using ofLeBytes_lt b, ?_⟩
    rw [List.append_nil, ← hlen, leBytes_ofLeBytes]
  · rintro ⟨ha, rfl⟩
    exact ⟨_, _, [], ⟨rfl, length_leBytes 8 a⟩, ⟨(ofLeBytes_leBytes_of_lt ha).symm, rfl⟩, by simp⟩

omit har in
private theorem reads_decoded (len : Nat) (bytes : Bytes) :
    Reads fileBound
      (match String.fromUTF8? ⟨bytes.toArray⟩ with
        | some s => (pure s : Parser String)
        | none => Cursor.fail fun pos => .malformed (pos - len) .notUtf8)
      fun _ a s => utf8 a = bytes ∧ s = [] := by
  cases hutf8 : String.fromUTF8? ⟨bytes.toArray⟩ with
  | none =>
      refine (Reads.fail _ _).congr fun pos a s => ?_
      simp only [false_iff]
      rintro ⟨ha, -⟩
      rw [Text.fromUTF8?_eq_some.mpr ha] at hutf8
      cases hutf8
  | some text =>
      obtain rfl := Text.fromUTF8?_eq_some.mp hutf8
      exact (Reads.pure _ text).congr fun pos a s => and_congr_left fun _ => utf8_inj.symm

theorem reads_readString :
    Reads fileBound (readString ar) fun _ a s => ∃ n : Name, a = n.text ∧ s = n.word := by
  refine ((reads_readU64 har).bind fun _ len _ hlen =>
    (reads_readBytes har (.inl hlen.1)).bind fun _ bytes _ _ => reads_decoded len bytes).congr
      fun pos a s => ?_
  constructor
  · rintro ⟨len, _, _, ⟨hlt, rfl⟩, ⟨_, _, _, ⟨rfl, rfl⟩, ⟨rfl, rfl⟩, rfl⟩, rfl⟩
    exact ⟨⟨a, hlt⟩, rfl, by simp [Name.word]⟩
  · rintro ⟨n, rfl, rfl⟩
    exact ⟨_, _, _, ⟨n.length_lt, rfl⟩, ⟨_, _, [], ⟨rfl, rfl⟩, ⟨rfl, rfl⟩, rfl⟩, by
      simp [Name.word]⟩

theorem reads_skipString :
    Reads fileBound (skipString ar) fun _ _ s => ∃ b : Blob, s = b.word := by
  refine ((reads_readU64 har).bind fun _ n _ hn =>
    (reads_readBytes har (.inl hn.1)).bind fun _ _ _ _ => Reads.pure _ ()).congr fun pos a s => ?_
  constructor
  · rintro ⟨n, _, _, ⟨hlt, rfl⟩, ⟨_, _, _, ⟨rfl, rfl⟩, ⟨-, rfl⟩, rfl⟩, rfl⟩
    exact ⟨⟨_, hlt⟩, by simp [Blob.word]⟩
  · rintro ⟨b, rfl⟩
    exact ⟨_, _, _, ⟨b.length_lt, rfl⟩, ⟨_, _, [], ⟨rfl, rfl⟩, ⟨rfl, rfl⟩, rfl⟩, by
      simp [Blob.word]⟩

private theorem reads_skipScalars (size n : Nat) :
    Reads fileBound (skipScalars ar size n) fun _ _ s => ar.mul size n = some s.length := by
  rw [skipScalars]
  cases hmul : ar.mul size n with
  | none => exact (Reads.panic _).congr fun pos a s => by simp
  | some len =>
      refine ((reads_readBytes har (har.product _ _ _ hmul)).bind fun _ _ _ _ =>
        Reads.pure _ ()).congr fun pos a s => ?_
      constructor
      · rintro ⟨_, _, _, ⟨rfl, rfl⟩, ⟨-, rfl⟩, rfl⟩
        simp
      · intro h
        obtain rfl := Option.some.inj h
        exact ⟨s, s, [], ⟨rfl, rfl⟩, ⟨rfl, rfl⟩, by simp⟩

omit har in
theorem reads_kvType (v : Nat) :
    Reads fileBound (KvType.read v) fun _ ty s => ty.code = v ∧ s = [] := by
  rw [KvType.read]
  cases h : KvType.fromU32 v with
  | error e =>
      refine (Reads.fail _ _).congr fun pos a s => ?_
      simp only [false_iff]
      rintro ⟨ha, -⟩
      rw [KvType.fromU32_eq_ok.mpr ha] at h
      cases h
  | ok ty =>
      refine (Reads.pure _ ty).congr fun pos a s => and_congr_left fun _ => ?_
      rw [← KvType.fromU32_eq_ok, h, Except.ok.injEq, eq_comm]

omit har in
theorem KvType.scalarSize_eq_none {ty : KvType} :
    ty.scalarSize = none ↔ ty = .string ∨ ty = .array := by
  cases ty <;> simp [scalarSize]

omit har in
theorem code_lt (ty : KvType) : ty.code < 2 ^ 32 := by cases ty <;> decide

private theorem reads_elements (elementTy : KvType) (n : Nat) :
    Reads fileBound
      (match elementTy.scalarSize with
        | some size => skipScalars ar size n
        | none =>
            if elementTy = .string then do
              let _ ← (skipString ar).times n
              pure ()
            else Cursor.fail fun pos => .malformed pos .nestedArray)
      fun _ _ s => (∃ size, elementTy.scalarSize = some size ∧ ar.mul size n = some s.length) ∨
        elementTy = .string ∧ ∃ texts : List Blob, texts.length = n ∧
          s = texts.flatMap Blob.word := by
  cases hsize : elementTy.scalarSize with
  | some size =>
      refine (reads_skipScalars har size n).congr fun pos a s => ?_
      constructor
      · intro hlen
        exact .inl ⟨size, rfl, hlen⟩
      · rintro (⟨_, hsize', hlen⟩ | ⟨rfl, -⟩)
        · obtain rfl := Option.some.inj hsize'
          exact hlen
        · cases hsize
  | none =>
      dsimp only
      split
      · rename_i hstring
        have htexts : Reads fileBound ((skipString ar).times n) fun _ as s =>
            as.length = n ∧ ∃ texts : List Blob, as = texts.map (fun _ => ()) ∧
              s = texts.flatMap Blob.word := by
          refine (((reads_skipString har).congr fun pos a s => ?_).times n).congr
            fun pos as s => and_congr_right fun _ => sequence_iff
          simp
        refine (htexts.bind fun _ _ _ _ => Reads.pure _ ()).congr fun pos a s => ?_
        constructor
        · rintro ⟨_, _, _, ⟨hn, texts, rfl, rfl⟩, ⟨-, rfl⟩, rfl⟩
          exact .inr ⟨hstring, texts, by simpa using hn, by simp⟩
        · rintro (⟨_, hnone, -⟩ | ⟨-, texts, hn, rfl⟩)
          · cases hnone
          · exact ⟨_, _, [], ⟨by simpa using hn, texts, rfl, rfl⟩, ⟨rfl, rfl⟩, by simp⟩
      · rename_i hstring
        refine (Reads.fail _ _).congr fun pos a s => ?_
        simp [hstring]

theorem reads_skipKvValue (ty : KvType) :
    Reads fileBound (skipKvValue ar ty) fun _ _ s => ∃ v : Value ar, v.ty = ty ∧ s = v.word := by
  rw [skipKvValue]
  cases hsize : ty.scalarSize with
  | some size =>
      have hlt : size < 2 ^ 64 := by
        cases ty <;> simp only [KvType.scalarSize, Option.some.injEq, reduceCtorEq] at hsize <;>
          omega
      refine ((reads_readBytes har (.inl hlt)).bind fun _ _ _ _ => Reads.pure _ ()).congr
        fun pos a s => ?_
      constructor
      · rintro ⟨_, _, _, ⟨rfl, rfl⟩, ⟨-, rfl⟩, rfl⟩
        exact ⟨.scalar ty _ hsize, rfl, by simp [Value.word]⟩
      · rintro ⟨v, rfl, rfl⟩
        cases v with
        | scalar ty payload hs =>
            obtain rfl := Option.some.inj (hs.symm.trans hsize)
            exact ⟨_, _, [], ⟨rfl, rfl⟩, ⟨rfl, rfl⟩, by simp [Value.word]⟩
        | _ => cases hsize
  | none =>
      dsimp only
      split
      · rename_i hstring
        subst hstring
        refine (reads_skipString har).congr fun pos a s => ?_
        constructor
        · rintro ⟨b, rfl⟩
          exact ⟨.string b, rfl, rfl⟩
        · rintro ⟨v, hty, rfl⟩
          cases v with
          | scalar ty payload hs =>
              obtain rfl : ty = .string := hty
              cases hs
          | string text => exact ⟨text, rfl⟩
          | _ => cases hty
      · rename_i hstring
        obtain rfl : ty = .array := (KvType.scalarSize_eq_none.mp hsize).resolve_left hstring
        refine ((reads_readU32 har).bind fun _ code _ _ => (reads_kvType code).bind
          fun _ elementTy _ _ => (reads_readU64 har).bind fun _ n _ _ =>
            reads_elements har elementTy n).congr fun pos a s => ?_
        constructor
        · rintro ⟨code, _, _, ⟨hcode, rfl⟩, ⟨elementTy, _, _, ⟨rfl, rfl⟩, ⟨n, _, s, ⟨hn, rfl⟩,
            helements, rfl⟩, rfl⟩, rfl⟩
          rcases helements with ⟨size, hs, hlen⟩ | ⟨rfl, texts, rfl, rfl⟩
          · exact ⟨.scalars elementTy size n s hs hn hlen, rfl, by simp [Value.word]⟩
          · exact ⟨.strings texts hn, rfl, by simp [Value.word]⟩
        · rintro ⟨v, hty, rfl⟩
          cases v with
          | scalar ty payload hs =>
              obtain rfl : ty = .array := hty
              cases hs
          | string text => cases hty
          | scalars ty size n payload hs hn hlen =>
              exact ⟨_, _, _, ⟨code_lt ty, rfl⟩, ⟨ty, [], _, ⟨rfl, rfl⟩, ⟨n, _, payload, ⟨hn, rfl⟩,
                .inl ⟨size, hs, hlen⟩, rfl⟩, rfl⟩, by simp [Value.word]⟩
          | strings texts hn =>
              exact ⟨_, _, _, ⟨code_lt .string, rfl⟩, ⟨.string, [], _, ⟨rfl, rfl⟩, ⟨_, _, _,
                ⟨hn, rfl⟩, .inr ⟨rfl, texts, rfl, rfl⟩, rfl⟩, rfl⟩, by simp [Value.word]⟩

theorem reads_readAlignment (al : Nat) :
    Reads fileBound (readAlignment ar al) fun _ a s =>
      ∃ e : Entry ar, a = e.alignment al ∧ s = e.word := by
  refine ((reads_readString har).bind fun _ key _ _ => (reads_readU32 har).bind
    fun _ code _ _ => (reads_kvType code).bind fun _ ty _ _ =>
      (reads_skipKvValue har ty).spanned.bind fun _ p _ _ => Reads.pure _
        (if key = "general.alignment" ∧ ty = .u32 then ofLeBytes (p.1.take 4) else al)).congr
      fun pos a s => ?_
  constructor
  · rintro ⟨_, _, _, ⟨name, rfl, rfl⟩, ⟨_, _, _, ⟨-, rfl⟩, ⟨ty, _, _, ⟨rfl, rfl⟩, ⟨⟨_, _⟩, _, _,
      ⟨⟨v, rfl, rfl⟩, hraw⟩, ⟨rfl, rfl⟩, rfl⟩, rfl⟩, rfl⟩, rfl⟩
    obtain rfl := hraw
    exact ⟨⟨name, v⟩, rfl, by simp [Entry.word]⟩
  · rintro ⟨⟨name, v⟩, rfl, rfl⟩
    exact ⟨_, _, _, ⟨name, rfl, rfl⟩, ⟨_, _, _, ⟨code_lt v.ty, rfl⟩, ⟨v.ty, [], _, ⟨rfl, rfl⟩,
      ⟨(v.word, ()), _, [], ⟨⟨v, rfl, rfl⟩, rfl⟩, ⟨rfl, rfl⟩, rfl⟩, rfl⟩, rfl⟩, by
        simp [Entry.word]⟩

theorem reads_readAlignments (n al : Nat) :
    Reads fileBound (readAlignments ar n al) fun _ a s =>
      ∃ es : List (Entry ar), es.length = n ∧ a = es.foldl Entry.alignment al ∧
        s = es.flatMap Entry.word := by
  induction n generalizing al with
  | zero =>
      refine (Reads.pure _ al).congr fun pos a s => ?_
      simp [List.length_eq_zero_iff]
  | succ n ih =>
      refine ((reads_readAlignment har al).bind fun _ mid _ _ => ih mid).congr fun pos a s => ?_
      constructor
      · rintro ⟨_, _, _, ⟨e, rfl, rfl⟩, ⟨es, rfl, rfl, rfl⟩, rfl⟩
        exact ⟨e :: es, rfl, rfl, rfl⟩
      · rintro ⟨es, hn, rfl, rfl⟩
        cases es with
        | nil => cases hn
        | cons e es =>
            exact ⟨_, _, _, ⟨e, rfl, rfl⟩, ⟨es, Nat.succ.inj hn, rfl, rfl⟩, rfl⟩

private theorem reads_shape (n : Nat) :
    Reads fileBound ((readU64 ar).times n) fun _ as s => as.length = n ∧
      ∃ ds : List UInt64, as = ds.map UInt64.toNat ∧ s = ds.flatMap fun d => leBytes 8 d.toNat := by
  refine (((reads_readU64 har).congr fun pos a s => ?_).times n).congr
    fun pos as s => and_congr_right fun _ => sequence_iff
  constructor
  · rintro ⟨ha, rfl⟩
    have hd : (UInt64.ofNat a).toNat = a := UInt64.toNat_ofNat_of_lt' ha
    exact ⟨UInt64.ofNat a, hd.symm, by rw [hd]⟩
  · rintro ⟨d, rfl, rfl⟩
    exact ⟨d.toNat_lt, rfl⟩

theorem reads_readTensor (tooMany : String → Nat → Defect) :
    Reads fileBound (readTensor ar tooMany) fun _ a s =>
      ∃ t : TensorInfo, a = t.indexEntry ∧ s = t.word := by
  have hrest : ∀ name nDims, Reads fileBound
      (if nDims > ggufMaxDims then
        (Cursor.fail fun pos => .malformed pos (tooMany name nDims) : Parser TensorIndexEntry)
      else do
        let shape ← (readU64 ar).times nDims
        let dtype ← readU32 ar
        let dataOffsetRel ← readU64 ar
        pure { name, shape := shape.map Int64.ofNat, dtype, dataOffsetRel, nBytes := 0 })
      fun _ a s => ∃ (shape : List UInt64) (dtype : UInt32) (rel : UInt64),
        shape.length = nDims ∧ nDims ≤ ggufMaxDims ∧
        a = ⟨name, shape.map fun d => Int64.ofNat d.toNat, dtype.toNat, rel.toNat, 0⟩ ∧
        s = shape.flatMap (fun d => leBytes 8 d.toNat) ++ leBytes 4 dtype.toNat ++
          leBytes 8 rel.toNat := by
    intro name nDims
    refine (Reads.refused <| (reads_shape har nDims).bind fun _ shape _ _ => (reads_readU32 har).bind
      fun _ dtype _ _ => (reads_readU64 har).bind fun _ rel _ _ => Reads.pure _
        (⟨name, shape.map Int64.ofNat, dtype, rel, 0⟩ : TensorIndexEntry)).congr fun pos a s => ?_
    constructor
    · rintro ⟨hfew, _, _, _, ⟨hn, ds, rfl, rfl⟩, ⟨dtype, _, _, ⟨hdtype, rfl⟩, ⟨rel, _, _,
        ⟨hrel, rfl⟩, ⟨rfl, rfl⟩, rfl⟩, rfl⟩, rfl⟩
      have hdtype' : (UInt32.ofNat dtype).toNat = dtype := UInt32.toNat_ofNat_of_lt' hdtype
      have hrel' : (UInt64.ofNat rel).toNat = rel := UInt64.toNat_ofNat_of_lt' hrel
      refine ⟨ds, UInt32.ofNat dtype, UInt64.ofNat rel, by simpa using hn, not_lt.mp hfew, ?_, ?_⟩
      · rw [hdtype', hrel', List.map_map]
        rfl
      · rw [hdtype', hrel', List.append_nil, List.append_assoc]
    · rintro ⟨ds, dtype, rel, hn, hdims, rfl, rfl⟩
      exact ⟨not_lt.mpr hdims, _, _, _, ⟨by simpa using hn, ds, rfl, rfl⟩, ⟨_, _, _,
        ⟨dtype.toNat_lt, rfl⟩, ⟨_, _, [], ⟨rel.toNat_lt, rfl⟩, ⟨by simp, rfl⟩, rfl⟩, rfl⟩, by simp⟩
  refine ((reads_readString har).bind fun _ name _ _ => (reads_readU32 har).bind
    fun _ nDims _ _ => hrest name nDims).congr fun pos a s => ?_
  constructor
  · rintro ⟨_, _, _, ⟨name, rfl, rfl⟩, ⟨_, _, _, ⟨-, rfl⟩, ⟨shape, dtype, rel, rfl, hdims, rfl,
      rfl⟩, rfl⟩, rfl⟩
    exact ⟨⟨name, shape, dtype, rel, hdims⟩, rfl, by simp [TensorInfo.word]⟩
  · rintro ⟨⟨name, shape, dtype, rel, hdims⟩, rfl, rfl⟩
    have hlt : shape.length < 2 ^ 32 := hdims.trans_lt (by decide)
    exact ⟨_, _, _, ⟨name, rfl, rfl⟩, ⟨_, _, _, ⟨hlt, rfl⟩, ⟨shape, dtype, rel, rfl, hdims, rfl,
      rfl⟩, rfl⟩, by simp [TensorInfo.word]⟩

theorem reads_tensors (tooMany : String → Nat → Defect) (n : Nat) :
    Reads fileBound ((readTensor ar tooMany).times n) fun _ as s => as.length = n ∧
      ∃ ts : List TensorInfo, as = ts.map TensorInfo.indexEntry ∧
        s = ts.flatMap TensorInfo.word :=
  ((reads_readTensor har tooMany).times n).congr
    fun _ _ _ => and_congr_right fun _ => sequence_iff

end Reading

end IntelNav.ModelStore
