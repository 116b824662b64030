import IntelNav.ModelStore.GgufOpen

/-! Where `Gguf::open` overflows: the lengths that pass the last position a word can count. -/

set_option autoImplicit false
set_option relaxedAutoImplicit false

namespace IntelNav.ModelStore

open IntelNav.Reading

/-- A length whose bytes, counted from its position, pass the last word. -/
def Overlong (pos : Nat) (s : Bytes) : Prop :=
  ∃ n, n < 2 ^ 64 ∧ s = leBytes 8 n ∧ 2 ^ 64 ≤ pos + 8 + n

/-- Elements of an array that do: scalars all at once, or one of its texts. -/
def ElementsOverlong (elementTy : KvType) (n pos : Nat) (s : Bytes) : Prop :=
  (∃ size, elementTy.scalarSize = some size ∧ s = [] ∧ 2 ^ 64 ≤ pos + size * n) ∨
  elementTy = .string ∧ ∃ (texts : List Blob) (t : Bytes), texts.length < n ∧
    s = texts.flatMap Blob.word ++ t ∧ Overlong (pos + (texts.flatMap Blob.word).length) t

def ValueOverlong (ty : KvType) (pos : Nat) (s : Bytes) : Prop :=
  ty = .string ∧ Overlong pos s ∨
  ty = .array ∧ ∃ (elementTy : KvType) (n : Nat) (t : Bytes), n < 2 ^ 64 ∧
    s = leBytes 4 elementTy.code ++ leBytes 8 n ++ t ∧ ElementsOverlong elementTy n (pos + 12) t

def EntryOverlong (pos : Nat) (s : Bytes) : Prop :=
  Overlong pos s ∨
  ∃ (key : Name) (ty : KvType) (t : Bytes), s = key.word ++ leBytes 4 ty.code ++ t ∧
    ValueOverlong ty (pos + key.word.length + 4) t

def countsWord (nTensors nKv : Nat) : Bytes :=
  ggufMagic ++ leBytes 4 ggufVersionSupported ++ leBytes 8 nTensors ++ leBytes 8 nKv

/-- The beginning of a header, up to the first length that passes the last word: in one of its KV
entries, or in the name of one of its tensors. -/
def HeaderOverlong (s : Bytes) : Prop :=
  ∃ (nTensors nKv : Nat) (es : List (Entry checked)) (t : Bytes),
    nTensors ≤ ggufMaxTensors ∧ nKv ≤ ggufMaxKv ∧
    s = countsWord nTensors nKv ++ es.flatMap Entry.word ++ t ∧
    (es.length < nKv ∧ EntryOverlong (24 + (es.flatMap Entry.word).length) t ∨
      es.length = nKv ∧ ∃ (ts : List TensorInfo) (u : Bytes), ts.length < nTensors ∧
        t = ts.flatMap TensorInfo.word ++ u ∧
        Overlong (24 + (es.flatMap Entry.word).length + (ts.flatMap TensorInfo.word).length) u)

/-! The readers of the parts. -/

private theorem faults_readBytes (n : Nat) :
    Faults fileBound (readBytes checked n) fun pos s => 2 ^ 64 ≤ pos + n ∧ s = [] :=
  Faults.take fileBound 64 _ n

private theorem faults_few {n : Nat} (hn : n ≤ 8) :
    Faults fileBound (readBytes checked n) fun _ _ => False := by
  refine (faults_readBytes n).congr fun pos s hpos => ?_
  have hbound : pos + s.length < 2 ^ 63 := hpos
  simp only [iff_false, not_and]
  omega

private theorem faults_readU32 : Faults fileBound (readU32 checked) fun _ _ => False := by
  have hfour : Reads fileBound (readBytes checked 4) fun _ a s => a = s ∧ s.length = 4 :=
    reads_readBytes words_checked (.inl (by decide))
  exact (Faults.bind hfour (faults_few (by decide)) fun _ b _ _ =>
    Faults.pure _ (ofLeBytes b)).congr fun pos s _ => by simp

private theorem faults_readU64 : Faults fileBound (readU64 checked) fun _ _ => False := by
  have height : Reads fileBound (readBytes checked 8) fun _ a s => a = s ∧ s.length = 8 :=
    reads_readBytes words_checked (.inl (by decide))
  exact (Faults.bind height (faults_few (by decide)) fun _ b _ _ =>
    Faults.pure _ (ofLeBytes b)).congr fun pos s _ => by simp

private theorem faults_sized {α : Type} {f : Nat → Bytes → Parser α}
    (hf : ∀ len bytes, Faults fileBound (f len bytes) fun _ _ => False) :
    Faults fileBound (readU64 checked >>= fun len => readBytes checked len >>= f len) Overlong := by
  refine (Faults.bind (reads_readU64 words_checked) faults_readU64 fun _ len _ hlen =>
    Faults.bind (reads_readBytes words_checked (.inl hlen.1)) (faults_readBytes len)
      fun _ bytes _ _ => hf len bytes).congr fun pos s _ => ?_
  constructor
  · rintro (h | ⟨len, _, _, ⟨hlt, rfl⟩, ⟨hover, rfl⟩ | ⟨_, _, _, _, h, _⟩, rfl⟩)
    · exact h.elim
    · refine ⟨len, hlt, by simp, ?_⟩
      simpa using hover
    · exact h.elim
  · rintro ⟨len, hlt, rfl, hover⟩
    exact .inr ⟨len, _, [], ⟨hlt, rfl⟩, .inl ⟨by simpa using hover, rfl⟩, by simp⟩

private theorem faults_readString : Faults fileBound (readString checked) Overlong := by
  refine faults_sized fun len bytes => ?_
  cases String.fromUTF8? ⟨bytes.toArray⟩ with
  | none => exact Faults.fail _ _
  | some text => exact Faults.pure _ text

private theorem faults_skipString : Faults fileBound (skipString checked) Overlong :=
  faults_sized fun _ _ => Faults.pure _ ()

private theorem faults_kvType (v : Nat) : Faults fileBound (KvType.read v) fun _ _ => False := by
  unfold KvType.read
  cases KvType.fromU32 v with
  | error e => exact Faults.fail _ _
  | ok ty => exact Faults.pure _ ty

private theorem faults_skipScalars (size n : Nat) :
    Faults fileBound (skipScalars checked size n)
      fun pos s => s = [] ∧ 2 ^ 64 ≤ pos + size * n := by
  unfold skipScalars
  cases hmul : checked.mul size n with
  | none =>
      have hbig : 2 ^ 64 ≤ size * n := by
        by_contra hsmall
        simp only [checked, Arith.trapping] at hmul
        rw [if_pos (Nat.not_le.mp hsmall)] at hmul
        cases hmul
      refine (Faults.panic _).congr fun pos s _ => ?_
      constructor
      · intro h
        exact ⟨h, by omega⟩
      · exact fun h => h.1
  | some len =>
      have hlen : size * n = len := by
        simp only [checked, Arith.trapping] at hmul
        split at hmul
        · exact Option.some.inj hmul
        · cases hmul
      have hreads := reads_readBytes words_checked (words_checked.product _ _ _ hmul)
      refine (Faults.bind hreads (faults_readBytes len) fun _ _ _ _ => Faults.pure _ ()).congr
        fun pos s _ => ?_
      rw [hlen]
      constructor
      · rintro (h | ⟨_, _, _, _, h, _⟩)
        · exact ⟨h.2, h.1⟩
        · exact h.elim
      · exact fun h => .inl ⟨h.2, h.1⟩

private theorem faults_texts (n : Nat) :
    Faults fileBound ((skipString checked).times n) fun pos s =>
      ∃ (texts : List Blob) (t : Bytes), texts.length < n ∧ s = texts.flatMap Blob.word ++ t ∧
        Overlong (pos + (texts.flatMap Blob.word).length) t := by
  have hreads : Reads fileBound (skipString checked) fun _ a s => ∃ b : Blob, a = () ∧ s = b.word :=
    (reads_skipString words_checked).congr fun pos a s => by simp
  exact Faults.times_words hreads faults_skipString n

private theorem faults_elements (elementTy : KvType) (n : Nat) :
    Faults fileBound
      (match elementTy.scalarSize with
        | some size => skipScalars checked size n
        | none =>
            if elementTy = .string then do
              let _ ← (skipString checked).times n
              pure ()
            else Cursor.fail fun pos => .malformed pos .nestedArray)
      (ElementsOverlong elementTy n) := by
  cases hsize : elementTy.scalarSize with
  | some size =>
      refine (faults_skipScalars size n).congr fun pos s _ => ?_
      constructor
      · rintro ⟨rfl, hover⟩
        exact .inl ⟨size, hsize, rfl, hover⟩
      · rintro (⟨_, hsize', rfl, hover⟩ | ⟨rfl, -⟩)
        · obtain rfl := Option.some.inj (hsize.symm.trans hsize')
          exact ⟨rfl, hover⟩
        · cases hsize
  | none =>
      dsimp only
      split
      · rename_i hstring
        have htexts := (reads_skipString words_checked).times n
        refine (Faults.bind htexts (faults_texts n) fun _ _ _ _ => Faults.pure _ ()).congr
          fun pos s _ => ?_
        constructor
        · rintro (h | ⟨_, _, _, _, h, _⟩)
          · exact .inr ⟨hstring, h⟩
          · exact h.elim
        · rintro (⟨_, hsize', -⟩ | ⟨-, h⟩)
          · rw [hsize] at hsize'
            cases hsize'
          · exact .inl h
      · rename_i hstring
        refine (Faults.fail _ _).congr fun pos s _ => ?_
        simp only [false_iff]
        rintro (⟨_, hsize', -⟩ | ⟨h, -⟩)
        · rw [hsize] at hsize'
          cases hsize'
        · exact hstring h

private theorem faults_skipKvValue (ty : KvType) :
    Faults fileBound (skipKvValue checked ty) (ValueOverlong ty) := by
  unfold skipKvValue
  cases hsize : ty.scalarSize with
  | some size =>
      have hfew : size ≤ 8 := by
        cases ty <;> simp only [KvType.scalarSize, Option.some.injEq, reduceCtorEq] at hsize <;>
          omega
      have hreads : Reads fileBound (readBytes checked size) fun _ a s => a = s ∧ s.length = size :=
        reads_readBytes words_checked (.inl (by omega))
      refine (Faults.bind hreads (faults_few hfew) fun _ _ _ _ => Faults.pure _ ()).congr
        fun pos s _ => ?_
      have hnot : ¬ ValueOverlong ty pos s := by
        rintro (⟨rfl, -⟩ | ⟨rfl, -⟩) <;> cases hsize
      simp [hnot]
  | none =>
      dsimp only
      split
      · rename_i hstring
        subst hstring
        refine faults_skipString.congr fun pos s _ => ?_
        simp [ValueOverlong]
      · rename_i hstring
        obtain rfl : ty = .array := (KvType.scalarSize_eq_none.mp hsize).resolve_left hstring
        refine (Faults.bind (reads_readU32 words_checked) faults_readU32 fun _ code _ _ =>
          Faults.bind (reads_kvType code) (faults_kvType code) fun _ elementTy _ _ =>
            Faults.bind (reads_readU64 words_checked) faults_readU64 fun _ n _ _ =>
              faults_elements elementTy n).congr fun pos s _ => ?_
        constructor
        · rintro (h | ⟨code, _, _, ⟨-, rfl⟩, h | ⟨elementTy, _, _, ⟨rfl, rfl⟩,
            h | ⟨n, _, t, ⟨hn, rfl⟩, h, rfl⟩, rfl⟩, rfl⟩)
          · exact h.elim
          · exact h.elim
          · exact h.elim
          · refine .inr ⟨rfl, elementTy, n, t, hn, by simp, ?_⟩
            simpa [Nat.add_assoc] using h
        · rintro (⟨h, -⟩ | ⟨-, elementTy, n, t, hn, rfl, h⟩)
          · cases h
          · refine .inr ⟨_, _, _, ⟨code_lt elementTy, rfl⟩, .inr ⟨elementTy, [], _, ⟨rfl, rfl⟩,
              .inr ⟨n, _, t, ⟨hn, rfl⟩, ?_, rfl⟩, rfl⟩, by simp⟩
            simpa [Nat.add_assoc] using h

private theorem faults_readAlignment (al : Nat) :
    Faults fileBound (readAlignment checked al) EntryOverlong := by
  refine (Faults.bind (reads_readString words_checked) faults_readString fun _ key _ _ =>
    Faults.bind (reads_readU32 words_checked) faults_readU32 fun _ code _ _ =>
      Faults.bind (reads_kvType code) (faults_kvType code) fun _ ty _ _ =>
        Faults.bind (reads_skipKvValue words_checked ty).spanned (faults_skipKvValue ty).spanned
          fun _ p _ _ => Faults.pure _ (if key = "general.alignment" ∧ ty = .u32 then
            ofLeBytes (p.1.take 4) else al)).congr fun pos s _ => ?_
  constructor
  · rintro (h | ⟨_, _, _, ⟨key, rfl, rfl⟩, h | ⟨code, _, t, ⟨-, rfl⟩, h | ⟨ty, _, _, ⟨rfl, rfl⟩,
      h | ⟨_, _, _, _, h, _⟩, rfl⟩, rfl⟩, rfl⟩)
    · exact .inl h
    · exact h.elim
    · exact h.elim
    · refine .inr ⟨key, ty, t, by simp, ?_⟩
      simpa using h
    · exact h.elim
  · rintro (h | ⟨key, ty, t, rfl, h⟩)
    · exact .inl h
    · refine .inr ⟨_, _, _, ⟨key, rfl, rfl⟩, .inr ⟨_, _, _, ⟨code_lt ty, rfl⟩,
        .inr ⟨ty, [], t, ⟨rfl, rfl⟩, .inl ?_, rfl⟩, rfl⟩, by simp⟩
      simpa using h

private theorem faults_readAlignments (n al : Nat) :
    Faults fileBound (readAlignments checked n al) fun pos s =>
      ∃ (es : List (Entry checked)) (t : Bytes), es.length < n ∧ s = es.flatMap Entry.word ++ t ∧
        EntryOverlong (pos + (es.flatMap Entry.word).length) t := by
  induction n generalizing al with
  | zero => exact (Faults.pure _ al).congr fun pos s _ => by simp
  | succ n ih =>
      refine (Faults.bind (reads_readAlignment words_checked al) (faults_readAlignment al)
        fun _ mid _ _ => ih mid).congr fun pos s _ => ?_
      constructor
      · rintro (h | ⟨_, _, _, ⟨e, rfl, rfl⟩, ⟨es, t, hn, rfl, h⟩, rfl⟩)
        · exact ⟨[], s, Nat.succ_pos n, rfl, h⟩
        · refine ⟨e :: es, t, Nat.succ_lt_succ hn, by simp, ?_⟩
          rw [List.flatMap_cons, List.length_append, ← Nat.add_assoc]
          exact h
      · rintro ⟨es, t, hn, rfl, h⟩
        cases es with
        | nil => exact .inl h
        | cons e es =>
            refine .inr ⟨_, _, _, ⟨e, rfl, rfl⟩, ⟨es, t, Nat.lt_of_succ_lt_succ hn, rfl, ?_⟩,
              by simp⟩
            rw [List.flatMap_cons, List.length_append, ← Nat.add_assoc] at h
            exact h

private theorem faults_readTensor (tooMany : String → Nat → Defect) :
    Faults fileBound (readTensor checked tooMany) Overlong := by
  have hrest : ∀ name nDims, Faults fileBound
      (if nDims > ggufMaxDims then
        (Cursor.fail fun pos => .malformed pos (tooMany name nDims) : Parser TensorIndexEntry)
      else do
        let shape ← (readU64 checked).times nDims
        let dtype ← readU32 checked
        let dataOffsetRel ← readU64 checked
        pure { name, shape := shape.map Int64.ofNat, dtype, dataOffsetRel, nBytes := 0 })
      fun _ _ => False := by
    intro name nDims
    split
    · exact Faults.fail _ _
    · refine (Faults.bind ((reads_readU64 words_checked).times nDims)
        (Faults.times (reads_readU64 words_checked) faults_readU64 nDims) fun _ shape _ _ =>
          Faults.bind (reads_readU32 words_checked) faults_readU32 fun _ dtype _ _ =>
            Faults.bind (reads_readU64 words_checked) faults_readU64 fun _ rel _ _ =>
              Faults.pure _ (⟨name, shape.map Int64.ofNat, dtype, rel, 0⟩ : TensorIndexEntry)).congr
        fun pos s _ => by simp
  refine (Faults.bind (reads_readString words_checked) faults_readString fun _ name _ _ =>
    Faults.bind (reads_readU32 words_checked) faults_readU32 fun _ nDims _ _ =>
      hrest name nDims).congr fun pos s _ => by simp

private theorem faults_tensors (tooMany : String → Nat → Defect) (n : Nat) :
    Faults fileBound ((readTensor checked tooMany).times n) fun pos s =>
      ∃ (ts : List TensorInfo) (t : Bytes), ts.length < n ∧ s = ts.flatMap TensorInfo.word ++ t ∧
        Overlong (pos + (ts.flatMap TensorInfo.word).length) t :=
  Faults.times_words (reads_readTensor words_checked tooMany) (faults_readTensor tooMany) n

private theorem faults_then {α β : Type} {r : Parser α} {f : α → Parser β}
    {S : Nat → α → Bytes → Prop} (hreads : Reads fileBound r S)
    (hr : Faults fileBound r fun _ _ => False)
    (hf : ∀ a, Faults fileBound (f a) fun _ _ => False) :
    Faults fileBound (r >>= f) fun _ _ => False :=
  (Faults.bind hreads hr fun _ a _ _ => hf a).congr fun _ _ _ => by simp

private theorem faults_readCounts : Faults fileBound (readCounts checked) fun _ _ => False := by
  have hmagic : Reads fileBound (readBytes checked 4) fun _ a s => a = s ∧ s.length = 4 :=
    reads_readBytes words_checked (.inl (by decide))
  refine faults_then hmagic (faults_few (by decide)) fun magic => ?_
  split
  · exact Faults.fail _ _
  · refine faults_then (reads_readU32 words_checked) faults_readU32 fun version => ?_
    split
    · exact Faults.fail _ _
    · refine faults_then (reads_readU64 words_checked) faults_readU64 fun nTensors => ?_
      refine faults_then (reads_readU64 words_checked) faults_readU64 fun nKv => ?_
      split
      · exact Faults.fail _ _
      · split
        · exact Faults.fail _ _
        · exact Faults.pure _ _

private theorem faults_index (m : Mmap) (nTensors nKv : Nat) {alignment : Nat}
    (hal : alignment < 2 ^ 32) :
    Faults fileBound (do
      let kvEnd ← Cursor.here
      let _ ← (readTensor checked fun _ n => .tooManyDims n).times nTensors
      let indexEnd ← Cursor.here
      match alignUp checked indexEnd alignment with
        | none => (Cursor.panic : Parser Gguf)
        | some tensorDataOffset =>
            pure
              { mmap := m, version := ggufVersionSupported, alignment, tensorDataOffset, nKv
                nTensors, kvEndOffset := kvEnd, indexEndOffset := indexEnd })
      fun pos s => ∃ (ts : List TensorInfo) (t : Bytes), ts.length < nTensors ∧
        s = ts.flatMap TensorInfo.word ++ t ∧
        Overlong (pos + (ts.flatMap TensorInfo.word).length) t := by
  have hdone : ∀ kvEnd indexEnd, Faults fileBound
      (match alignUp checked indexEnd alignment with
        | none => (Cursor.panic : Parser Gguf)
        | some tensorDataOffset =>
            pure
              { mmap := m, version := ggufVersionSupported, alignment, tensorDataOffset, nKv
                nTensors, kvEndOffset := kvEnd, indexEndOffset := indexEnd })
      fun _ s => alignUp checked indexEnd alignment = none ∧ s = [] := by
    intro kvEnd indexEnd
    cases alignUp checked indexEnd alignment with
    | none => exact (Faults.panic _).congr fun pos s _ => by simp
    | some data => exact (Faults.pure _ _).congr fun pos s _ => by simp
  refine (Faults.bind (Reads.here _) (Faults.here _) fun _ kvEnd _ _ =>
    Faults.bind (reads_tensors words_checked (fun _ n => .tooManyDims n) nTensors)
      (faults_tensors _ nTensors) fun _ _ _ _ => Faults.bind (Reads.here _) (Faults.here _)
        fun _ indexEnd _ _ => hdone kvEnd indexEnd).congr fun pos s hpos => ?_
  constructor
  · rintro (h | ⟨_, _, _, ⟨-, rfl⟩, h | ⟨_, s₁, _, -, h | ⟨_, _, _, ⟨rfl, rfl⟩, ⟨hnone, rfl⟩,
      rfl⟩, rfl⟩, rfl⟩)
    · exact h.elim
    · simpa using h
    · exact h.elim
    · have hfits : pos + s₁.length < fileBound := by simpa using hpos
      rw [show pos + List.length [] + s₁.length = pos + s₁.length by simp,
        alignUp_eq words_checked hfits hal] at hnone
      cases hnone
  · intro h
    exact .inr ⟨pos, [], s, ⟨rfl, rfl⟩, .inl (by simpa using h), rfl⟩

/-- `Gguf::open` panics on the files in which a header reaches a length that passes the last
word. -/
theorem open_panics_iff {m : Mmap} :
    Gguf.open checked m = .error .panicked ↔ ∃ s, HeaderOverlong s ∧ s <+: m.bytes := by
  have hfaults : Faults fileBound (readHeader checked m) _ :=
    Faults.bind (reads_readCounts words_checked) faults_readCounts fun _ c _ _ =>
      Faults.bind (reads_readAlignments words_checked c.2 ggufDefaultAlignment)
        (faults_readAlignments c.2 ggufDefaultAlignment) fun _ al _ hal =>
          faults_index m c.1 c.2 (by
            obtain ⟨es, -, rfl, -⟩ := hal
            exact Entry.foldl_alignment_lt es (by decide))
  have hrun : Gguf.open checked m = .error .panicked ↔
      readHeader checked m m.bytes 0 = .error .panicked := by
    rw [Gguf.open]
    cases readHeader checked m m.bytes 0 with
    | ok result => simp [Except.map]
    | error e => simp [Except.map]
  rw [hrun, hfaults m.bytes 0 m.length_lt (Nat.zero_le _)]
  refine exists_congr fun s => and_congr_left fun _ => ?_
  have hcounts : ∀ a b, 0 + (ggufMagic ++ leBytes 4 ggufVersionSupported ++ leBytes 8 a ++
      leBytes 8 b).length = 24 := fun a b => by simp [ggufMagic]
  constructor
  · rintro (h | ⟨⟨nTensors, nKv⟩, _, _, ⟨ht, hkv, rfl⟩, ⟨es, t, hn, rfl, h⟩ |
      ⟨_, _, t, ⟨es, hn, rfl, rfl⟩, h, rfl⟩, rfl⟩)
    · exact h.elim
    · rw [hcounts] at h
      exact ⟨nTensors, nKv, es, t, ht, hkv, by simp [countsWord], .inl ⟨hn, h⟩⟩
    · simp only [hcounts] at h
      exact ⟨nTensors, nKv, es, t, ht, hkv, by simp [countsWord], .inr ⟨hn, h⟩⟩
  · rintro ⟨nTensors, nKv, es, t, ht, hkv, rfl, h⟩
    refine .inr ⟨(nTensors, nKv), _, es.flatMap Entry.word ++ t, ⟨ht, hkv, rfl⟩, ?_,
      by simp [countsWord]⟩
    rcases h with ⟨hn, h⟩ | ⟨hn, h⟩
    · refine .inl ⟨es, t, hn, rfl, ?_⟩
      rw [hcounts]
      exact h
    · refine .inr ⟨_, _, t, ⟨es, hn, rfl, rfl⟩, ?_, rfl⟩
      simp only [hcounts]
      exact h

end IntelNav.ModelStore
