import IntelNav.Core.Floats
import IntelNav.Ggml.Hidden
import Mathlib.Algebra.BigOperators.Group.List.Basic

/-! Sizes of wire payloads, and what a payload decodes to. -/

set_option autoImplicit false
set_option relaxedAutoImplicit false

namespace IntelNav.Ggml

open IntelNav.Core IntelNav.Wire

variable {F : Type}

theorem flatten_length_of_rows {α : Type} {rows : List (List α)} {h : Nat}
    (hrows : ∀ row ∈ rows, row.length = h) : rows.flatten.length = rows.length * h := by
  induction rows with
  | nil => simp
  | cons row rows ih =>
      have hrow := hrows row List.mem_cons_self
      have hrest := ih fun r hr => hrows r (List.mem_cons_of_mem _ hr)
      simp only [List.flatten_cons, List.length_append, List.length_cons, hrow, hrest]
      rw [Nat.succ_mul, Nat.add_comm]

theorem rowSlice_flatten {α : Type} {rows : List (List α)} {h : Nat}
    (hrows : ∀ row ∈ rows, row.length = h) (r : Nat) (hr : r < rows.length) :
    rowSlice rows.flatten h r = rows[r] := by
  induction rows generalizing r with
  | nil => cases hr
  | cons row rows ih =>
      have hrow := hrows row List.mem_cons_self
      have hrest : ∀ x ∈ rows, x.length = h := fun x hx => hrows x (List.mem_cons_of_mem _ hx)
      cases r with
      | zero => simp [rowSlice, hrow]
      | succ r =>
          have hslice := ih hrest r (by simpa using hr)
          simp only [rowSlice, List.flatten_cons, List.getElem_cons_succ] at hslice ⊢
          rw [← hslice, List.drop_append, Nat.succ_mul, hrow,
            List.drop_eq_nil_of_le (by rw [hrow]; omega), List.nil_append]
          congr 2
          omega

theorem map_rowSlice_flatten {α : Type} {rows : List (List α)} {h : Nat}
    (hrows : ∀ row ∈ rows, row.length = h) :
    (List.range rows.length).map (rowSlice rows.flatten h) = rows := by
  refine List.ext_getElem (by simp) fun r hr hr' => ?_
  simp only [List.getElem_map, List.getElem_range]
  exact rowSlice_flatten hrows r hr'

theorem getElem?_rowSlice {α : Type} (xs : List α) {h : Nat} (hh : 0 < h) (i : Nat) :
    (rowSlice xs h (i / h))[i % h]? = xs[i]? := by
  have hcol : i % h < h := Nat.mod_lt i hh
  rw [rowSlice, List.getElem?_take_of_lt hcol, List.getElem?_drop, Nat.div_mul_self_eq_mod_sub_self,
    Nat.sub_add_cancel (Nat.mod_le i h)]

/-- Every list of `rows * h` values is made of rows. -/
theorem exists_rows {α : Type} (xs : List α) (rows h : Nat) (hlen : xs.length = rows * h) :
    ∃ rs : List (List α), rs.length = rows ∧ (∀ row ∈ rs, row.length = h) ∧ rs.flatten = xs := by
  induction rows generalizing xs with
  | zero => exact ⟨[], rfl, by simp, by simpa [eq_comm] using hlen⟩
  | succ rows ih =>
      rw [Nat.succ_mul] at hlen
      obtain ⟨rs, hrs, hrow, hflat⟩ := ih (xs.drop h) (by simp [hlen])
      refine ⟨xs.take h :: rs, by simp [hrs], ?_, by simp [hflat]⟩
      intro row hmem
      rcases List.mem_cons.mp hmem with rfl | hmem
      · simp only [List.length_take]
        omega
      · exact hrow row hmem

private theorem ofLe16_le16 (v : UInt16) : ofLe16 v.toUInt8 (v >>> 8).toUInt8 = v := by
  have hv := v.toNat_lt
  rw [← UInt16.toNat_inj]
  simp only [ofLe16, UInt16.toNat_ofNat', UInt16.toNat_toUInt8, UInt16.toNat_shiftRight,
    Nat.shiftRight_eq_div_pow, UInt16.reduceToNat, Nat.reduceMod, Nat.reducePow]
  omega

private theorem ofLe32_le32 (v : UInt32) :
    ofLe32 v.toUInt8 (v >>> 8).toUInt8 (v >>> 16).toUInt8 (v >>> 24).toUInt8 = v := by
  have hv := v.toNat_lt
  rw [← UInt32.toNat_inj]
  simp only [ofLe32, UInt32.toNat_ofNat', UInt32.toNat_toUInt8, UInt32.toNat_shiftRight,
    Nat.shiftRight_eq_div_pow, UInt32.reduceToNat, Nat.reduceMod, Nat.reducePow]
  omega

@[simp] theorem length_le16 (v : UInt16) : (le16 v).length = 2 := rfl

@[simp] theorem length_le32 (v : UInt32) : (le32 v).length = 4 := rfl

theorem length_flatMap_const {α β : Type} {f : α → List β} {n : Nat} (hf : ∀ x, (f x).length = n)
    (xs : List α) : (xs.flatMap f).length = n * xs.length := by
  simp [List.length_flatMap, hf, Nat.mul_comm]

section Codec

variable [F32 F]

private theorem length_encodeInt8Rows (flat : List F) (rows h : Nat)
    (hlen : flat.length = rows * h) :
    (encodeInt8Rows flat rows h).length = 4 * rows + rows * h := by
  obtain ⟨rs, rfl, hrow, rfl⟩ := exists_rows flat rows h hlen
  have hrows : ∀ r ∈ List.range rs.length, (rowSlice rs.flatten h r).length = h := fun r hr => by
    rw [rowSlice_flatten hrow r (List.mem_range.mp hr)]
    exact hrow _ (List.getElem_mem _)
  simp only [encodeInt8Rows, List.length_append, List.length_flatMap, List.length_map, length_le32,
    List.map_map, Function.comp_def]
  rw [List.map_congr_left (g := fun _ => h) hrows]
  simp [Nat.mul_comm]

def payloadLen (dtype : Dtype) (shape : Shape3) : Nat :=
  let rows := shape.batch.toNat * shape.seq.toNat
  match dtype with
  | .fp16 | .bf16 => 2 * (rows * shape.hidden.toNat)
  | .int8 => 4 * rows + rows * shape.hidden.toNat

/-- What `encode_hidden_with` returns, when it does. -/
theorem encodeHiddenWith_eq_ok {xs : List F} {shape : Shape3} {dtype : Dtype} {p : HiddenPayload} :
    encodeHiddenWith xs shape dtype = .ok p ↔
      shape.batch.toNat * shape.seq.toNat * shape.hidden.toNat < usizeMod ∧
      xs.length = shape.batch.toNat * shape.seq.toNat * shape.hidden.toNat ∧
      (dtype = .fp16 ∧ p = ⟨.fp16, shape, xs.flatMap fun x => le16 (F32.toF16 x)⟩ ∨
        dtype = .int8 ∧ p = ⟨.int8, shape,
          encodeInt8Rows xs (shape.batch.toNat * shape.seq.toNat) shape.hidden.toNat⟩) := by
  by_cases hn : shape.batch.toNat * shape.seq.toNat * shape.hidden.toNat < usizeMod
  · by_cases hlen : xs.length = shape.batch.toNat * shape.seq.toNat * shape.hidden.toNat
    · cases dtype <;>
        simp [encodeHiddenWith, shapeNElems, hn, hlen, bind, Except.bind, eq_comm]
    · simp [encodeHiddenWith, shapeNElems, hn, hlen, bind, Except.bind]
  · simp [encodeHiddenWith, shapeNElems, hn, bind, Except.bind]

theorem length_encodeHiddenWith {xs : List F} {shape : Shape3} {dtype : Dtype} {p : HiddenPayload}
    (h : encodeHiddenWith xs shape dtype = .ok p) :
    p.dtype = dtype ∧ p.shape = shape ∧ p.bytes.length = payloadLen dtype shape := by
  obtain ⟨-, hlen, ⟨rfl, rfl⟩ | ⟨rfl, rfl⟩⟩ := encodeHiddenWith_eq_ok.mp h
  · refine ⟨rfl, rfl, ?_⟩
    simp only [payloadLen]
    rw [length_flatMap_const fun x => length_le16 _, hlen]
  · exact ⟨rfl, rfl, length_encodeInt8Rows xs _ _ hlen⟩

private theorem decodeFp16_le16_append (v : UInt16) (rest : List UInt8) :
    (decodeFp16 (le16 v ++ rest) : List F) = F32.ofF16 v :: decodeFp16 rest := by
  simp only [le16, List.cons_append, List.nil_append, decodeFp16, ofLe16_le16]

private theorem decodeScales_le32_append (v : UInt32) (rest : List UInt8) :
    (decodeScales (le32 v ++ rest) : List F) = F32.ofBits v :: decodeScales rest := by
  simp only [le32, List.cons_append, List.nil_append, decodeScales, ofLe32_le32]

private theorem decodeFp16_flatMap (xs : List F) :
    decodeFp16 (xs.flatMap fun x => le16 (F32.toF16 x)) =
      xs.map fun x => (F32.ofF16 (F32.toF16 x) : F) := by
  induction xs with
  | nil => rfl
  | cons x xs ih =>
      rw [List.flatMap_cons, decodeFp16_le16_append, ih, List.map_cons]

private theorem decodeScales_flatMap (xs : List F) :
    decodeScales (xs.flatMap fun x => le32 (F32.toBits x)) =
      xs.map fun x => (F32.ofBits (F32.toBits x) : F) := by
  induction xs with
  | nil => rfl
  | cons x xs ih =>
      rw [List.flatMap_cons, decodeScales_le32_append, ih, List.map_cons]

private theorem length_decodeFp16 (n : Nat) (bs : List UInt8) (hbs : bs.length = 2 * n) :
    (decodeFp16 bs : List F).length = n := by
  induction n generalizing bs with
  | zero =>
      obtain rfl := List.eq_nil_of_length_eq_zero hbs
      rfl
  | succ n ih =>
      match bs, hbs with
      | b₀ :: b₁ :: rest, hbs =>
          simp only [decodeFp16, List.length_cons]
          rw [ih rest (by simp only [List.length_cons] at hbs; omega)]

private theorem length_decodeScales (n : Nat) (bs : List UInt8) (hbs : bs.length = 4 * n) :
    (decodeScales bs : List F).length = n := by
  induction n generalizing bs with
  | zero =>
      obtain rfl := List.eq_nil_of_length_eq_zero hbs
      rfl
  | succ n ih =>
      match bs, hbs with
      | b₀ :: b₁ :: b₂ :: b₃ :: rest, hbs =>
          simp only [decodeScales, List.length_cons]
          rw [ih rest (by simp only [List.length_cons] at hbs; omega)]

private theorem length_decodeInt8Rows (scales : List F) (q : List UInt8) (h : Nat)
    (hq : q.length = scales.length * h) :
    (decodeInt8Rows scales q h).length = scales.length * h := by
  obtain ⟨rs, hrs, hrow, rfl⟩ := exists_rows q scales.length h hq
  simp only [decodeInt8Rows, List.length_flatMap, List.length_map]
  have hall : ∀ sr ∈ scales.zipIdx, (rowSlice rs.flatten h sr.2).length = h := fun sr hsr => by
    have hlt : sr.2 < rs.length := by
      have := List.snd_lt_of_mem_zipIdx hsr
      omega
    rw [rowSlice_flatten hrow sr.2 hlt]
    exact hrow _ (List.getElem_mem _)
  rw [List.map_congr_left (g := fun _ => h) hall]
  simp

/-- What `decode_hidden` returns, when it does: no wrapped product passes its size check. -/
theorem decodeHidden_eq_ok {p : HiddenPayload} {out : Shape3 × List F} :
    decodeHidden p = .ok out ↔
      p.bytes.length = payloadLen p.dtype p.shape ∧
      p.shape.batch.toNat * p.shape.seq.toNat * p.shape.hidden.toNat * 4 ≤ isizeMax ∧
      (p.dtype = .fp16 ∧ out = (p.shape, decodeFp16 p.bytes) ∨
        p.dtype = .int8 ∧ p.shape.batch.toNat * p.shape.seq.toNat * 4 ≤ isizeMax ∧
          out = (p.shape, decodeInt8Rows
            (decodeScales (p.bytes.take (4 * (p.shape.batch.toNat * p.shape.seq.toNat))))
            (p.bytes.drop (4 * (p.shape.batch.toNat * p.shape.seq.toNat)))
            p.shape.hidden.toNat)) := by
  obtain ⟨dtype, shape, bytes⟩ := p
  generalize hrows : shape.batch.toNat * shape.seq.toNat = rows
  generalize hn : rows * shape.hidden.toNat = n
  have hmod : usizeMod = 2 ^ 64 := rfl
  have hmax : isizeMax = 2 ^ 63 - 1 := rfl
  have hwrap : ∀ {x : Nat}, x < usizeMod → x % usizeMod = x := Nat.mod_eq_of_lt
  by_cases hlt : n < usizeMod
  · have hshape : shapeNElems shape = .ok n := by simp only [shapeNElems, hrows, hn, if_pos hlt]
    simp only [decodeHidden, payloadLen, hshape, hrows, hn, bind, Except.bind]
    cases dtype with
    | fp16 =>
        dsimp only
        by_cases hle : n * 4 ≤ isizeMax
        · have hexact : n * 2 % usizeMod = 2 * n := by rw [hwrap (by omega), Nat.mul_comm]
          rw [hexact, if_neg (c := n * 4 > isizeMax) (by omega)]
          by_cases hlen : bytes.length = 2 * n
          · rw [if_neg (not_not.mpr hlen)]
            simp [hle, hlen, eq_comm]
          · rw [if_pos hlen]
            exact iff_of_false (by simp) fun h => hlen h.1
        · -- a product that wraps is refused by the allocation that follows
          rw [if_pos (c := n * 4 > isizeMax) (by omega)]
          refine iff_of_false ?_ fun h => hle h.2.1
          split_ifs <;> simp
    | bf16 =>
        dsimp only
        refine iff_of_false ?_ (by simp)
        split_ifs <;> simp
    | int8 =>
        dsimp only
        by_cases hle : rows * 4 ≤ isizeMax ∧ n * 4 ≤ isizeMax
        · have hscale : rows * 4 % usizeMod = 4 * rows := by
            rw [hwrap (by omega), Nat.mul_comm]
          have hexact : (4 * rows + n) % usizeMod = 4 * rows + n := hwrap (by omega)
          rw [hscale, hexact]
          by_cases hlen : bytes.length = 4 * rows + n
          · rw [if_neg (not_not.mpr hlen), if_neg (by omega)]
            simp [hle, hlen, eq_comm]
          · rw [if_pos hlen]
            exact iff_of_false (by simp) fun h => hlen h.1
        · rw [if_pos (c := _ ∨ _) (by omega)]
          refine iff_of_false ?_ ?_
          · split_ifs <;> simp
          · rintro ⟨-, hn', ⟨hd, -⟩ | ⟨-, hrows', -⟩⟩
            · cases hd
            · exact hle ⟨hrows', hn'⟩
  · simp only [decodeHidden, shapeNElems, hrows, hn, if_neg hlt, bind, Except.bind]
    exact iff_of_false (by simp) fun h => hlt (by have := h.2.1; omega)

theorem length_decodeHidden {p : HiddenPayload} {shape : Shape3} {data : List F}
    (h : decodeHidden p = .ok (shape, data)) :
    shape = p.shape ∧
      data.length = p.shape.batch.toNat * p.shape.seq.toNat * p.shape.hidden.toNat := by
  obtain ⟨hlen, -, ⟨hd, hout⟩ | ⟨hd, -, hout⟩⟩ := decodeHidden_eq_ok.mp h <;>
    rw [hd, payloadLen] at hlen <;> obtain ⟨rfl, rfl⟩ := Prod.mk.inj hout
  · exact ⟨rfl, length_decodeFp16 _ _ hlen⟩
  · have hscales := length_decodeScales (F := F) (p.shape.batch.toNat * p.shape.seq.toNat)
      (p.bytes.take (4 * (p.shape.batch.toNat * p.shape.seq.toNat)))
      (by rw [List.length_take, hlen]; omega)
    refine ⟨rfl, ?_⟩
    rw [length_decodeInt8Rows _ _ _ (by rw [hscales, List.length_drop, hlen]; omega), hscales]

/-- The size `decode_hidden` compares the payload with, in wrapping arithmetic. -/
def expectedBytes (dtype : Dtype) (shape : Shape3) : Nat := payloadLen dtype shape % usizeMod

/-- The payload passes the size check, but its values or its scales do not fit in an allocation. -/
def HiddenPayload.Oversized (p : HiddenPayload) : Prop :=
  let rows := p.shape.batch.toNat * p.shape.seq.toNat
  let n := rows * p.shape.hidden.toNat
  n < usizeMod ∧ p.bytes.length = expectedBytes p.dtype p.shape ∧
    (p.dtype = .fp16 ∧ n * 4 > isizeMax ∨
      p.dtype = .int8 ∧ (n * 4 > isizeMax ∨ rows * 4 > isizeMax))

instance (p : HiddenPayload) : Decidable p.Oversized := by
  unfold HiddenPayload.Oversized
  infer_instance

/-- `decode_hidden` panics exactly on the payloads that are too large for what they announce. -/
private theorem decodeHidden_panic (p : HiddenPayload) :
    decodeHidden (F := F) p = .error .panic ↔ p.Oversized := by
  obtain ⟨dtype, shape, bytes⟩ := p
  simp only [HiddenPayload.Oversized, expectedBytes, payloadLen]
  generalize hrows : shape.batch.toNat * shape.seq.toNat = rows
  generalize hn : rows * shape.hidden.toNat = n
  by_cases hlt : n < usizeMod
  · have hshape : shapeNElems shape = .ok n := by simp only [shapeNElems, hrows, hn, if_pos hlt]
    simp only [decodeHidden, hshape, hrows, bind, Except.bind, hlt, true_and]
    cases dtype with
    | fp16 =>
        rw [Nat.mul_comm 2 n]
        by_cases hlen : bytes.length = n * 2 % usizeMod
        · by_cases hbig : n * 4 > isizeMax <;> simp [hlen, hbig]
        · simp [hlen]
    | bf16 =>
        by_cases hlen : bytes.length = n * 2 % usizeMod <;> simp [hlen]
    | int8 =>
        have hsum : (rows * 4 % usizeMod + n) % usizeMod = (4 * rows + n) % usizeMod := by
          rw [Nat.mod_add_mod, Nat.mul_comm]
        by_cases hlen : bytes.length = (4 * rows + n) % usizeMod
        · -- the scales run over the end only where a sum has wrapped
          have hsplit : (rows * 4 % usizeMod > bytes.length ∨ rows * 4 > isizeMax ∨
              n * 4 > isizeMax) ↔ n * 4 > isizeMax ∨ rows * 4 > isizeMax := by
            have hmod : usizeMod = 2 ^ 64 := rfl
            have hmax : isizeMax = 2 ^ 63 - 1 := rfl
            constructor
            · rintro (hover | hrest)
              · by_contra hsmall
                rw [hlen, Nat.mod_eq_of_lt (by omega), Nat.mod_eq_of_lt (by omega)] at hover
                omega
              · exact hrest.symm
            · exact fun h => .inr h.symm
          rw [hsum, if_neg (not_not.mpr hlen), ite_cond_congr (propext hsplit)]
          by_cases hbig : n * 4 > isizeMax ∨ rows * 4 > isizeMax
          · simp [hlen, hbig]
          · rw [if_neg hbig]
            simp [hbig]
        · simp [hsum, hlen]
  · simp only [decodeHidden, shapeNElems, hrows, hn, if_neg hlt, bind, Except.bind]
    exact iff_of_false (by simp) fun h => hlt h.1

variable (F) in
/-- `decode_hidden` does not panic, and what it accepts has the exact size and all its values. -/
def DecodesExactly (p : HiddenPayload) : Prop :=
  decodeHidden (F := F) p ≠ .error .panic ∧
    ∀ shape data, decodeHidden (F := F) p = .ok (shape, data) →
      p.dtype ≠ .bf16 ∧ p.bytes.length = payloadLen p.dtype p.shape ∧ shape = p.shape ∧
        data.length = p.shape.batch.toNat * p.shape.seq.toNat * p.shape.hidden.toNat

/-- Decoding is total and exact but on oversized payloads. -/
theorem decodesExactly_iff (p : HiddenPayload) : DecodesExactly F p ↔ ¬ p.Oversized := by
  rw [DecodesExactly, ne_eq, decodeHidden_panic, and_iff_left_iff_imp]
  intro _ shape data h
  obtain ⟨hlen, -, hd⟩ := decodeHidden_eq_ok.mp h
  obtain ⟨hshape, hdata⟩ := length_decodeHidden h
  refine ⟨?_, hlen, hshape, hdata⟩
  rcases hd with ⟨hd, -⟩ | ⟨hd, -⟩
  · rw [hd]
    decide
  · rw [hd]
    decide

/-- An empty payload of 2 ^ 63 values: twice that is nothing in 64 bits. -/
theorem wrapped_shape_panics : ¬ DecodesExactly ℚ ⟨.fp16, ⟨0x80000000, 0x80000000, 2⟩, []⟩ := by
  intro h
  exact h.1 ((decodeHidden_panic _).mpr (by decide))

def wireRow (dtype : Dtype) (row : List F) : List F :=
  match dtype with
  | .fp16 | .bf16 => row.map fun x => F32.ofF16 (F32.toF16 x)
  | .int8 =>
      let s := int8Scale row
      row.map fun x =>
        int8Dequant (F32.ofBits (F32.toBits s)) (int8Quant (F32.div (F32.ofInt 1) s) x)

@[simp] theorem length_wireRow (dtype : Dtype) (row : List F) :
    (wireRow dtype row).length = row.length := by
  cases dtype <;> simp [wireRow]

theorem encodeInt8Rows_eq (rows : List (List F)) (h : Nat)
    (hrow : ∀ row ∈ rows, row.length = h) :
    encodeInt8Rows rows.flatten rows.length h =
      (rows.map int8Scale).flatMap (fun s => le32 (F32.toBits s)) ++
        (rows.map fun row =>
          row.map (int8Quant (F32.div (F32.ofInt 1) (int8Scale row)))).flatten := by
  have hmap : ∀ {β : Type} (f : List F → β),
      (List.range rows.length).map (fun r => f (rowSlice rows.flatten h r)) = rows.map f := by
    intro β f
    conv_rhs => rw [← map_rowSlice_flatten hrow]
    rw [List.map_map]
    rfl
  simp only [encodeInt8Rows, ← hmap, List.flatMap_def]

private theorem decodeInt8Rows_encode (rows : List (List F)) (h : Nat)
    (hrow : ∀ row ∈ rows, row.length = h) :
    decodeInt8Rows (decodeScales ((encodeInt8Rows rows.flatten rows.length h).take
        (4 * rows.length)))
      ((encodeInt8Rows rows.flatten rows.length h).drop (4 * rows.length)) h =
        (rows.map (wireRow .int8)).flatten := by
  have hscales : ((rows.map int8Scale).flatMap fun s => le32 (F32.toBits s)).length =
      4 * rows.length := by
    rw [length_flatMap_const fun s => length_le32 _, List.length_map]
  rw [encodeInt8Rows_eq rows h hrow, List.take_left' hscales, List.drop_left' hscales,
    decodeScales_flatMap, List.map_map, decodeInt8Rows, List.flatMap_def]
  congr 1
  refine List.ext_getElem (by simp) fun r hr hr' => ?_
  simp only [List.length_map, List.length_zipIdx] at hr
  simp only [List.getElem_map, List.getElem_zipIdx, Nat.zero_add]
  rw [rowSlice_flatten (h := h) (by simpa using hrow) r (by simpa using hr)]
  simp [wireRow, Function.comp_def]

theorem decodeHidden_encodeHiddenWith {rows : List (List F)} {shape : Shape3} {dtype : Dtype}
    {p : HiddenPayload} (hrows : rows.length = shape.batch.toNat * shape.seq.toNat)
    (hrow : ∀ row ∈ rows, row.length = shape.hidden.toNat)
    (henc : encodeHiddenWith rows.flatten shape dtype = .ok p)
    (hvalues : shape.batch.toNat * shape.seq.toNat * shape.hidden.toNat * 4 ≤ isizeMax)
    (hscales : dtype = .int8 → shape.batch.toNat * shape.seq.toNat * 4 ≤ isizeMax) :
    decodeHidden p = .ok (shape, (rows.map (wireRow dtype)).flatten) := by
  obtain ⟨hd, hshape, hlen⟩ := length_encodeHiddenWith henc
  obtain ⟨-, -, hcase⟩ := encodeHiddenWith_eq_ok.mp henc
  refine decodeHidden_eq_ok.mpr ⟨by rw [hlen, hd, hshape], by rw [hshape]; exact hvalues, ?_⟩
  rcases hcase with ⟨rfl, rfl⟩ | ⟨rfl, rfl⟩
  · left
    refine ⟨rfl, Prod.ext rfl ?_⟩
    rw [decodeFp16_flatMap, List.map_flatten]
    rfl
  · right
    refine ⟨rfl, hscales rfl, Prod.ext rfl ?_⟩
    rw [← hrows]
    exact (decodeInt8Rows_encode rows _ hrow).symm

end Codec

end IntelNav.Ggml
