import IntelNav.Core.Floats
import IntelNav.Digits.Steps
import IntelNav.Ggml.Payload

/-! `Int8` payloads in exact arithmetic: how far a value is off once it was sent. -/

set_option autoImplicit false
set_option relaxedAutoImplicit false

namespace IntelNav.Ggml

open IntelNav.Core IntelNav.Wire IntelNav.Digits

/-- Bit patterns for the scales that are sent: not all rational numbers can have one. -/
class ScaleBits where
  toBits : ℚ → UInt32
  ofBits : UInt32 → ℚ

instance (priority := 2000) exactF32 [ScaleBits] : F32 ℚ :=
  { (inferInstance : F32 ℚ) with toBits := ScaleBits.toBits, ofBits := ScaleBits.ofBits }

section Allocation

variable {F : Type} [F32 F]

/-- `encode_hidden_with` with its reservations: past `alloc` bytes none of them is made, and the
process panics or aborts. -/
def encodeHiddenVec (alloc : Nat) (xs : List F) (shape : Shape3) (dtype : Dtype) :
    Except HiddenError HiddenPayload := do
  let p ← encodeHiddenWith xs shape dtype
  if p.bytes.length > alloc then .error .panic else .ok p

/-- `decode_hidden` with the reservations for its scales and its values. -/
def decodeHiddenVec (alloc : Nat) (p : HiddenPayload) :
    Except HiddenError (Shape3 × List F) := do
  let out ← decodeHidden p
  let rows := p.shape.batch.toNat * p.shape.seq.toNat
  if p.dtype = .int8 ∧ rows * 4 > alloc ∨ out.2.length * 4 > alloc then .error .panic else .ok out

variable {alloc : Nat}

private theorem encodeHiddenVec_eq_ok {xs : List F} {shape : Shape3} {dtype : Dtype}
    {p : HiddenPayload} :
    encodeHiddenVec alloc xs shape dtype = .ok p ↔
      encodeHiddenWith xs shape dtype = .ok p ∧ p.bytes.length ≤ alloc := by
  unfold encodeHiddenVec
  cases encodeHiddenWith xs shape dtype with
  | error e => simp [bind, Except.bind]
  | ok p' =>
      change (if p'.bytes.length > alloc then _ else _) = _ ↔ _
      split
      · rename_i hbig
        constructor
        · intro h
          cases h
        · intro ⟨h, hle⟩
          obtain rfl := Except.ok.inj h
          omega
      · rename_i hfits
        constructor
        · intro h
          obtain rfl := Except.ok.inj h
          exact ⟨rfl, by omega⟩
        · intro h
          exact h.1

private theorem decodeHiddenVec_eq {p : HiddenPayload} {out : Shape3 × List F}
    (h : decodeHidden p = .ok out) (hrows : p.shape.batch.toNat * p.shape.seq.toNat * 4 ≤ alloc)
    (hvalues : out.2.length * 4 ≤ alloc) : decodeHiddenVec alloc p = .ok out := by
  rw [decodeHiddenVec, h]
  apply if_neg
  omega

end Allocation

section Exact

variable [ScaleBits]

/-- The decoded values are as many as were encoded, each at its index a whole number of its own
row's scale, half of it off at most and never clamped; the rows of zeros are exact. -/
structure Int8Close (xs : List ℚ) (h : Nat) (out : List ℚ) : Prop where
  length : out.length = xs.length
  value : ∀ i x, xs[i]? = some x → ∃ q : ℤ, |q| ≤ 127 ∧
    out[i]? = some (q * int8Scale (rowSlice xs h (i / h)))
  close : ∀ i x y, xs[i]? = some x → out[i]? = some y →
    |y - x| ≤ largest (rowSlice xs h (i / h)) / 127 / 2
  unclamped : ∀ i x, xs[i]? = some x →
    let steps := F32.round (F32.mul x (F32.div (F32.ofInt 1) (int8Scale (rowSlice xs h (i / h)))))
    clamp127 steps = steps
  zeros : ∀ i x, xs[i]? = some x → (∀ y ∈ rowSlice xs h (i / h), y = 0) → out[i]? = some 0

def Int8RoundTrips (alloc : Nat) (xs : List ℚ) (shape : Shape3) : Prop :=
  ∃ p out, encodeHiddenVec alloc xs shape .int8 = .ok p ∧
    decodeHiddenVec alloc p = .ok (shape, out) ∧ Int8Close xs shape.hidden.toNat out

/-! One row. -/

private theorem int8Scale_eq (row : List ℚ) : int8Scale row = step 127 row := by
  have hmax : row.foldl (fun m x => F32.max m (F32.abs x)) (F32.ofInt 0) = largest row := by
    have hstep : (fun m x : ℚ => F32.max m (F32.abs x)) = fun m x => max m |x| := by
      ext m x
      have habs : F32.abs x = |x| := by
        change (if x < 0 then -x else x) = |x|
        split
        · exact (abs_of_neg ‹_›).symm
        · exact (abs_of_nonneg (not_lt.mp ‹_›)).symm
      change (if m < F32.abs x then F32.abs x else m) = max m |x|
      rw [habs]
      split
      · exact (max_eq_right (le_of_lt ‹_›)).symm
      · exact (max_eq_left (not_lt.mp ‹_›)).symm
    rw [hstep]
    rfl
  unfold int8Scale step
  rw [hmax]
  change (if decide ((0 : ℚ) < largest row) = true then largest row / (127 : ℤ) else (1 : ℤ)) = _
  simp

private theorem f32Round_eq (x : ℚ) : F32.round x = (roundAway x : ℚ) := by
  change (if x < 0 then -((1 / 2 - x).floor : ℚ) else ((x + 1 / 2).floor : ℚ)) = _
  unfold roundAway
  split
  · rw [round_eq, Int.cast_neg, neg_add_eq_sub]
    rfl
  · rw [round_eq]
    rfl

private theorem clamp127_of_abs_le {k : ℤ} (hk : |k| ≤ 127) : clamp127 (k : ℚ) = k := by
  have hbelow : ¬ (k : ℚ) < ((-127 : ℤ) : ℚ) := by
    rw [Int.cast_lt]
    have := abs_le.mp hk
    omega
  have habove : ¬ ((127 : ℤ) : ℚ) < k := by
    rw [Int.cast_lt]
    have := abs_le.mp hk
    omega
  have hlow : F32.lt (k : ℚ) (F32.ofInt (-127)) = false := decide_eq_false hbelow
  have hhigh : F32.lt (F32.ofInt 127) (k : ℚ) = false := decide_eq_false habove
  simp [clamp127, hlow, hhigh]

private theorem int8_byte {k : ℤ} (hk : |k| ≤ 127) :
    (F32.toI8 (k : ℚ)).toUInt8.toInt8.toInt = k := by
  have hrange := abs_le.mp hk
  have hfloor : F32.toI8 (k : ℚ) = Int8.ofInt k := by
    change Int8.ofInt (k : ℚ).floor = Int8.ofInt k
    rw [Rat.floor_intCast]
  rw [hfloor, Int8.toInt8_toUInt8]
  exact Int8.toInt_ofInt_of_le (by omega) (by omega)

def stepsOf (row : List ℚ) (x : ℚ) : ℤ := roundAway (x * (1 / int8Scale row))

private theorem abs_stepsOf_le {row : List ℚ} {x : ℚ} (hx : x ∈ row) : |stepsOf row x| ≤ 127 := by
  have hle := abs_mul_one_div_step_le (n := 127) (by omega) hx
  rw [← int8Scale_eq] at hle
  exact abs_roundAway_le hle

private theorem steps_eq (row : List ℚ) (x : ℚ) :
    F32.round (F32.mul x (F32.div (F32.ofInt 1) (int8Scale row))) = (stepsOf row x : ℚ) := by
  rw [f32Round_eq, stepsOf]
  change ((roundAway (x * (((1 : ℤ) : ℚ) / int8Scale row)) : ℤ) : ℚ) = _
  rw [Int.cast_one]

/-- A row comes out of the wire in whole steps of its own. -/
private theorem wireRow_eq (row : List ℚ)
    (hbits : ScaleBits.ofBits (ScaleBits.toBits (int8Scale row)) = int8Scale row) :
    wireRow .int8 row = row.map fun x => stepsOf row x * int8Scale row := by
  unfold wireRow
  refine List.map_congr_left fun x hx => ?_
  have hsteps := abs_stepsOf_le hx
  have hscale : F32.ofBits (F32.toBits (int8Scale row)) = int8Scale row := hbits
  rw [hscale, int8Dequant, int8Quant, steps_eq, clamp127_of_abs_le hsteps, int8_byte hsteps]
  rfl

private theorem abs_wire_sub_le {row : List ℚ} {x : ℚ} (hx : x ∈ row) :
    |stepsOf row x * int8Scale row - x| ≤ largest row / 127 / 2 := by
  have hclose := abs_steps_sub_le (step_pos (n := 127) (by omega) row) x
  rw [← int8Scale_eq] at hclose
  by_cases hzero : 0 < largest row
  · have hscale : int8Scale row = largest row / 127 := by
      rw [int8Scale_eq, step, if_pos hzero]
      rfl
    rw [← hscale]
    exact hclose
  · -- a row of zeros has no step of its own
    have hx0 : x = 0 := by
      have hle := abs_le_largest hx
      exact abs_nonpos_iff.mp (le_trans hle (not_lt.mp hzero))
    have hlargest : largest row = 0 := le_antisymm (not_lt.mp hzero) (largest_nonneg row)
    rw [hx0, hlargest]
    simp [stepsOf, roundAway]

/-! All rows. -/

private theorem int8Close_wireRows {rows : List (List ℚ)} {h : Nat}
    (hrow : ∀ row ∈ rows, row.length = h)
    (hbits : ∀ row ∈ rows, ScaleBits.ofBits (ScaleBits.toBits (int8Scale row)) = int8Scale row) :
    Int8Close rows.flatten h (rows.map (wireRow .int8)).flatten := by
  have hrow' : ∀ row ∈ rows.map (wireRow .int8), row.length = h := by
    intro row hmem
    obtain ⟨row', hin, rfl⟩ := List.mem_map.mp hmem
    rw [length_wireRow, hrow row' hin]
  -- A value is in the row of its index, before and after.
  have hat : ∀ i x, rows.flatten[i]? = some x →
      x ∈ rowSlice rows.flatten h (i / h) ∧
        (rows.map (wireRow .int8)).flatten[i]? = some
          (stepsOf (rowSlice rows.flatten h (i / h)) x *
            int8Scale (rowSlice rows.flatten h (i / h))) := by
    intro i x hx
    have hlt : i < rows.length * h := by
      rw [← flatten_length_of_rows hrow]
      exact (List.getElem?_eq_some_iff.mp hx).1
    have hh : 0 < h := Nat.pos_of_mul_pos_left (Nat.zero_lt_of_lt hlt)
    have hr : i / h < rows.length := Nat.div_lt_of_lt_mul (by rwa [Nat.mul_comm])
    have hslice := rowSlice_flatten hrow (i / h) hr
    have hslice' := rowSlice_flatten hrow' (i / h) (by rwa [List.length_map])
    rw [← getElem?_rowSlice _ hh] at hx
    rw [← getElem?_rowSlice _ hh, hslice', List.getElem_map,
      wireRow_eq _ (hbits _ (List.getElem_mem hr)), List.getElem?_map, ← hslice, hx]
    exact ⟨List.mem_of_getElem? hx, rfl⟩
  constructor
  · rw [flatten_length_of_rows hrow, flatten_length_of_rows hrow', List.length_map]
  · intro i x hx
    obtain ⟨hmem, hout⟩ := hat i x hx
    exact ⟨_, abs_stepsOf_le hmem, hout⟩
  · intro i x y hx hy
    obtain ⟨hmem, hout⟩ := hat i x hx
    obtain rfl := Option.some.inj (hy.symm.trans hout)
    exact abs_wire_sub_le hmem
  · intro i x hx
    obtain ⟨hmem, -⟩ := hat i x hx
    have hclamp := clamp127_of_abs_le (abs_stepsOf_le hmem)
    simpa only [steps_eq] using hclamp
  · intro i x hx hzero
    obtain ⟨hmem, hout⟩ := hat i x hx
    rw [hout, hzero x hmem]
    simp [stepsOf, roundAway]

private theorem payloadLen_le_of_roundTrips {alloc : Nat} {xs : List ℚ} {shape : Shape3}
    (h : Int8RoundTrips alloc xs shape) : payloadLen .int8 shape ≤ alloc := by
  obtain ⟨p, out, henc, -, -⟩ := h
  obtain ⟨hwith, hle⟩ := encodeHiddenVec_eq_ok.mp henc
  obtain ⟨-, -, hlen⟩ := length_encodeHiddenWith hwith
  rwa [hlen] at hle

/-- Values that were allocated come back close to what they were just when their payload can be
allocated, if each row's scale is stored as it is. -/
theorem int8RoundTrips_iff {alloc : Nat} {xs : List ℚ} {shape : Shape3} (halloc : alloc ≤ isizeMax)
    (hlen : xs.length = shape.batch.toNat * shape.seq.toNat * shape.hidden.toNat)
    (hslice : xs.length * 4 ≤ alloc)
    (hbits : ∀ r < shape.batch.toNat * shape.seq.toNat,
      let s := int8Scale (rowSlice xs shape.hidden.toNat r)
      ScaleBits.ofBits (ScaleBits.toBits s) = s) :
    Int8RoundTrips alloc xs shape ↔ payloadLen .int8 shape ≤ alloc := by
  constructor
  · exact payloadLen_le_of_roundTrips
  · intro hfits
    have hvalues := hlen ▸ hslice
    have hscales : shape.batch.toNat * shape.seq.toNat * 4 ≤ alloc := by
      simp only [payloadLen] at hfits
      omega
    have hcount : shape.batch.toNat * shape.seq.toNat * shape.hidden.toNat < usizeMod := by
      have hmax : isizeMax = 2 ^ 63 - 1 := rfl
      have hmod : usizeMod = 2 ^ 64 := rfl
      omega
    obtain ⟨rows, hrows, hrow, rfl⟩ := exists_rows xs _ _ hlen
    have henc := encodeHiddenWith_eq_ok.mpr ⟨hcount, hlen, .inr ⟨rfl, rfl⟩⟩
    have hsize := (length_encodeHiddenWith henc).2.2
    have hclose : Int8Close rows.flatten shape.hidden.toNat (rows.map (wireRow .int8)).flatten := by
      refine int8Close_wireRows hrow fun row hmem => ?_
      obtain ⟨r, hr, rfl⟩ := List.getElem_of_mem hmem
      have hstored := hbits r (by rwa [← hrows])
      rwa [rowSlice_flatten hrow r hr] at hstored
    have hdec := decodeHidden_encodeHiddenWith hrows hrow henc (hvalues.trans halloc)
      fun _ => hscales.trans halloc
    refine ⟨_, _, encodeHiddenVec_eq_ok.mpr ⟨henc, hsize ▸ hfits⟩, ?_, hclose⟩
    exact decodeHiddenVec_eq hdec hscales (by rwa [hclose.length])

end Exact

@[reducible] def oneTwoBits : ScaleBits where
  toBits s := if s = 2 then 0x40000000 else 0x3f800000
  ofBits b := if b = 0x40000000 then 2 else 1

theorem int8RoundTrips_iff_rows :
    @Int8RoundTrips oneTwoBits 4096 [127, -127 / 2, 0, 0, 254, 1] ⟨1, 3, 2⟩ ↔
      payloadLen .int8 ⟨1, 3, 2⟩ ≤ 4096 :=
  @int8RoundTrips_iff oneTwoBits _ _ _ (by decide) (by decide) (by decide) (by decide +kernel)

/-- 2^62 rows of nothing have 2^64 bytes of scales, more than any allocation takes. -/
theorem empty_rows_not_sent :
    ([] : List ℚ).length = 0x80000000 * 0x80000000 * 0 ∧
      ¬ @Int8RoundTrips oneTwoBits isizeMax [] ⟨0x80000000, 0x80000000, 0⟩ := by
  refine ⟨rfl, fun h => ?_⟩
  have hfits := @payloadLen_le_of_roundTrips oneTwoBits _ _ _ h
  revert hfits
  decide

end IntelNav.Ggml
