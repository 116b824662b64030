import Mathlib.Data.List.Basic
import Mathlib.Tactic.Common

/-! UTF-8 on lists of characters and bytes. -/

set_option autoImplicit false
set_option relaxedAutoImplicit false

namespace IntelNav.Text

def encode (cs : List Char) : List UInt8 := cs.flatMap String.utf8EncodeChar

theorem encode_append (cs ds : List Char) : encode (cs ++ ds) = encode cs ++ encode ds :=
  List.flatMap_append

theorem length_encode_le (cs : List Char) : (encode cs).length ≤ 4 * cs.length := by
  induction cs with
  | nil => exact Nat.le_refl _
  | cons c cs ih =>
      have hchar : (String.utf8EncodeChar c).length ≤ 4 := by
        rw [String.length_utf8EncodeChar]
        exact Char.utf8Size_le_four c
      rw [encode, List.flatMap_cons, List.length_append, List.length_cons]
      have htail : (cs.flatMap String.utf8EncodeChar).length ≤ 4 * cs.length := ih
      omega

theorem toUTF8_ofList (cs : List Char) : (String.ofList cs).toUTF8.data.toList = encode cs := by
  rw [String.toUTF8_eq_toByteArray, String.toByteArray_ofList, List.utf8Encode,
    List.data_toByteArray]
  rfl

/-- `from_utf8` accepts the bytes of texts. -/
theorem fromUTF8?_eq_some {bs : List UInt8} {s : String} :
    String.fromUTF8? ⟨bs.toArray⟩ = some s ↔ s.toUTF8.data.toList = bs := by
  rw [String.fromUTF8?]
  constructor
  · intro h
    split at h
    · rw [← Option.some.inj h]
      rfl
    · cases h
  · intro h
    have hbytes : (⟨bs.toArray⟩ : ByteArray) = s.toByteArray := by
      apply ByteArray.ext
      rw [← h, Array.toArray_toList, String.toUTF8_eq_toByteArray]
    rw [hbytes, dif_pos s.isValidUTF8]
    rfl

/-- `from_utf8` gives the text back. -/
theorem fromUTF8?_encode (cs : List Char) :
    String.fromUTF8? ⟨(encode cs).toArray⟩ = some (String.ofList cs) :=
  fromUTF8?_eq_some.mpr (toUTF8_ofList cs)

theorem encode_of_fromUTF8? {bs : List UInt8} {s : String}
    (h : String.fromUTF8? ⟨bs.toArray⟩ = some s) : encode s.toList = bs := by
  rw [← toUTF8_ofList, String.ofList_toList]
  exact fromUTF8?_eq_some.mp h

def Ascii (c : Char) : Prop := c.toNat < 128

instance (c : Char) : Decidable (Ascii c) := inferInstanceAs (Decidable (_ < _))

theorem toNat_toUInt8 {c : Char} (h : Ascii c) : c.toUInt8.toNat = c.toNat := by
  have hlt : c.val.toNat < 128 := h
  show c.val.toUInt8.toNat = c.val.toNat
  rw [UInt32.toNat_toUInt8]
  omega

private theorem toUInt8_inj {c d : Char} (hc : Ascii c) (hd : Ascii d) (h : c.toUInt8 = d.toUInt8) :
    c = d := by
  have hnat := congrArg UInt8.toNat h
  rw [toNat_toUInt8 hc, toNat_toUInt8 hd] at hnat
  exact Char.toNat_inj.mp hnat

theorem map_toUInt8_inj {cs ds : List Char} (hcs : ∀ c ∈ cs, Ascii c) (hds : ∀ d ∈ ds, Ascii d)
    (h : cs.map Char.toUInt8 = ds.map Char.toUInt8) : cs = ds := by
  induction cs generalizing ds with
  | nil =>
      cases ds with
      | nil => rfl
      | cons d ds => cases h
  | cons c cs ih =>
      cases ds with
      | nil => cases h
      | cons d ds =>
          simp only [List.map_cons, List.cons.injEq] at h
          rw [toUInt8_inj (hcs c (by simp)) (hds d (by simp)) h.1,
            ih (fun x hx => hcs x (List.mem_cons_of_mem _ hx))
              (fun x hx => hds x (List.mem_cons_of_mem _ hx)) h.2]

theorem encode_ascii {cs : List Char} (h : ∀ c ∈ cs, Ascii c) :
    encode cs = cs.map Char.toUInt8 := by
  induction cs with
  | nil => rfl
  | cons c cs ih =>
      have hc : Ascii c := h c (by simp)
      have hone : String.utf8EncodeChar c = [c.toUInt8] := by
        have hsize : c.utf8Size = 1 := Char.utf8Size_eq_one_iff.mpr (by
          have hlt : c.toNat < 128 := h c (by simp)
          exact UInt32.le_iff_toNat_le.mpr (Nat.le_of_lt_succ hlt))
        rw [String.utf8EncodeChar_eq_singleton hsize]
        rfl
      rw [encode, List.flatMap_cons, hone, List.map_cons, List.singleton_append]
      exact congrArg _ (ih fun x hx => h x (List.mem_cons_of_mem _ hx))

end IntelNav.Text
