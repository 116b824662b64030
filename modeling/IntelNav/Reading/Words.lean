import Mathlib.Algebra.Order.Ring.Nat
import Mathlib.Tactic.Common

/-! Words that tell where they end, and little-endian numbers. -/

set_option autoImplicit false
set_option relaxedAutoImplicit false

namespace IntelNav.Reading

universe u v

variable {τ : Type u} {α β : Type v}

/-- A text that begins with a word of `f` begins with no other one. -/
def Unambiguous (f : α → List τ) : Prop :=
  ∀ a b s t, f a ++ s = f b ++ t → a = b ∧ s = t

theorem Unambiguous.flatMap {f : α → List τ} (hf : Unambiguous f) {as bs : List α}
    (hlen : as.length = bs.length) {s t : List τ} (h : as.flatMap f ++ s = bs.flatMap f ++ t) :
    as = bs ∧ s = t := by
  induction as generalizing bs with
  | nil =>
      obtain rfl := List.length_eq_zero_iff.mp hlen.symm
      exact ⟨rfl, h⟩
  | cons a as ih =>
      cases bs with
      | nil => cases hlen
      | cons b bs =>
          simp only [List.flatMap_cons, List.append_assoc] at h
          obtain ⟨rfl, hrest⟩ := hf _ _ _ _ h
          obtain ⟨rfl, hst⟩ := ih (Nat.succ.inj hlen) hrest
          exact ⟨rfl, hst⟩

/-- The `k` bytes of a number, the lowest first. -/
def leBytes : Nat → Nat → List UInt8
  | 0, _ => []
  | k + 1, n => UInt8.ofNat n :: leBytes k (n / 256)

def ofLeBytes : List UInt8 → Nat
  | [] => 0
  | b :: bs => b.toNat + 256 * ofLeBytes bs

@[simp] theorem length_leBytes (k n : Nat) : (leBytes k n).length = k := by
  induction k generalizing n with
  | zero => rfl
  | succ k ih => simp [leBytes, ih]

theorem ofLeBytes_lt (bs : List UInt8) : ofLeBytes bs < 256 ^ bs.length := by
  induction bs with
  | nil => simp [ofLeBytes]
  | cons b bs ih =>
      have hb : b.toNat < 256 := b.toNat_lt
      rw [ofLeBytes, List.length_cons, Nat.pow_succ]
      omega

private theorem ofLeBytes_leBytes (k n : Nat) : ofLeBytes (leBytes k n) = n % 256 ^ k := by
  induction k generalizing n with
  | zero => simp [leBytes, ofLeBytes, Nat.mod_one]
  | succ k ih =>
      rw [leBytes, ofLeBytes, ih, UInt8.toNat_ofNat', Nat.pow_succ 256, Nat.mul_comm (256 ^ k),
        Nat.mod_mul]

theorem ofLeBytes_leBytes_of_lt {k n : Nat} (h : n < 256 ^ k) : ofLeBytes (leBytes k n) = n := by
  rw [ofLeBytes_leBytes, Nat.mod_eq_of_lt h]

theorem leBytes_ofLeBytes (bs : List UInt8) : leBytes bs.length (ofLeBytes bs) = bs := by
  induction bs with
  | nil => rfl
  | cons b bs ih =>
      have hlow : UInt8.ofNat (b.toNat + 256 * ofLeBytes bs) = b := by
        apply UInt8.toNat_inj.mp
        have hb := b.toNat_lt
        rw [UInt8.toNat_ofNat']
        omega
      have hrest : (b.toNat + 256 * ofLeBytes bs) / 256 = ofLeBytes bs := by
        have hb : b.toNat < 256 := b.toNat_lt
        omega
      rw [ofLeBytes, List.length_cons, leBytes, hlow, hrest, ih]

theorem leBytes_inj {k m n : Nat} (hm : m < 256 ^ k) (hn : n < 256 ^ k)
    (h : leBytes k m = leBytes k n) : m = n := by
  rw [← ofLeBytes_leBytes_of_lt hm, h, ofLeBytes_leBytes_of_lt hn]

end IntelNav.Reading
