import Mathlib.Data.Rat.Floor

/-! The floating-point operations the crates use, as operation classes on arbitrary types, and the
rational numbers as floats: exact arithmetic, and the bit patterns of a few values. -/

set_option autoImplicit false
set_option relaxedAutoImplicit false

namespace IntelNav.Core

/-- `f32`; `ofInt` gives the literals and `as f32`, `ofRatio` the decimal ones. The comparisons are
the operators `<` and `>=`, both false on a NaN. -/
class F32 (F : Type) where
  ofInt : Int → F
  negInfinity : F
  lt : F → F → Bool
  ge : F → F → Bool
  abs : F → F
  max : F → F → F
  add : F → F → F
  sub : F → F → F
  mul : F → F → F
  div : F → F → F
  exp : F → F
  round : F → F
  toI8 : F → Int8
  toBits : F → UInt32
  ofBits : UInt32 → F
  toF16 : F → UInt16
  ofF16 : UInt16 → F

/-- `f64`, as far as a sampling configuration compares it; zero equals itself and is not above
itself. -/
class F64 (D F : Type) where
  ofInt : Int → D
  eq : D → D → Bool
  lt : D → D → Bool
  le : D → D → Bool
  toF32 : D → F
  zero_eq_zero : eq (ofInt 0) (ofInt 0) = true
  zero_le_zero : le (ofInt 0) (ofInt 0) = true

def wideScale : ℚ := 98433 / 32768

def wideHalf : ℚ := 271 / 256

instance : F32 ℚ where
  ofInt n := n
  negInfinity := -(2 ^ 128)
  lt a b := a < b
  ge a b := b ≤ a
  abs a := if a < 0 then -a else a
  max a b := if a < b then b else a
  add a b := a + b
  sub a b := a - b
  mul a b := a * b
  div a b := a / b
  exp a := 1 + a
  round a := if a < 0 then -((1 / 2 - a).floor : ℚ) else (a + 1 / 2).floor
  toI8 a := Int8.ofInt a.floor
  toBits a := if a = wideScale then 0x40404080 else if a = 1 then 0x3f800000 else 0
  ofBits b := if b = 0x40404080 then wideScale else if b = 0x3f800000 then 1 else 0
  toF16 a := if a = wideHalf then 0x3c3c else if a = 1 then 0x3c00 else 0
  ofF16 b := if b = 0x3c3c then wideHalf else if b = 0x3c00 then 1 else 0

instance : F64 ℚ ℚ where
  ofInt n := n
  eq a b := a = b
  lt a b := a < b
  le a b := a ≤ b
  toF32 a := a
  zero_eq_zero := rfl
  zero_le_zero := rfl

end IntelNav.Core
