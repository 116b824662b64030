import Mathlib.Algebra.Order.Round
import Mathlib.Tactic.Linarith
import Mathlib.Tactic.Ring

/-! A row of values counted in steps: each step is the `n`th part of the largest magnitude. -/

set_option autoImplicit false
set_option relaxedAutoImplicit false

namespace IntelNav.Digits

variable {K : Type} [Field K] [LinearOrder K] [IsStrictOrderedRing K]

/-! The largest magnitude of a row. -/

def largest (row : List K) : K := row.foldl (fun m x => max m |x|) 0

omit [IsStrictOrderedRing K] in
private theorem le_foldl_max (row : List K) (m : K) :
    m ≤ row.foldl (fun m x => max m |x|) m ∧
      ∀ x ∈ row, |x| ≤ row.foldl (fun m x => max m |x|) m := by
  induction row generalizing m with
  | nil => exact ⟨le_refl m, by simp⟩
  | cons x row ih =>
      obtain ⟨hstart, hrest⟩ := ih (max m |x|)
      rw [List.foldl_cons]
      constructor
      · exact le_trans (le_max_left m |x|) hstart
      · intro y hy
        rcases List.mem_cons.mp hy with rfl | hin
        · exact le_trans (le_max_right m |y|) hstart
        · exact hrest y hin

omit [IsStrictOrderedRing K] in
theorem largest_nonneg (row : List K) : 0 ≤ largest row := (le_foldl_max row 0).1

omit [IsStrictOrderedRing K] in
theorem abs_le_largest {row : List K} {x : K} (hx : x ∈ row) : |x| ≤ largest row :=
  (le_foldl_max row 0).2 x hx

def step (n : Nat) (row : List K) : K := if 0 < largest row then largest row / n else 1

theorem step_pos {n : Nat} (hn : 0 < n) (row : List K) : 0 < step n row := by
  unfold step
  split
  · rename_i hpos
    exact div_pos hpos (Nat.cast_pos.mpr hn)
  · exact zero_lt_one

/-- In steps of its row, a value is at most `n`. -/
theorem abs_mul_one_div_step_le {n : Nat} (hn : 0 < n) {row : List K} {x : K} (hx : x ∈ row) :
    |x * (1 / step n row)| ≤ n := by
  have hle := abs_le_largest hx
  have hstep := step_pos hn row
  rw [mul_one_div, abs_div, abs_of_pos hstep, div_le_iff₀ hstep]
  have hn' : (0 : K) < n := Nat.cast_pos.mpr hn
  unfold step
  split
  · rw [mul_div_cancel₀ _ hn'.ne']
    exact hle
  · rename_i hzero
    rw [mul_one]
    exact le_trans hle (le_trans (not_lt.mp hzero) hn'.le)

/-! Rounding. -/

section Round

variable [FloorRing K]

def roundAway (x : K) : ℤ := if x < 0 then -round (-x) else round x

private theorem abs_sub_roundAway (x : K) : |x - roundAway x| ≤ 1 / 2 := by
  unfold roundAway
  split
  · have hflip : x - ((-round (-x) : ℤ) : K) = -(-x - round (-x)) := by
      push_cast
      ring
    rw [hflip, abs_neg]
    exact abs_sub_round (-x)
  · exact abs_sub_round x

theorem abs_roundAway_le {n : Nat} {x : K} (hx : |x| ≤ n) : |roundAway x| ≤ n := by
  have hnear := abs_le.mp (abs_sub_roundAway x)
  have hbound := abs_le.mp hx
  have habove : ((roundAway x : ℤ) : K) < ((n + 1 : ℤ) : K) := by
    push_cast
    linarith
  have hbelow : ((-(n + 1) : ℤ) : K) < ((roundAway x : ℤ) : K) := by
    push_cast
    linarith
  have habove' : roundAway x < n + 1 := Int.cast_lt.mp habove
  have hbelow' : -(n + 1 : ℤ) < roundAway x := Int.cast_lt.mp hbelow
  rw [abs_le]
  omega

theorem abs_steps_sub_le {s : K} (hs : 0 < s) (x : K) :
    |roundAway (x * (1 / s)) * s - x| ≤ s / 2 := by
  have hnear := abs_sub_roundAway (x * (1 / s))
  have hback : x * (1 / s) * s = x := by
    rw [mul_one_div, div_mul_cancel₀ x hs.ne']
  have hscaled : roundAway (x * (1 / s)) * s - x =
      -((x * (1 / s) - roundAway (x * (1 / s))) * s) := by
    rw [sub_mul, hback, neg_sub]
  rw [hscaled, abs_neg, abs_mul, abs_of_pos hs]
  calc |x * (1 / s) - roundAway (x * (1 / s))| * s ≤ 1 / 2 * s :=
        mul_le_mul_of_nonneg_right hnear hs.le
    _ = s / 2 := by ring

end Round

end IntelNav.Digits
