import IntelNav.Reading.Cursor
import Mathlib.Data.Nat.Digits.Lemmas

/-! Numerals in one radix rewritten in another by carries, their leading zeros kept. -/

set_option autoImplicit false
set_option relaxedAutoImplicit false

namespace IntelNav.Digits

open IntelNav.Reading

/-! Numerals, the highest digit first. -/

def value (b : Nat) (ds : List Nat) : Nat := ds.foldl (fun n d => n * b + d) 0

def leadingZeros (ds : List Nat) : Nat := (ds.takeWhile (· == 0)).length

/-- The numeral of the same number in radix `c`, with as many leading zeros. -/
def convert (b c : Nat) (ds : List Nat) : List Nat :=
  List.replicate (leadingZeros ds) 0 ++ (Nat.digits c (value b ds)).reverse

private theorem foldl_horner (b : Nat) (ds : List Nat) (n : Nat) :
    ds.foldl (fun n d => n * b + d) n = n * b ^ ds.length + Nat.ofDigits b ds.reverse := by
  induction ds generalizing n with
  | nil => simp
  | cons d ds ih =>
      rw [List.foldl_cons, ih, List.reverse_cons, Nat.ofDigits_append, List.length_cons,
        Nat.ofDigits_singleton, List.length_reverse]
      ring

private theorem value_eq_ofDigits (b : Nat) (ds : List Nat) :
    value b ds = Nat.ofDigits b ds.reverse := by
  simp [value, foldl_horner]

private theorem value_replicate_append (b k : Nat) (ds : List Nat) :
    value b (List.replicate k 0 ++ ds) = value b ds := by
  rw [value_eq_ofDigits, value_eq_ofDigits, List.reverse_append, List.reverse_replicate,
    Nat.ofDigits_append_replicate_zero]

private theorem value_digits_reverse (b n : Nat) : value b (Nat.digits b n).reverse = n := by
  rw [value_eq_ofDigits, List.reverse_reverse, Nat.ofDigits_digits]

theorem head?_digits_reverse (b n : Nat) : (Nat.digits b n).reverse.head? ≠ some 0 := by
  intro h
  rw [List.head?_reverse] at h
  have hne : Nat.digits b n ≠ [] := by
    intro hnil
    simp [hnil] at h
  rw [List.getLast?_eq_getLast_of_ne_nil hne] at h
  exact Nat.getLast_digit_ne_zero b (Nat.digits_ne_nil_iff_ne_zero.mp hne) (Option.some.inj h)

private theorem leadingZeros_replicate_append (k : Nat) {ds : List Nat} (h : ds.head? ≠ some 0) :
    leadingZeros (List.replicate k 0 ++ ds) = k := by
  induction k with
  | zero =>
      cases ds with
      | nil => simp [leadingZeros]
      | cons d ds =>
          have hd : d ≠ 0 := by simpa using h
          simp [leadingZeros, hd]
  | succ k ih => simpa [leadingZeros, List.replicate_succ] using ih

private theorem convert_self {b : Nat} (hb : 1 < b) {ds : List Nat} (hds : ∀ d ∈ ds, d < b) :
    convert b b ds = ds := by
  induction ds with
  | nil => simp [convert, value, leadingZeros]
  | cons d ds ih =>
      by_cases hd : d = 0
      · subst hd
        have hrest := ih fun x hx => hds x (List.mem_cons_of_mem _ hx)
        have hlead : leadingZeros (0 :: ds) = leadingZeros ds + 1 := by simp [leadingZeros]
        have hvalue : value b (0 :: ds) = value b ds := value_replicate_append b 1 ds
        rw [convert, hlead, hvalue, List.replicate_succ, List.cons_append]
        exact congrArg _ hrest
      · have hlead : leadingZeros (d :: ds) = 0 := by simp [leadingZeros, hd]
        have hdigits : Nat.digits b (Nat.ofDigits b (d :: ds).reverse) = (d :: ds).reverse := by
          apply Nat.digits_ofDigits b hb
          · intro x hx
            exact hds x (List.mem_reverse.mp hx)
          · intro _
            simpa using hd
        rw [convert, hlead, value_eq_ofDigits, hdigits]
        simp

theorem convert_convert {b : Nat} (c : Nat) (hb : 1 < b) {ds : List Nat} (hds : ∀ d ∈ ds, d < b) :
    convert c b (convert b c ds) = ds := by
  have hlead : leadingZeros (convert b c ds) = leadingZeros ds :=
    leadingZeros_replicate_append _ (head?_digits_reverse c _)
  have hvalue : value c (convert b c ds) = value b ds := by
    rw [convert, value_replicate_append, value_digits_reverse]
  have h : convert c b (convert b c ds) = convert b b ds := by
    rw [convert, hlead, hvalue, convert]
  rw [h, convert_self hb hds]

theorem lt_of_mem_convert {b c : Nat} (hc : 1 < c) {ds : List Nat} {d : Nat}
    (hd : d ∈ convert b c ds) : d < c := by
  rcases List.mem_append.mp hd with h | h
  · obtain rfl := List.eq_of_mem_replicate h
    omega
  · exact Nat.digits_lt_base hc (List.mem_reverse.mp h)

/-! Carries. -/

/-- Every digit times `factor` and the carry into its column, the lowest first; what is carried out
of the last column comes with the digits. -/
def carryThrough (ar : Arith) (low high : Nat → Nat) (factor : Nat) :
    List Nat → Nat → Option (List Nat × Nat)
  | [], carry => some ([], carry)
  | d :: ds, carry => do
      let scaled ← ar.mul d factor
      let acc ← ar.add scaled carry
      let (ds, out) ← carryThrough ar low high factor ds (high acc)
      some (low acc :: ds, out)

/-- The digits of a carry, lowest first, as long as there is a carry; `fuel` bounds their number. -/
def spill (low high : Nat → Nat) : Nat → Nat → List Nat
  | 0, _ => []
  | fuel + 1, carry => if 0 < carry then low carry :: spill low high fuel (high carry) else []

/-- Multiply by `factor` and add `d`. The fuel is enough, for a carry falls. -/
def pushDigit (ar : Arith) (low high : Nat → Nat) (factor : Nat) (num : List Nat) (d : Nat) :
    Option (List Nat) := do
  let (num, carry) ← carryThrough ar low high factor num d
  some (num ++ spill low high carry carry)

/-- The columns hold digits of radix `b`, and the arithmetic is right as far as they need it. -/
structure Columns (b factor : Nat) (ar : Arith) (low high : Nat → Nat) : Prop where
  radix : 1 < b
  low_eq : ∀ n, low n = n % b
  high_eq : ∀ n, high n = n / b
  add : ∀ m n, m + n < b * factor → ar.add m n = some (m + n)
  mul : ∀ m n, m * n < b * factor → ar.mul m n = some (m * n)

variable {b factor : Nat} {ar : Arith} {low high : Nat → Nat}

theorem Columns.of_trapping {w : Nat} (hb : 1 < b) (hw : b * factor ≤ 2 ^ w)
    (hlow : ∀ n, low n = n % b) (hhigh : ∀ n, high n = n / b) :
    Columns b factor (.trapping w) low high where
  radix := hb
  low_eq := hlow
  high_eq := hhigh
  add _ _ h := if_pos (lt_of_lt_of_le h hw)
  mul _ _ h := if_pos (lt_of_lt_of_le h hw)

theorem Columns.of_wrapping {w : Nat} (hb : 1 < b) (hw : b * factor ≤ 2 ^ w)
    (hlow : ∀ n, low n = n % b) (hhigh : ∀ n, high n = n / b) :
    Columns b factor (.wrapping w) low high where
  radix := hb
  low_eq := hlow
  high_eq := hhigh
  add _ _ h := congrArg some (Nat.mod_eq_of_lt (lt_of_lt_of_le h hw))
  mul _ _ h := congrArg some (Nat.mod_eq_of_lt (lt_of_lt_of_le h hw))

private theorem Columns.spill_eq (h : Columns b factor ar low high) {fuel carry : Nat}
    (hfuel : carry ≤ fuel) : spill low high fuel carry = Nat.digits b carry := by
  induction fuel generalizing carry with
  | zero =>
      obtain rfl : carry = 0 := by omega
      simp [spill]
  | succ fuel ih =>
      rw [spill]
      split
      · rename_i hpos
        have hless : carry / b ≤ fuel := by
          have := Nat.div_lt_self hpos h.radix
          omega
        rw [h.low_eq, h.high_eq, ih hless, ← Nat.digits_def' h.radix hpos]
      · obtain rfl : carry = 0 := by omega
        simp

/-- One column: the sum fits in a word and carries less than the factor. -/
private theorem column_lt {d carry : Nat} (hd : d < b) (hcarry : carry < factor) :
    d * factor + carry < b * factor ∧
      (d * factor + carry) / b < factor := by
  have hle : (d + 1) * factor ≤ b * factor := Nat.mul_le_mul_right _ hd
  rw [Nat.add_mul, Nat.one_mul] at hle
  have hlt : d * factor + carry < b * factor := by omega
  exact ⟨hlt, Nat.div_lt_of_lt_mul hlt⟩

/-- The invariant of the carry loop: the columns passed, and the carry, stand for the multiple of
the digits passed. -/
private theorem Columns.carryThrough_digits (h : Columns b factor ar low high) (n : Nat)
    {carry : Nat} (hcarry : carry < factor) :
    ∃ ds out, carryThrough ar low high factor (Nat.digits b n) carry = some (ds, out) ∧
      ds ++ Nat.digits b out = Nat.digits b (n * factor + carry) := by
  have hb := h.radix
  induction n using Nat.strong_induction_on generalizing carry with
  | _ n ih =>
      rcases Nat.eq_zero_or_pos n with rfl | hpos
      · exact ⟨[], carry, by simp [carryThrough], by simp⟩
      · obtain ⟨hacc, hout⟩ := column_lt (Nat.mod_lt n (Nat.lt_of_succ_lt hb)) hcarry
        have hscaled : n % b * factor < b * factor := by omega
        obtain ⟨ds, out, hrun, hds⟩ := ih (n / b) (Nat.div_lt_self hpos hb) hout
        have htotal : n * factor + carry =
            n % b * factor + carry + b * (n / b * factor) := by
          conv_lhs => rw [← Nat.mod_add_div n b]
          ring
        have htotalPos : 0 < n * factor + carry := by
          have : 0 < n * factor := Nat.mul_pos hpos (by omega)
          omega
        have hdiv : (n * factor + carry) / b =
            n / b * factor + (n % b * factor + carry) / b := by
          rw [htotal, Nat.add_mul_div_left _ _ (by omega), Nat.add_comm]
        have hmod : (n * factor + carry) % b = (n % b * factor + carry) % b := by
          rw [htotal, Nat.add_mul_mod_self_left]
        refine ⟨(n % b * factor + carry) % b :: ds, out, ?_, ?_⟩
        · rw [Nat.digits_def' hb hpos, carryThrough, h.mul _ _ hscaled]
          simp only [Option.bind_eq_bind, Option.bind_some, h.add _ _ hacc, h.low_eq, h.high_eq,
            hrun]
        · rw [List.cons_append, hds, Nat.digits_def' hb htotalPos, hmod, hdiv]

theorem Columns.pushDigit_digits (h : Columns b factor ar low high) (n : Nat) {d : Nat}
    (hd : d < factor) :
    pushDigit ar low high factor (Nat.digits b n) d = some (Nat.digits b (n * factor + d)) := by
  obtain ⟨ds, out, hrun, hds⟩ := h.carryThrough_digits n hd
  rw [pushDigit, hrun]
  simp only [Option.bind_eq_bind, Option.bind_some]
  rw [h.spill_eq le_rfl, hds]

theorem Columns.foldlM_pushDigit (h : Columns b factor ar low high) {ds : List Nat}
    (hds : ∀ d ∈ ds, d < factor) (n : Nat) :
    ds.foldlM (pushDigit ar low high factor) (Nat.digits b n) =
      some (Nat.digits b (ds.foldl (fun n d => n * factor + d) n)) := by
  induction ds generalizing n with
  | nil => rfl
  | cons d ds ih =>
      rw [List.foldlM_cons, h.pushDigit_digits n (hds d (by simp))]
      exact ih (fun x hx => hds x (List.mem_cons_of_mem _ hx)) _

end IntelNav.Digits
