import IntelNav.Core.Floats
import IntelNav.Runtime.Sample
import Mathlib.Algebra.Order.Field.Rat
import Mathlib.Algebra.Order.Field.Basic
import Mathlib.Tactic.Linarith
import Mathlib.Tactic.FieldSimp

/-! What the repeat penalty does to each logit (`apply_repeat_penalty` of
`crates/runtime/src/sample.rs`). -/

set_option autoImplicit false
set_option relaxedAutoImplicit false

namespace IntelNav.Runtime

open IntelNav.Core

section Any

variable {F : Type} [F32 F]

def penaltyWindow (ctx : List UInt32) (repeatCtx : Nat) : List UInt32 :=
  ctx.drop (ctx.length - repeatCtx)

def penalize (penalty v : F) : F :=
  if F32.ge v (F32.ofInt 0) then F32.div v penalty else F32.mul v penalty

private theorem applyRepeatPenalty_eq (logits : List F) (ctx : List UInt32) (repeatCtx : Nat)
    (penalty : F) :
    applyRepeatPenalty logits ctx repeatCtx penalty =
      (penaltyWindow ctx repeatCtx).foldl (fun logits tok => logits.modify tok.toNat
        (penalize penalty)) logits := rfl

theorem getElem?_foldl_modify {α β : Type} (at_ : β → Nat) (f : α → α) (bs : List β)
    (as : List α) (i : Nat) :
    (bs.foldl (fun as b => as.modify (at_ b) f) as)[i]? =
      as[i]?.map f^[bs.countP fun b => at_ b = i] := by
  induction bs generalizing as with
  | nil => simp
  | cons b bs ih =>
      rw [List.foldl_cons, ih, List.getElem?_modify]
      by_cases hb : at_ b = i
      · rw [List.countP_cons_of_pos (by simpa using hb), Function.iterate_succ]
        simp [hb, Function.comp_def]
      · rw [List.countP_cons_of_neg (by simpa using hb)]
        simp [hb]

theorem getElem?_applyRepeatPenalty (logits : List F) (ctx : List UInt32) (repeatCtx : Nat)
    (penalty : F) (i : Nat) :
    (applyRepeatPenalty logits ctx repeatCtx penalty)[i]? =
      logits[i]?.map
        (penalize penalty)^[(penaltyWindow ctx repeatCtx).countP fun tok => tok.toNat = i] := by
  rw [applyRepeatPenalty_eq, getElem?_foldl_modify]

/-- The penalty of the libraries that the sampler follows: each token in the window once. -/
def PenalizedOnce (logits : List F) (ctx : List UInt32) (repeatCtx : Nat) (penalty : F)
    (out : List F) : Prop :=
  ∀ i : Nat, out[i]? = logits[i]?.map fun v =>
    if ∃ tok ∈ penaltyWindow ctx repeatCtx, tok.toNat = i then penalize penalty v else v

end Any

/-! In exact arithmetic. -/

variable {penalty : ℚ}

private theorem penalize_of_nonneg {v : ℚ} (hv : 0 ≤ v) : penalize penalty v = v / penalty := by
  simp [penalize, F32.ge, F32.ofInt, F32.div, hv]

private theorem penalize_of_neg {v : ℚ} (hv : v < 0) : penalize penalty v = v * penalty := by
  simp [penalize, F32.ge, F32.ofInt, F32.mul, not_le.mpr hv]

private theorem iterate_penalize (hp : 1 < penalty) (n : Nat) (v : ℚ) :
    (penalize penalty)^[n] v = if 0 ≤ v then v / penalty ^ n else v * penalty ^ n := by
  have hpos : 0 < penalty := by linarith
  induction n generalizing v with
  | zero => simp
  | succ n ih =>
      rw [Function.iterate_succ_apply, ih]
      by_cases hv : 0 ≤ v
      · have hnext : 0 ≤ v / penalty := div_nonneg hv hpos.le
        rw [penalize_of_nonneg hv, if_pos hnext, if_pos hv, div_div, pow_succ']
      · have hneg : v < 0 := not_le.mp hv
        have hnext : v * penalty < 0 := mul_neg_of_neg_of_pos hneg hpos
        rw [penalize_of_neg hneg, if_neg (not_le.mpr hnext), if_neg hv, mul_assoc, pow_succ']

private theorem iterate_penalize_eq_iff (hp : 1 < penalty) {n : Nat} (hn : 1 ≤ n) (v : ℚ) :
    (penalize penalty)^[n] v = penalize penalty v ↔ (1 < n → v = 0) := by
  have hone : penalize penalty v = (penalize penalty)^[1] v := rfl
  have hpos : 0 < penalty := by linarith
  constructor
  · intro h hmany
    by_contra hv
    have hpow : penalty ^ 1 < penalty ^ n := pow_lt_pow_right₀ hp hmany
    rw [hone, iterate_penalize hp, iterate_penalize hp] at h
    split at h
    · have hne : penalty ^ n ≠ 0 := (pow_pos hpos n).ne'
      have hne' : penalty ^ 1 ≠ 0 := (pow_pos hpos 1).ne'
      rw [div_eq_div_iff hne hne'] at h
      exact hpow.ne (mul_left_cancel₀ hv h)
    · exact hpow.ne' (mul_left_cancel₀ hv h)
  · intro h
    rcases Nat.eq_or_lt_of_le hn with rfl | hmany
    · rfl
    · rw [hone, iterate_penalize hp, iterate_penalize hp, h hmany]
      simp

/-- Every token in the window is penalized once just when no token of the vocabulary with a logit
other than zero is there twice. -/
theorem penalizedOnce_iff (logits : List ℚ) (ctx : List UInt32) (repeatCtx : Nat)
    (hp : 1 < penalty) :
    PenalizedOnce logits ctx repeatCtx penalty
        (applyRepeatPenalty logits ctx repeatCtx penalty) ↔
      ∀ tok v, logits[tok.toNat]? = some v → 1 < (penaltyWindow ctx repeatCtx).count tok →
        v = 0 := by
  have hcount : ∀ tok : UInt32, (penaltyWindow ctx repeatCtx).countP
      (fun t => t.toNat = tok.toNat) = (penaltyWindow ctx repeatCtx).count tok := by
    intro tok
    rw [List.count]
    refine List.countP_congr fun t _ => ?_
    simp [UInt32.toNat_inj]
  constructor
  · intro h tok v hv hmany
    have hat := h tok.toNat
    rw [getElem?_applyRepeatPenalty, hv, Option.map_some, Option.map_some, hcount] at hat
    have hmem : tok ∈ penaltyWindow ctx repeatCtx := List.count_pos_iff.mp (by omega)
    rw [if_pos ⟨tok, hmem, rfl⟩] at hat
    exact (iterate_penalize_eq_iff hp (by omega) v).mp (Option.some.inj hat) hmany
  · intro h i
    rw [getElem?_applyRepeatPenalty]
    cases hv : logits[i]? with
    | none => rfl
    | some v =>
        rw [Option.map_some, Option.map_some]
        by_cases hmem : ∃ tok ∈ penaltyWindow ctx repeatCtx, tok.toNat = i
        · rw [if_pos hmem]
          obtain ⟨tok, htok, rfl⟩ := hmem
          have hone : 1 ≤ (penaltyWindow ctx repeatCtx).count tok := List.count_pos_iff.mpr htok
          rw [hcount, (iterate_penalize_eq_iff hp hone v).mpr (h tok v hv)]
        · have hzero : (penaltyWindow ctx repeatCtx).countP (fun tok => tok.toNat = i) = 0 := by
            rw [List.countP_eq_zero]
            intro tok htok heq
            exact hmem ⟨tok, htok, by simpa using heq⟩
          rw [hzero, if_neg hmem]
          rfl

theorem penalizedOnce_iff_apart :
    PenalizedOnce [3, -1] [1, 0] 8 (2 : ℚ) (applyRepeatPenalty [3, -1] [1, 0] 8 2) ↔
      ∀ tok v, ([3, -1] : List ℚ)[tok.toNat]? = some v →
        1 < (penaltyWindow [1, 0] 8).count tok → v = 0 :=
  penalizedOnce_iff [3, -1] [1, 0] 8 (by norm_num)

/-- A token that is twice in the window is divided by the penalty twice. -/
theorem repeated_token_penalized_twice :
    applyRepeatPenalty [4] [0, 0] 8 (2 : ℚ) = [1] ∧
      ¬ PenalizedOnce [4] [0, 0] 8 (2 : ℚ) (applyRepeatPenalty [4] [0, 0] 8 2) := by
  have hout : applyRepeatPenalty [4] [0, 0] 8 (2 : ℚ) = [1] := by decide +kernel
  refine ⟨hout, fun h => ?_⟩
  have hfirst := h 0
  rw [hout] at hfirst
  revert hfirst
  decide +kernel

end IntelNav.Runtime
