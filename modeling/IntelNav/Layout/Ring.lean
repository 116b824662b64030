import Mathlib.Data.List.Basic
import Mathlib.Logic.Function.Iterate
import Mathlib.Tactic.Common

/-! Places around a ring, some of which can be stopped at: the next stop in either direction, and
the number of stops before it. -/

set_option autoImplicit false
set_option relaxedAutoImplicit false

namespace IntelNav.Layout

universe u

section Stops

variable {α : Type u} (p : α → Bool) (l : List α)

def isStop (i : Nat) : Bool := l[i]?.any p

def stopsBefore (i : Nat) : Nat := (l.take i).countP p

def forward (i : Nat) : Nat := (i + 1) % l.length

def backward (i : Nat) : Nat := if i = 0 then l.length - 1 else i - 1

/-- From place `i` the next stop is `j`, at most once around. -/
def NextStop (next : Nat → Nat) (i j : Nat) : Prop :=
  ∃ d, 0 < d ∧ d ≤ l.length ∧ next^[d] i = j ∧ isStop p l j = true ∧
    ∀ e, 0 < e → e < d → isStop p l (next^[e] i) = false

end Stops

variable {α : Type u} {p : α → Bool} {l : List α} {i j d : Nat}

theorem isStop_lt (h : isStop p l i = true) : i < l.length := by
  by_contra hlt
  rw [isStop, List.getElem?_eq_none (by omega)] at h
  cases h

private theorem stopsBefore_succ (p : α → Bool) (l : List α) (i : Nat) :
    stopsBefore p l (i + 1) = stopsBefore p l i + if isStop p l i then 1 else 0 := by
  rw [stopsBefore, List.take_add_one, List.countP_append]
  unfold isStop stopsBefore
  cases l[i]? with
  | none => rfl
  | some x => cases hx : p x <;> simp [hx]

private theorem stopsBefore_length (p : α → Bool) (l : List α) :
    stopsBefore p l l.length = l.countP p := by
  rw [stopsBefore, List.take_length]

private theorem stopsBefore_add (h : ∀ e, e < d → isStop p l (i + e) = false) :
    stopsBefore p l (i + d) = stopsBefore p l i := by
  induction d with
  | zero => rfl
  | succ d ih =>
      have hlast := h d (Nat.lt_succ_self d)
      rw [← Nat.add_assoc, stopsBefore_succ, hlast, ih fun e he => h e (Nat.lt_succ_of_lt he)]
      rfl

private theorem stopsBefore_gap (hi : isStop p l i = true) (hpos : 0 < d)
    (h : ∀ e, 0 < e → e < d → isStop p l (i + e) = false) :
    stopsBefore p l (i + d) = stopsBefore p l i + 1 := by
  have hhere := stopsBefore_succ p l i
  rw [if_pos hi] at hhere
  have hgap : stopsBefore p l (i + 1 + (d - 1)) = stopsBefore p l (i + 1) := by
    apply stopsBefore_add
    intro e he
    rw [Nat.add_assoc]
    exact h (1 + e) (by omega) (by omega)
  rw [show i + 1 + (d - 1) = i + d by omega] at hgap
  exact hgap.trans hhere

theorem stopsBefore_lt (h : isStop p l i = true) : stopsBefore p l i < l.countP p := by
  have hlt := isStop_lt h
  have hsucc := stopsBefore_succ p l i
  rw [if_pos h] at hsucc
  have hle : stopsBefore p l (i + 1) ≤ l.countP p :=
    (List.take_sublist (i + 1) l).countP_le
  omega

theorem forward_lt (hi : i < l.length) : forward l i < l.length :=
  Nat.mod_lt _ (by omega)

theorem iterate_forward (hi : i < l.length) (d : Nat) : (forward l)^[d] i = (i + d) % l.length := by
  induction d with
  | zero => exact (Nat.mod_eq_of_lt hi).symm
  | succ d ih =>
      rw [Function.iterate_succ_apply', ih, forward, Nat.mod_add_mod]
      rfl

private theorem forward_backward (hi : i < l.length) : forward l (backward l i) = i := by
  unfold forward backward
  split_ifs with h
  · subst h
    rw [Nat.sub_add_cancel hi, Nat.mod_self]
  · rw [Nat.sub_add_cancel (by omega), Nat.mod_eq_of_lt hi]

theorem backward_lt (hi : i < l.length) : backward l i < l.length := by
  unfold backward
  split_ifs <;> omega

theorem iterate_backward_lt (hi : i < l.length) (d : Nat) : (backward l)^[d] i < l.length := by
  induction d with
  | zero => exact hi
  | succ d ih =>
      rw [Function.iterate_succ_apply']
      exact backward_lt ih

theorem iterate_forward_backward (hi : i < l.length) {e : Nat} (he : e ≤ d) :
    (forward l)^[e] ((backward l)^[d] i) = (backward l)^[d - e] i := by
  induction e with
  | zero => rfl
  | succ e ih =>
      have hstep : d - e = d - (e + 1) + 1 := by omega
      rw [Function.iterate_succ_apply', ih (by omega), hstep, Function.iterate_succ_apply']
      exact forward_backward (iterate_backward_lt hi _)

theorem NextStop.reverse (hi : isStop p l i = true) (h : NextStop p l (backward l) i j) :
    NextStop p l (forward l) j i := by
  obtain ⟨d, hpos, hle, rfl, -, hbetween⟩ := h
  have hlt := isStop_lt hi
  refine ⟨d, hpos, hle, ?_, hi, ?_⟩
  · rw [iterate_forward_backward hlt (Nat.le_refl d), Nat.sub_self]
    rfl
  · intro e he hed
    rw [iterate_forward_backward hlt (Nat.le_of_lt hed)]
    exact hbetween (d - e) (by omega) (by omega)

theorem NextStop.stopsBefore_forward (hi : isStop p l i = true)
    (h : NextStop p l (forward l) i j) :
    stopsBefore p l j = (stopsBefore p l i + 1) % l.countP p := by
  obtain ⟨d, hpos, hle, rfl, hstop, hbetween⟩ := h
  have hlt := isStop_lt hi
  have hahead : ∀ e, 0 < e → e < d → i + e < l.length → isStop p l (i + e) = false := by
    intro e he hed hin
    have hnone := hbetween e he hed
    rwa [iterate_forward hlt, Nat.mod_eq_of_lt hin] at hnone
  rw [iterate_forward hlt] at hstop ⊢
  rcases Nat.lt_or_ge (i + d) l.length with hin | hout
  · rw [Nat.mod_eq_of_lt hin] at hstop ⊢
    have hmore := stopsBefore_lt hstop
    rw [stopsBefore_gap hi hpos fun e he hed => hahead e he hed (by omega)] at hmore ⊢
    exact (Nat.mod_eq_of_lt hmore).symm
  · have hwrap : ∀ e, l.length ≤ i + e → e ≤ d → (i + e) % l.length = i + e - l.length := by
      intro e hge hed
      rw [Nat.mod_eq_sub_mod hge, Nat.mod_eq_of_lt (by omega)]
    have hall : stopsBefore p l (i + (l.length - i)) = stopsBefore p l i + 1 :=
      stopsBefore_gap hi (by omega) fun e he hed => hahead e he (by omega) (by omega)
    rw [Nat.add_sub_cancel' (Nat.le_of_lt hlt), stopsBefore_length] at hall
    have hfirst : stopsBefore p l (0 + (i + d - l.length)) = stopsBefore p l 0 := by
      apply stopsBefore_add
      intro e he
      have hnone := hbetween (e + l.length - i) (by omega) (by omega)
      rw [iterate_forward hlt, hwrap _ (by omega) (by omega)] at hnone
      rw [← hnone]
      congr 1
      omega
    rw [hwrap d hout (Nat.le_refl d), ← hall, Nat.mod_self]
    rw [Nat.zero_add] at hfirst
    exact hfirst

theorem NextStop.stopsBefore_backward (hi : isStop p l i = true)
    (h : NextStop p l (backward l) i j) :
    stopsBefore p l i = (stopsBefore p l j + 1) % l.countP p := by
  have hback := h.reverse hi
  obtain ⟨-, -, -, -, hj, -⟩ := h
  exact hback.stopsBefore_forward hj

theorem stop_unique (hi : isStop p l i = true) (hj : isStop p l j = true)
    (h : stopsBefore p l i = stopsBefore p l j) : i = j := by
  have hless : ∀ a b, isStop p l a = true → a < b → stopsBefore p l a < stopsBefore p l b := by
    intro a b ha hab
    have hsucc := stopsBefore_succ p l a
    rw [if_pos ha] at hsucc
    have hmono : stopsBefore p l (a + 1) ≤ stopsBefore p l b :=
      (List.take_sublist_take_left hab).countP_le
    omega
  rcases Nat.lt_trichotomy i j with hlt | heq | hgt
  · have := hless i j hi hlt
    omega
  · exact heq
  · have := hless j i hj hgt
    omega

end IntelNav.Layout
