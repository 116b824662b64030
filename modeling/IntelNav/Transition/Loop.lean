import Mathlib.Tactic.Common

/-! Loops: rounds repeated until one of them returns.

A loop is run with fuel; a measure that every round lowers shows how much is enough, and two loops
whose rounds simulate each other return related results. -/

set_option autoImplicit false
set_option relaxedAutoImplicit false

namespace IntelNav.Transition

universe u v

variable {σ τ : Type u} {ρ π : Type v}

/-- What one round does: go on from a state, or return. -/
inductive Round (σ : Type u) (ρ : Type v)
  | again (s : σ)
  | return (r : ρ)

/-- The result of a loop, if `n` rounds are enough. -/
def loop (round : σ → Round σ ρ) : Nat → σ → Option ρ
  | 0, _ => none
  | n + 1, s =>
      match round s with
      | .again s => loop round n s
      | .return r => some r

/-- The state a loop is in before round `n`, if it gets there. -/
def stateAt (round : σ → Round σ ρ) : Nat → σ → Option σ
  | 0, s => some s
  | n + 1, s =>
      match round s with
      | .again s => stateAt round n s
      | .return _ => none

variable {round : σ → Round σ ρ} {round' : τ → Round τ π}

/-- A loop whose rounds lower a measure returns within one round more than the measure. -/
theorem loop_isSome (μ : σ → Nat) (hμ : ∀ s s', round s = .again s' → μ s' < μ s) (n : Nat) (s : σ)
    (hn : μ s < n) : (loop round n s).isSome := by
  induction n generalizing s with
  | zero => omega
  | succ n ih =>
      rw [loop]
      cases h : round s with
      | again s' => exact ih s' (by have := hμ s s' h; omega)
      | «return» r => rfl

/-- The rounds of one loop answer the rounds of the other: both go on, in related states, or both
return, with related results. -/
def Answers (R : σ → τ → Prop) (Q : ρ → π → Prop) : Round σ ρ → Round τ π → Prop
  | .again s, .again t => R s t
  | .return r, .return p => Q r p
  | _, _ => False

theorem Answers.imp {R R' : σ → τ → Prop} {Q : ρ → π → Prop} {a : Round σ ρ} {b : Round τ π}
    (h : Answers R Q a b) (himp : ∀ s t, a = .again s → R s t → R' s t) : Answers R' Q a b := by
  cases a with
  | again s =>
      cases b with
      | again t => exact himp s t rfl h
      | «return» p => exact h
  | «return» r =>
      cases b with
      | again t => exact h
      | «return» p => exact h

variable (round round') in
/-- Two loops in lockstep return related results; what relates their states may depend on the number
of rounds made. -/
theorem loop_related {R : Nat → σ → τ → Prop} {Q : ρ → π → Prop}
    (hstep : ∀ n s t, R n s t → Answers (R (n + 1)) Q (round s) (round' t)) (n m : Nat) (s : σ)
    (t : τ) (hR : R m s t) :
    loop round n s = none ∧ loop round' n t = none ∨
      ∃ r p, loop round n s = some r ∧ loop round' n t = some p ∧ Q r p := by
  induction n generalizing m s t with
  | zero => exact .inl ⟨rfl, rfl⟩
  | succ n ih =>
      have hans := hstep m s t hR
      rw [loop, loop]
      cases h : round s with
      | again s' =>
          cases h' : round' t with
          | again t' =>
              rw [h, h'] at hans
              exact ih (m + 1) s' t' hans
          | «return» p =>
              rw [h, h'] at hans
              cases hans
      | «return» r =>
          cases h' : round' t with
          | again t' =>
              rw [h, h'] at hans
              cases hans
          | «return» p =>
              rw [h, h'] at hans
              exact .inr ⟨r, p, rfl, rfl, hans⟩

/-- What every round keeps holds before every round. -/
theorem stateAt_invariant {P : σ → Prop} (hstep : ∀ s s', P s → round s = .again s' → P s')
    {n : Nat} {s₀ s : σ} (h₀ : P s₀) (h : stateAt round n s₀ = some s) : P s := by
  induction n generalizing s₀ with
  | zero =>
      obtain rfl : s₀ = s := Option.some.inj h
      exact h₀
  | succ n ih =>
      rw [stateAt] at h
      cases hr : round s₀ with
      | again s₁ =>
          rw [hr] at h
          exact ih (hstep s₀ s₁ h₀ hr) h
      | «return» r =>
          rw [hr] at h
          cases h

theorem stateAt_again {n : Nat} {s₀ s s' : σ} (h : stateAt round n s₀ = some s)
    (hr : round s = .again s') : stateAt round (n + 1) s₀ = some s' := by
  induction n generalizing s₀ with
  | zero =>
      obtain rfl : s₀ = s := Option.some.inj h
      simp only [stateAt, hr]
  | succ n ih =>
      rw [stateAt] at h ⊢
      cases h₀ : round s₀ with
      | again s₁ =>
          rw [h₀] at h
          exact ih h
      | «return» r =>
          rw [h₀] at h
          cases h

end IntelNav.Transition
