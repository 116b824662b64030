import Mathlib.Tactic.Common

/-! Runs of a partial step function, with a condition that every step of the run meets. -/

set_option autoImplicit false
set_option relaxedAutoImplicit false

namespace IntelNav.Transition

universe u v

variable {State : Type u} {Event : Type v}

/-- `Run step ok s es t`: from `s` the events `es` lead to `t`, each enabled and meeting `ok` in the
state it starts from. -/
inductive Run (step : State → Event → Option State) (ok : State → Event → Prop) (s : State) :
    List Event → State → Prop
  | nil : Run step ok s [] s
  | snoc {es : List Event} {t t' : State} {e : Event} :
      Run step ok s es t → ok t e → step t e = some t' → Run step ok s (es ++ [e]) t'

/-- A run all of whose states satisfy `P`, the first and the last included. -/
def Held (step : State → Event → Option State) (P : State → Prop) (s : State)
    (es : List Event) (t : State) : Prop :=
  Run step (fun x _ => P x) s es t ∧ P t

/-- The last `es₂` of the events `es` from `s` to `t` started in a state satisfying `Q`, and `P`
held ever since. -/
def HeldSince (step : State → Event → Option State) (P Q : State → Prop) (s : State)
    (es : List Event) (t : State) : Prop :=
  ∃ es₁ es₂ m, es = es₁ ++ es₂ ∧ Run step (fun _ _ => True) s es₁ m ∧ Q m ∧ Held step P m es₂ t

variable {step : State → Event → Option State} {ok ok' : State → Event → Prop}
variable {s t : State} {es : List Event}

/-- The invariant rule. -/
theorem Run.invariant {I : State → Prop} (hrun : Run step ok s es t) (hinit : I s)
    (hstep : ∀ x e y, I x → ok x e → step x e = some y → I y) : I t := by
  induction hrun with
  | nil => exact hinit
  | snoc _ hok hs ih => exact hstep _ _ _ ih hok hs

theorem Run.weaken (hrun : Run step ok s es t) (h : ∀ x e, ok x e → ok' x e) :
    Run step ok' s es t := by
  induction hrun with
  | nil => exact .nil
  | snoc _ hok hs ih => exact .snoc ih (h _ _ hok) hs

theorem Run.append {es' : List Event} {u : State} (hrun : Run step ok s es t)
    (hrun' : Run step ok t es' u) : Run step ok s (es ++ es') u := by
  induction hrun' with
  | nil => simpa using hrun
  | snoc _ hok hs ih =>
      rw [← List.append_assoc]
      exact .snoc ih hok hs

private theorem Run.snoc_iff {e : Event} {u : State} :
    Run step ok s (es ++ [e]) u ↔ ∃ m, Run step ok s es m ∧ ok m e ∧ step m e = some u := by
  constructor
  · intro h
    generalize hes : es ++ [e] = fs at h
    cases h with
    | nil => simp at hes
    | snoc hrun hok hs =>
        obtain ⟨rfl, he⟩ := List.append_inj' hes rfl
        obtain rfl := List.singleton_inj.mp he
        exact ⟨_, hrun, hok, hs⟩
  · rintro ⟨m, hrun, hok, hs⟩
    exact .snoc hrun hok hs

theorem Held.first {P : State → Prop} (h : Held step P s es t) : P s := by
  obtain ⟨hrun, hlast⟩ := h
  induction hrun with
  | nil => exact hlast
  | snoc _ hP _ ih => exact ih hP

/-- One more step that keeps `P` prolongs the time `P` has held. -/
theorem HeldSince.snoc {P Q : State → Prop} {e : Event} {t' : State}
    (h : HeldSince step P Q s es t) (hs : step t e = some t') (hP : P t') :
    HeldSince step P Q s (es ++ [e]) t' := by
  obtain ⟨es₁, es₂, m, rfl, hrun, hQ, hheld, hPt⟩ := h
  exact ⟨es₁, es₂ ++ [e], m, by simp, hrun, hQ, .snoc hheld hPt hs, hP⟩

/-- `P` starts to hold in the state reached now. -/
theorem HeldSince.start {P Q : State → Prop} (hrun : Run step ok s es t) (hP : P t) (hQ : Q t) :
    HeldSince step P Q s es t :=
  ⟨es, [], t, by simp, hrun.weaken fun _ _ _ => trivial, hQ, .nil, hP⟩

def exec (step : State → Event → Option State) (s : State) : List Event → Option State
  | [] => some s
  | e :: es => (step s e).bind fun t => exec step t es

variable (ok) in
theorem Run.of_exec (h : exec step s es = some t) (hok : ∀ x, ∀ e ∈ es, ok x e) :
    Run step ok s es t := by
  induction es generalizing s with
  | nil =>
      obtain rfl : s = t := by simpa [exec] using h
      exact .nil
  | cons e es ih =>
      obtain ⟨m, hm, hrest⟩ := Option.bind_eq_some_iff.mp h
      have hone : Run step ok s ([] ++ [e]) m := .snoc .nil (hok s e (by simp)) hm
      exact hone.append (ih hrest fun x e' he' => hok x e' (by simp [he']))

private theorem exec_append (es es' : List Event) :
    exec step s (es ++ es') = (exec step s es).bind fun t => exec step t es' := by
  induction es generalizing s with
  | nil => rfl
  | cons e es ih =>
      rw [List.cons_append, exec, exec, Option.bind_assoc]
      exact congrArg _ (funext fun t => ih)

theorem Run.exec_eq (hrun : Run step ok s es t) : exec step s es = some t := by
  induction hrun with
  | nil => rfl
  | snoc _ _ hs ih =>
      rw [exec_append, ih, Option.bind_some, exec, hs]
      rfl

theorem Run.unique {t' : State} (hrun : Run step ok s es t) (hrun' : Run step ok' s es t') :
    t = t' :=
  Option.some.inj (hrun.exec_eq.symm.trans hrun'.exec_eq)

/-- Where a step keeps `P` just when it meets a condition, `P` holds all along a run just when
every step meets the condition. -/
theorem held_iff_run {P I : State → Prop} (hrun : Run step ok' s es t) (hinit : I s) (hP : P s)
    (hinv : ∀ x e y, I x → step x e = some y → I y)
    (hstep : ∀ x e y, I x → P x → step x e = some y → (P y ↔ ok x e)) :
    Held step P s es t ↔ Run step ok s es t := by
  induction hrun with
  | nil => exact iff_of_true ⟨.nil, hP⟩ .nil
  | @snoc es t t' e hrun _ hs ih =>
      have hI : I t := hrun.invariant hinit fun x e y hx _ hy => hinv x e y hx hy
      constructor
      · rintro ⟨h, hP'⟩
        obtain ⟨m, hm, hPm, -⟩ := Run.snoc_iff.mp h
        obtain rfl := hm.unique hrun
        exact .snoc (ih.mp ⟨hm, hPm⟩) ((hstep _ _ _ hI hPm hs).mp hP') hs
      · intro h
        obtain ⟨m, hm, hok, -⟩ := Run.snoc_iff.mp h
        obtain rfl := hm.unique hrun
        obtain ⟨hheld, hPm⟩ := ih.mpr hm
        exact ⟨.snoc hheld hPm hs, (hstep _ _ _ hI hPm hs).mpr hok⟩

/-- The events executed one after the other, as long as each passes a check. -/
def execChecked (step : State → Event → Option State) (check : State → Event → Bool) (s : State) :
    List Event → Option State
  | [] => some s
  | e :: es => if check s e then (step s e).bind fun t => execChecked step check t es else none

theorem Run.of_execChecked {check : State → Event → Bool}
    (h : execChecked step check s es = some t) (hok : ∀ x e, check x e = true → ok x e) :
    Run step ok s es t := by
  induction es generalizing s with
  | nil =>
      obtain rfl : s = t := by simpa [execChecked] using h
      exact .nil
  | cons e es ih =>
      obtain ⟨hcheck, h⟩ := Option.ite_none_right_eq_some.mp h
      obtain ⟨m, hm, hrest⟩ := Option.bind_eq_some_iff.mp h
      have hone : Run step ok s ([] ++ [e]) m := .snoc .nil (hok s e hcheck) hm
      exact hone.append (ih hrest)

/-! Tasks kept in a list by number: one more starts, or one of them moves on. -/

section Tasks

variable {α : Type u} {xs : List α} {x y : α} {i k : Nat}

theorem get_snoc (h : (xs ++ [x])[k]? = some y) : xs[k]? = some y ∨ k = xs.length ∧ y = x := by
  rcases Nat.lt_or_ge k xs.length with hlt | hge
  · rw [List.getElem?_append_left hlt] at h
    exact .inl h
  · rw [List.getElem?_append_right hge] at h
    obtain ⟨hzero, heq⟩ := List.getElem?_eq_some_iff.mp h
    rw [List.length_singleton] at hzero
    refine .inr ⟨by omega, ?_⟩
    rw [← heq, List.getElem_singleton]

theorem get_replaced (h : (xs.set i x)[k]? = some y) : k = i ∧ y = x ∨ k ≠ i ∧ xs[k]? = some y := by
  by_cases hk : k = i
  · subst hk
    refine .inl ⟨rfl, ?_⟩
    obtain ⟨hlt, heq⟩ := List.getElem?_eq_some_iff.mp h
    rw [← heq, List.getElem_set_self]
  · rw [List.getElem?_set_ne (Ne.symm hk)] at h
    exact .inr ⟨hk, h⟩

end Tasks

end IntelNav.Transition
