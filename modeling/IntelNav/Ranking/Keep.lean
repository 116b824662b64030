import Mathlib.Data.List.MinMax

/-! Passing over candidates and keeping the better one, as the least by a rank. -/

set_option autoImplicit false
set_option relaxedAutoImplicit false

namespace IntelNav.Ranking

variable {α β : Type}

def keep (better : α → α → Bool) (best : Option α) (candidate : α) : Option α :=
  some (match best with
    | none => candidate
    | some prev => if better prev candidate then candidate else prev)

variable {better : α → α → Bool}

theorem foldl_keep [LinearOrder β] {rank : α → β} {l : List α}
    (h : ∀ x ∈ l, ∀ y ∈ l, better x y = true ↔ rank y < rank x) :
    l.foldl (keep better) none = l.argmin rank := by
  induction l using List.reverseRecOn with
  | nil => rfl
  | append_singleton l a ih =>
      have hbefore : l.foldl (keep better) none = l.argmin rank := by
        apply ih
        intro x hx y hy
        exact h x (List.mem_append_left _ hx) y (List.mem_append_left _ hy)
      rw [List.foldl_append, List.foldl_cons, List.foldl_nil, hbefore, List.argmin_concat]
      cases hleast : l.argmin rank with
      | none => rfl
      | some c =>
          have hc : c ∈ l := List.argmin_mem hleast
          have hiff :=
            h c (List.mem_append_left _ hc) a (List.mem_append_right _ List.mem_cons_self)
          by_cases hlt : rank a < rank c
          · simp only [keep, hiff.mpr hlt, hlt, if_true]
          · simp only [keep, Bool.eq_false_iff.mpr (mt hiff.mp hlt), hlt, if_false,
              Bool.false_eq_true]

theorem mem_of_foldl_keep {l : List α} {best : Option α} {s : α}
    (h : l.foldl (keep better) best = some s) : s ∈ l ∨ best = some s := by
  induction l generalizing best with
  | nil => exact .inr h
  | cons c l ih =>
      rcases ih h with hmem | hkept
      · exact .inl (List.mem_cons_of_mem _ hmem)
      · cases best with
        | none =>
            obtain rfl := Option.some.inj hkept
            exact .inl List.mem_cons_self
        | some p =>
            unfold keep at hkept
            dsimp only at hkept
            split_ifs at hkept
            · obtain rfl := Option.some.inj hkept
              exact .inl List.mem_cons_self
            · exact .inr hkept

theorem foldl_keep_alike {c : α} {cs : List α} (halike : ∀ x ∈ cs, ∀ p, better p x = better p c)
    (hself : better c c = false) (best : Option α) :
    (c :: cs).foldl (keep better) best = keep better best c := by
  have hstays : ∀ p, better p c = false → cs.foldl (keep better) (some p) = some p := by
    intro p hp
    clear hself
    induction cs with
    | nil => rfl
    | cons x cs ih =>
        have hx : keep better (some p) x = some p := by
          simp only [keep, halike x List.mem_cons_self, hp, Bool.false_eq_true, if_false]
        rw [List.foldl_cons, hx]
        exact ih fun y hy => halike y (List.mem_cons_of_mem _ hy)
  rw [List.foldl_cons]
  cases best with
  | none => exact hstays c hself
  | some p =>
      cases hp : better p c with
      | true =>
          have hc : keep better (some p) c = some c := by simp only [keep, hp, if_true]
          rw [hc]
          exact hstays c hself
      | false =>
          have hkept : keep better (some p) c = some p := by
            simp only [keep, hp, Bool.false_eq_true, if_false]
          rw [hkept]
          exact hstays p hp

end IntelNav.Ranking
