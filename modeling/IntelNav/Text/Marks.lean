import Mathlib.Data.Nat.Digits.Defs
import Mathlib.Tactic.Common

/-! Texts with separators in them: where a field begins and ends. -/

set_option autoImplicit false
set_option relaxedAutoImplicit false

namespace IntelNav.Text

universe u

variable {α : Type u}

theorem split_at_last {x : α} {front front' back back' : List α} (hback : x ∉ back)
    (hback' : x ∉ back') (h : front ++ x :: back = front' ++ x :: back') :
    front = front' ∧ back = back' := by
  rcases List.append_eq_append_iff.mp h with ⟨mid, hfront, hrest⟩ | ⟨mid, hfront, hrest⟩
  · cases mid with
    | nil => exact ⟨by simpa using hfront.symm, by simpa using hrest⟩
    | cons y mid =>
        obtain ⟨-, rfl⟩ := List.cons.inj hrest
        exact absurd (by simp) hback
  · cases mid with
    | nil => exact ⟨by simpa using hfront, by simpa using hrest.symm⟩
    | cons y mid =>
        obtain ⟨-, rfl⟩ := List.cons.inj hrest
        exact absurd (by simp) hback'

/-- A mark whose first letter is not in the rest of it begins nowhere in itself. -/
def Mark (mark : List α) : Prop := ∃ x rest, mark = x :: rest ∧ x ∉ rest

theorem Mark.eq_nil {mark mid rest rest' : List α} (hmark : Mark mark) (hmid : ¬mark <:+: mid)
    (h : mark ++ rest = mid ++ (mark ++ rest')) : mid = [] := by
  obtain ⟨x, tail, rfl, hx⟩ := hmark
  rcases List.append_eq_append_iff.mp h with ⟨more, hfront, -⟩ | ⟨more, hfront, hrest⟩
  · exact absurd ⟨[], more, by rw [List.nil_append, hfront]⟩ hmid
  · cases mid with
    | nil => rfl
    | cons y mid =>
        obtain ⟨rfl, rfl⟩ := List.cons.inj hfront
        cases more with
        | nil => exact absurd ⟨[], [], by simp⟩ hmid
        | cons z more =>
            -- the mark would begin again in itself
            obtain ⟨rfl, -⟩ := List.cons.inj hrest
            exact absurd (List.mem_append_right _ List.mem_cons_self) hx

theorem Mark.split {mark text text' rest rest' : List α} (hmark : Mark mark)
    (htext : ¬mark <:+: text) (htext' : ¬mark <:+: text')
    (h : text ++ (mark ++ rest) = text' ++ (mark ++ rest')) : text = text' ∧ rest = rest' := by
  rcases List.append_eq_append_iff.mp h with ⟨mid, hfront, hrest⟩ | ⟨mid, hfront, hrest⟩
  · obtain rfl := hmark.eq_nil
      (fun hmid => htext' (hmid.trans ⟨text, [], by rw [hfront, List.append_nil]⟩)) hrest
    exact ⟨by simpa using hfront.symm, by simpa using hrest⟩
  · obtain rfl := hmark.eq_nil
      (fun hmid => htext (hmid.trans ⟨text', [], by rw [hfront, List.append_nil]⟩)) hrest
    exact ⟨by simpa using hfront, by simpa using hrest.symm⟩

end IntelNav.Text
