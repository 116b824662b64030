import Mathlib.Data.List.Basic
import Mathlib.Tactic.Common

/-! The words of a text, and the pieces that they are cut into. -/

set_option autoImplicit false
set_option relaxedAutoImplicit false

namespace IntelNav.Text

universe u

variable {α : Type u}

section Words

variable (isBlank : α → Bool)

def words (l : List α) : List (List α) := (l.splitOnP isBlank).filter fun w => !w.isEmpty

def letters (l : List α) : List α := l.filter fun a => !isBlank a

def Separated (l : List α) : Prop := l = [] ∨ ∃ m a, isBlank a = true ∧ l = m ++ [a]

variable {isBlank}

theorem words_nil : words isBlank [] = [] := by simp [words, List.splitOnP_nil]

private theorem words_append_blank {a : α} (h : isBlank a = true) (l m : List α) :
    words isBlank (l ++ a :: m) = words isBlank l ++ words isBlank m := by
  simp only [words]
  rw [List.splitOnP_append_cons l m h, List.filter_append]

theorem words_blank {a : α} (h : isBlank a = true) (l : List α) :
    words isBlank (l ++ [a]) = words isBlank l := by
  rw [words_append_blank h, words_nil, List.append_nil]

theorem Separated.words_append {l : List α} (h : Separated isBlank l) (m : List α) :
    words isBlank (l ++ m) = words isBlank l ++ words isBlank m := by
  rcases h with rfl | ⟨l, a, ha, rfl⟩
  · rw [words_nil, List.nil_append, List.nil_append]
  · rw [List.append_assoc, List.singleton_append, words_append_blank ha, words_blank ha]

theorem words_of_letters {w : List α} (h : ∀ a ∈ w, isBlank a = false) :
    words isBlank w = [w].filter fun w => !w.isEmpty := by
  rw [words, List.splitOnP_eq_singleton h]

theorem letters_append (l m : List α) :
    letters isBlank (l ++ m) = letters isBlank l ++ letters isBlank m :=
  List.filter_append l m

theorem letters_blank {a : α} (h : isBlank a = true) (l : List α) :
    letters isBlank (l ++ [a]) = letters isBlank l := by
  rw [letters_append]
  simp [letters, h]

end Words

/-- The pieces make up the words: each word is a row of pieces, so that no piece reaches from one
word into the next. -/
def Cut (pieces ws : List (List α)) : Prop :=
  ∃ groups : List (List (List α)), groups.flatten = pieces ∧ groups.map List.flatten = ws

theorem Cut.nil : Cut ([] : List (List α)) [] := ⟨[], rfl, rfl⟩

theorem Cut.append {p q v w : List (List α)} (h : Cut p v) (h' : Cut q w) :
    Cut (p ++ q) (v ++ w) := by
  obtain ⟨gs, rfl, rfl⟩ := h
  obtain ⟨hs, rfl, rfl⟩ := h'
  exact ⟨gs ++ hs, List.flatten_append, List.map_append⟩

theorem Cut.word (pieces : List (List α)) : Cut pieces [pieces.flatten] :=
  ⟨[pieces], by simp, rfl⟩

end IntelNav.Text
