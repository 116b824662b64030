import Mathlib.Algebra.BigOperators.Group.List.Basic
import Mathlib.Data.List.Basic
import Mathlib.Algebra.Order.Ring.Nat

/-! Pieces that cover an interval without gap or overlap, and images painted piece by piece. -/

set_option autoImplicit false
set_option relaxedAutoImplicit false

namespace IntelNav.Layout

universe u

/-- The pieces, each a start and a length, cover `[lo, hi)` one after the other. -/
def Tiles : Nat → List (Nat × Nat) → Nat → Prop
  | lo, [], hi => lo = hi
  | lo, (a, n) :: rest, hi => a = lo ∧ Tiles (lo + n) rest hi

namespace Tiles

theorem sum {lo hi : Nat} {pieces : List (Nat × Nat)} (h : Tiles lo pieces hi) :
    lo + (pieces.map Prod.snd).sum = hi := by
  induction pieces generalizing lo with
  | nil => exact h
  | cons piece rest ih =>
      obtain ⟨-, hrest⟩ := h
      have hsum := ih hrest
      rw [List.map_cons, List.sum_cons]
      omega

theorem within {lo hi : Nat} {pieces : List (Nat × Nat)} (h : Tiles lo pieces hi) {a n : Nat}
    (hmem : (a, n) ∈ pieces) : lo ≤ a ∧ a + n ≤ hi := by
  induction pieces generalizing lo with
  | nil => cases hmem
  | cons piece rest ih =>
      obtain ⟨hstart, hrest⟩ := h
      have hsum := hrest.sum
      rcases List.mem_cons.mp hmem with rfl | hmem
      · exact ⟨Nat.le_of_eq hstart.symm, by simp only at hstart hsum; omega⟩
      · have hin := ih hrest hmem
        omega

theorem covers {lo hi : Nat} {pieces : List (Nat × Nat)} (h : Tiles lo pieces hi) {p : Nat}
    (hlo : lo ≤ p) (hhi : p < hi) : ∃ a n, (a, n) ∈ pieces ∧ a ≤ p ∧ p < a + n := by
  induction pieces generalizing lo with
  | nil =>
      have heq : lo = hi := h
      omega
  | cons piece rest ih =>
      obtain ⟨a, n⟩ := piece
      obtain ⟨rfl, hrest⟩ := h
      by_cases hp : p < a + n
      · exact ⟨a, n, List.mem_cons_self, hlo, hp⟩
      · obtain ⟨b, m, hmem, hb⟩ := ih hrest (Nat.not_lt.mp hp)
        exact ⟨b, m, List.mem_cons_of_mem _ hmem, hb⟩

theorem disjoint {lo hi : Nat} {pieces : List (Nat × Nat)} (h : Tiles lo pieces hi) :
    pieces.Pairwise fun p q => p.1 + p.2 ≤ q.1 := by
  induction pieces generalizing lo with
  | nil => exact List.Pairwise.nil
  | cons piece rest ih =>
      obtain ⟨a, n⟩ := piece
      obtain ⟨rfl, hrest⟩ := h
      refine List.pairwise_cons.mpr ⟨?_, ih hrest⟩
      intro q hq
      exact (hrest.within hq).1

end Tiles

/-- The lengths from each start to the next, and from the last one to the end. -/
def cut (stop : Nat) : List Nat → List Nat
  | [] => []
  | [a] => [stop - a]
  | a :: b :: rest => (b - a) :: cut stop (b :: rest)

@[simp] theorem length_cut (stop : Nat) (starts : List Nat) :
    (cut stop starts).length = starts.length := by
  induction starts with
  | nil => rfl
  | cons a rest ih =>
      cases rest with
      | nil => rfl
      | cons b rest => rw [cut, List.length_cons, ih, List.length_cons (a := a)]

theorem tiles_cut {stop a : Nat} {rest : List Nat} (hsorted : (a :: rest).Pairwise (· ≤ ·))
    (hstop : ∀ b ∈ a :: rest, b ≤ stop) :
    Tiles a ((a :: rest).zip (cut stop (a :: rest))) stop := by
  induction rest generalizing a with
  | nil =>
      have ha := hstop a List.mem_cons_self
      exact ⟨rfl, Nat.add_sub_cancel' ha⟩
  | cons b rest ih =>
      have hab := List.rel_of_pairwise_cons hsorted List.mem_cons_self
      refine ⟨rfl, ?_⟩
      rw [Nat.add_sub_cancel' hab]
      exact ih hsorted.of_cons fun c hc => hstop c (List.mem_cons_of_mem _ hc)

section Paint

variable {α : Type u}

def paint (img : Nat → Option α) (offset : Nat) (bytes : List α) : Nat → Option α := fun p =>
  if offset ≤ p ∧ p < offset + bytes.length then bytes[p - offset]? else img p

def paintAll (img : Nat → Option α) (pieces : List (Nat × List α)) : Nat → Option α :=
  pieces.foldl (fun img piece => paint img piece.1 piece.2) img

/-- Where a piece of the original lies, the original shows, whatever was there before and whichever
order the pieces come in. -/
theorem paintAll_eq {source : List α} {pieces : List (Nat × List α)}
    (hpieces : ∀ piece ∈ pieces, piece.1 + piece.2.length ≤ source.length ∧
      piece.2 = (source.drop piece.1).take piece.2.length) {p : Nat}
    (hp : ∃ piece ∈ pieces, piece.1 ≤ p ∧ p < piece.1 + piece.2.length)
    (img : Nat → Option α) : paintAll img pieces p = source[p]? := by
  have hpaint : ∀ piece ∈ pieces, ∀ img : Nat → Option α,
      piece.1 ≤ p → p < piece.1 + piece.2.length → paint img piece.1 piece.2 p = source[p]? := by
    intro piece hmem img hlo hhi
    obtain ⟨-, hslice⟩ := hpieces piece hmem
    rw [paint, if_pos ⟨hlo, hhi⟩, hslice, List.getElem?_take_of_lt (by omega), List.getElem?_drop,
      Nat.add_sub_cancel' hlo]
  have hkeep : ∀ ps : List (Nat × List α), (∀ piece ∈ ps, piece ∈ pieces) →
      ∀ img : Nat → Option α, img p = source[p]? → paintAll img ps p = source[p]? := by
    intro ps hps
    induction ps with
    | nil => exact fun img h => h
    | cons piece ps ih =>
        intro img h
        refine ih (fun q hq => hps q (List.mem_cons_of_mem _ hq)) _ ?_
        change paint img piece.1 piece.2 p = source[p]?
        by_cases hin : piece.1 ≤ p ∧ p < piece.1 + piece.2.length
        · exact hpaint piece (hps piece List.mem_cons_self) img hin.1 hin.2
        · rw [paint, if_neg hin]
          exact h
  obtain ⟨piece, hmem, hlo, hhi⟩ := hp
  obtain ⟨before, after, rfl⟩ := List.append_of_mem hmem
  rw [paintAll, List.foldl_append, List.foldl_cons]
  refine hkeep after (fun q hq => ?_) _ (hpaint piece hmem _ hlo hhi)
  exact List.mem_append_right _ (List.mem_cons_of_mem _ hq)

end Paint

end IntelNav.Layout
