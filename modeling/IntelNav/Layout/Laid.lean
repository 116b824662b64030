import IntelNav.Layout.Tiles

/-! Pieces laid one after the other, each found at its start. -/

set_option autoImplicit false
set_option relaxedAutoImplicit false

namespace IntelNav.Layout

def starts (cursor : Nat) : List Nat → List Nat
  | [] => []
  | n :: ns => cursor :: starts (cursor + n) ns

@[simp] theorem length_starts (cursor : Nat) (ns : List Nat) :
    (starts cursor ns).length = ns.length := by
  induction ns generalizing cursor with
  | nil => rfl
  | cons n ns ih => rw [starts, List.length_cons, List.length_cons, ih]

private theorem tiles_starts (cursor : Nat) (ns : List Nat) :
    Tiles cursor ((starts cursor ns).zip ns) (cursor + ns.sum) := by
  induction ns generalizing cursor with
  | nil => rfl
  | cons n ns ih =>
      refine ⟨rfl, ?_⟩
      have hrest := ih (cursor + n)
      rwa [Nat.add_assoc, ← List.sum_cons] at hrest

theorem starts_within {cursor a : Nat} {ns : List Nat} (h : a ∈ starts cursor ns) :
    cursor ≤ a ∧ a ≤ cursor + ns.sum := by
  rw [← List.map_fst_zip (length_starts cursor ns).le] at h
  obtain ⟨⟨b, n⟩, hmem, rfl⟩ := List.mem_map.mp h
  have hin := (tiles_starts cursor ns).within hmem
  dsimp only
  omega

theorem starts_ascend (cursor : Nat) (ns : List Nat) :
    (starts cursor ns).Pairwise (· ≤ ·) := by
  induction ns generalizing cursor with
  | nil => exact List.Pairwise.nil
  | cons n ns ih =>
      refine List.pairwise_cons.mpr ⟨?_, ih _⟩
      intro a ha
      have hle := (starts_within ha).1
      omega

theorem cut_starts (cursor : Nat) (ns : List Nat) :
    cut (cursor + ns.sum) (starts cursor ns) = ns := by
  induction ns generalizing cursor with
  | nil => rfl
  | cons n ns ih =>
      have hrest := ih (cursor + n)
      rw [Nat.add_assoc, ← List.sum_cons] at hrest
      cases ns with
      | nil =>
          rw [starts, starts, cut, List.sum_cons, List.sum_nil, Nat.add_zero,
            Nat.add_sub_cancel_left]
      | cons k ns =>
          rw [starts, starts, cut, Nat.add_sub_cancel_left]
          rw [starts] at hrest
          rw [hrest]

end IntelNav.Layout
