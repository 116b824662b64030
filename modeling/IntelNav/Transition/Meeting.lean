import Mathlib.Data.List.Zip

/-! Two queues that serve each other, first come, first served: what one side brings meets what
waits on the other side, or waits itself. -/

set_option autoImplicit false
set_option relaxedAutoImplicit false

namespace IntelNav.Transition

universe u v

/-- What waits on either side, and the pairs that have met, in order. -/
structure Meeting (α : Type u) (β : Type v) where
  givers : List α
  takers : List β
  met : List (β × α)

namespace Meeting

variable {α : Type u} {β : Type v} {m : Meeting α β} {asked : List β} {given : List α}

def give (m : Meeting α β) (a : α) : Meeting α β :=
  match m.takers with
  | [] => { m with givers := m.givers ++ [a] }
  | b :: takers => { m with takers, met := m.met ++ [(b, a)] }

def take (m : Meeting α β) (b : β) : Meeting α β :=
  match m.givers with
  | [] => { m with takers := m.takers ++ [b] }
  | a :: givers => { m with givers, met := m.met ++ [(b, a)] }

def mirror (m : Meeting α β) : Meeting β α := ⟨m.takers, m.givers, m.met.map Prod.swap⟩

private theorem mirror_take (m : Meeting α β) (b : β) : (m.take b).mirror = m.mirror.give b := by
  obtain ⟨givers, takers, met⟩ := m
  cases givers with
  | nil => rfl
  | cons a givers =>
      simp only [take, mirror, give, List.map_append, List.map_cons, List.map_nil,
        Prod.swap_prod_mk]

/-- The n-th that asked met the n-th that was given, and the others wait. -/
structure Fair (asked : List β) (given : List α) (m : Meeting α β) : Prop where
  met : m.met = asked.zip given
  givers : m.givers = given.drop asked.length
  takers : m.takers = asked.drop given.length

theorem Fair.empty : Fair [] [] (⟨[], [], []⟩ : Meeting α β) := ⟨rfl, rfl, rfl⟩

private theorem Fair.mirror (h : Fair asked given m) : Fair given asked m.mirror where
  met := by
    change m.met.map Prod.swap = given.zip asked
    rw [h.met, List.zip_swap]
  givers := h.takers
  takers := h.givers

private theorem zip_append_right {l : List β} {r : List α} (h : l.length ≤ r.length) (s : List α) :
    l.zip (r ++ s) = l.zip r := by
  induction l generalizing r with
  | nil => rfl
  | cons b l ih =>
      cases r with
      | nil => cases h
      | cons a r =>
          have htail := ih (Nat.le_of_succ_le_succ h)
          rw [List.cons_append, List.zip_cons_cons, List.zip_cons_cons, htail]

theorem Fair.give (h : Fair asked given m) (a : α) : Fair asked (given ++ [a]) (m.give a) := by
  unfold Meeting.give
  split
  · rename_i hnone
    have hle : asked.length ≤ given.length := List.drop_eq_nil_iff.mp (h.takers.symm.trans hnone)
    refine ⟨?_, ?_, ?_⟩
    · rw [h.met, zip_append_right hle]
    · rw [h.givers, List.drop_append_of_le_length hle]
    · rw [hnone, eq_comm, List.drop_eq_nil_iff, List.length_append]
      exact Nat.le_add_right_of_le hle
  · rename_i b takers hsome
    -- The one who waits came after as many as were given.
    have hlong : given.length < asked.length := by
      by_contra hle
      have hnil := List.drop_eq_nil_iff.mpr (Nat.le_of_not_lt hle)
      rw [← h.takers, hsome] at hnil
      cases hnil
    have hsplit := List.take_append_drop given.length asked
    rw [← h.takers, hsome] at hsplit
    have hlen : (asked.take given.length).length = given.length :=
      List.length_take_of_le (Nat.le_of_lt hlong)
    have hzip (rest : List α) : asked.zip (given ++ rest) =
        (asked.take given.length).zip given ++ (b :: takers).zip rest := by
      rw [← List.zip_append hlen, hsplit]
    refine ⟨?_, ?_, ?_⟩
    · have hold := hzip []
      rw [List.append_nil, List.zip_nil_right, List.append_nil] at hold
      rw [h.met, hold, hzip [a], List.zip_cons_cons, List.zip_nil_right]
    · rw [h.givers, List.drop_of_length_le (Nat.le_of_lt hlong), eq_comm, List.drop_eq_nil_iff,
        List.length_append]
      exact hlong
    · rw [List.length_append, List.length_singleton, ← List.drop_drop, ← h.takers, hsome]
      rfl

theorem Fair.take (h : Fair asked given m) (b : β) : Fair (asked ++ [b]) given (m.take b) := by
  have hgive := h.mirror.give b
  rw [← mirror_take] at hgive
  have hback := hgive.mirror
  have hself : (m.take b).mirror.mirror = m.take b := by
    simp only [Meeting.mirror, List.map_map, Prod.swap_swap_eq, List.map_id]
  rwa [hself] at hback

end Meeting

end IntelNav.Transition
