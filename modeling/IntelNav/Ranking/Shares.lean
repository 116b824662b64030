import Mathlib.Algebra.Order.BigOperators.Group.List
import Mathlib.Algebra.Order.Field.Basic
import Mathlib.Data.Set.Defs
import Mathlib.Order.Interval.Set.Defs
import Mathlib.Tactic.Linarith

/-! Weighted keys: the heaviest ones that have a given mass together, and the key that a draw
falls on. -/

set_option autoImplicit false
set_option relaxedAutoImplicit false

namespace IntelNav.Ranking

variable {Key K : Type} [Field K]

def mass (weight : Key → K) (keys : List Key) : K := (keys.map weight).sum

section Mass

variable (weight : Key → K)

@[simp] theorem mass_nil : mass weight [] = 0 := rfl

@[simp] theorem mass_cons (k : Key) (keys : List Key) :
    mass weight (k :: keys) = weight k + mass weight keys := by
  simp [mass]

private theorem mass_perm {keys keys' : List Key} (h : keys.Perm keys') :
    mass weight keys = mass weight keys' := (h.map weight).sum_eq

theorem mass_map {Key' : Type} (f : Key' → Key) (keys : List Key') :
    mass weight (keys.map f) = mass (weight ∘ f) keys := by
  rw [mass, List.map_map, mass]

def massBefore [DecidableEq Key] (weight : Key → K) (keys : List Key) (k : Key) : K :=
  mass weight (keys.takeWhile (· ≠ k))

private theorem massBefore_cons_self [DecidableEq Key] (keys : List Key) (k : Key) :
    massBefore weight (k :: keys) k = 0 := by
  simp [massBefore]

private theorem massBefore_cons_of_ne [DecidableEq Key] {k a : Key} (h : a ≠ k) (keys : List Key) :
    massBefore weight (a :: keys) k = weight a + massBefore weight keys k := by
  simp [massBefore, h]

variable {weight} [LinearOrder K] [IsStrictOrderedRing K]

private theorem mass_nonneg (h0 : ∀ k, 0 ≤ weight k) (keys : List Key) : 0 ≤ mass weight keys := by
  induction keys with
  | nil => simp
  | cons k keys ih =>
      rw [mass_cons]
      exact add_nonneg (h0 k) ih

private theorem mass_le_of_sublist (h0 : ∀ k, 0 ≤ weight k) {keys keys' : List Key}
    (h : keys.Sublist keys') : mass weight keys ≤ mass weight keys' := by
  induction h with
  | slnil => exact le_refl _
  | cons k _ ih =>
      rw [mass_cons]
      linarith [h0 k]
  | cons_cons k _ ih =>
      rw [mass_cons, mass_cons]
      linarith

end Mass

variable [LinearOrder K]

/-- The length of the first prefix whose mass, from `acc` on, reaches the goal. -/
def reach (weight : Key → K) (goal : K) : K → List Key → Nat
  | _, [] => 0
  | acc, k :: keys =>
      if goal ≤ acc + weight k then 1 else reach weight goal (acc + weight k) keys + 1

/-- The first key at which the mass, from `acc` on, passes `r`. -/
def walk (weight : Key → K) (r : K) : K → List Key → Option Key
  | _, [] => none
  | acc, k :: keys => if r < acc + weight k then some k else walk weight r (acc + weight k) keys

theorem reach_map {Key' : Type} (weight : Key → K) (goal acc : K) (f : Key' → Key)
    (keys : List Key') :
    reach weight goal acc (keys.map f) = reach (weight ∘ f) goal acc keys := by
  induction keys generalizing acc with
  | nil => rfl
  | cons k keys ih =>
      rw [List.map_cons, reach, reach, ih]
      rfl

theorem walk_map {Key' : Type} (weight : Key → K) (r acc : K) (f : Key' → Key)
    (keys : List Key') :
    walk weight r acc (keys.map f) = (walk (weight ∘ f) r acc keys).map f := by
  induction keys generalizing acc with
  | nil => rfl
  | cons k keys ih =>
      rw [List.map_cons, walk, walk, ih]
      rw [apply_ite (Option.map f)]
      rfl

/-- `kept` is a smallest prefix of the keys, heaviest first, whose mass reaches the goal, and all
of them where none does. -/
def IsNucleus (weight : Key → K) (goal : K) (keys kept : List Key) : Prop :=
  ∃ order : List Key, order.Perm keys ∧ (order.Pairwise fun a b => weight b ≤ weight a) ∧
    ∃ n, kept = order.take n ∧ (∀ m < n, mass weight (order.take m) < goal) ∧
      (goal ≤ mass weight kept ∨ kept = order)

section Reach

variable (weight : Key → K) (goal : K)

private theorem mass_take_lt_of_lt_reach (acc : K) (hacc : acc < goal) (keys : List Key) :
    ∀ m < reach weight goal acc keys, acc + mass weight (keys.take m) < goal := by
  induction keys generalizing acc with
  | nil =>
      intro m hm
      simp [reach] at hm
  | cons k keys ih =>
      intro m hm
      cases m with
      | zero => simpa using hacc
      | succ m =>
          unfold reach at hm
          split at hm
          · omega
          · rename_i hlt
            have hrest := ih (acc + weight k) (not_le.mp hlt) m (by omega)
            rw [List.take_succ_cons, mass_cons, ← add_assoc]
            exact hrest

private theorem le_mass_take_reach (acc : K) (keys : List Key) :
    goal ≤ acc + mass weight (keys.take (reach weight goal acc keys)) ∨
      keys.take (reach weight goal acc keys) = keys := by
  induction keys generalizing acc with
  | nil => exact .inr (List.take_nil ..)
  | cons k keys ih =>
      unfold reach
      split
      · rename_i hle
        exact .inl (by simpa using hle)
      · rw [List.take_succ_cons, mass_cons, ← add_assoc]
        rcases ih (acc + weight k) with hle | hall
        · exact .inl hle
        · exact .inr (by rw [hall])

theorem isNucleus_take_reach (hgoal : 0 < goal) {keys order : List Key} (hperm : order.Perm keys)
    (hsorted : order.Pairwise fun a b => weight b ≤ weight a) :
    IsNucleus weight goal keys (order.take (reach weight goal 0 order)) := by
  refine ⟨order, hperm, hsorted, reach weight goal 0 order, rfl, ?_, ?_⟩
  · intro m hm
    simpa using mass_take_lt_of_lt_reach weight goal 0 hgoal order m hm
  · simpa using le_mass_take_reach weight goal 0 order

variable {weight goal} {keys kept : List Key}

theorem IsNucleus.mass_pos (hgoal : 0 < goal) (htotal : 0 < mass weight keys)
    (h : IsNucleus weight goal keys kept) : 0 < mass weight kept := by
  obtain ⟨order, hperm, _, n, hkept, _, hreach⟩ := h
  rcases hreach with hle | hall
  · exact lt_of_lt_of_le hgoal hle
  · rw [hall, mass_perm weight hperm]
    exact htotal

theorem IsNucleus.mass_heavier_lt [IsStrictOrderedRing K] (h0 : ∀ k, 0 ≤ weight k)
    (h : IsNucleus weight goal keys kept)
    {k : Key} (hk : k ∈ kept) : mass weight (keys.filter (weight k < weight ·)) < goal := by
  obtain ⟨order, hperm, hsorted, n, hkept, hbelow, _⟩ := h
  obtain ⟨pre, post, hsplit⟩ := List.append_of_mem hk
  have horder : order = pre ++ k :: (post ++ order.drop n) := by
    have htake : order.take n ++ order.drop n = order := List.take_append_drop n order
    rw [← hkept, hsplit, List.append_assoc, List.cons_append] at htake
    exact htake.symm
  have hshort : pre.length < n := by
    have hlen : kept.length ≤ n := by
      rw [hkept]
      exact List.length_take_le n order
    rw [hsplit] at hlen
    simp only [List.length_append, List.length_cons] at hlen
    omega
  have hpre : mass weight pre < goal := by
    have hlt := hbelow pre.length hshort
    rwa [horder, List.take_left] at hlt
  -- Nothing from `k` on is heavier than `k`.
  have hlate : (k :: (post ++ order.drop n)).filter (weight k < weight ·) = [] := by
    rw [List.filter_eq_nil_iff]
    intro a ha
    rw [horder] at hsorted
    have htail := (List.pairwise_append.mp hsorted).2.1
    rcases List.mem_cons.mp ha with rfl | hin
    · simp
    · simpa using (List.pairwise_cons.mp htail).1 a hin
  have hfilter : order.filter (weight k < weight ·) = pre.filter (weight k < weight ·) := by
    conv_lhs => rw [horder]
    rw [List.filter_append, hlate, List.append_nil]
  have hmass : mass weight (keys.filter (weight k < weight ·)) =
      mass weight (pre.filter (weight k < weight ·)) := by
    rw [← hfilter]
    exact mass_perm weight (hperm.symm.filter _)
  rw [hmass]
  exact lt_of_le_of_lt (mass_le_of_sublist h0 List.filter_sublist) hpre

end Reach

section Walk

variable {weight : Key → K}

theorem mem_of_walk {r acc : K} {keys : List Key} {k : Key}
    (h : walk weight r acc keys = some k) : k ∈ keys := by
  induction keys generalizing acc with
  | nil => cases h
  | cons a keys ih =>
      unfold walk at h
      split at h
      · rw [Option.some.inj h]
        exact List.mem_cons_self
      · exact List.mem_cons_of_mem a (ih h)

theorem exists_walk {r acc : K} (keys : List Key) (hr : r < acc + mass weight keys)
    (hacc : acc ≤ r) : ∃ k, walk weight r acc keys = some k := by
  induction keys generalizing acc with
  | nil =>
      rw [mass_nil, add_zero] at hr
      exact absurd hacc (not_le.mpr hr)
  | cons a keys ih =>
      unfold walk
      split
      · exact ⟨a, rfl⟩
      · rename_i hpast
        rw [mass_cons, ← add_assoc] at hr
        exact ih hr (not_lt.mp hpast)

variable [DecidableEq Key] [IsStrictOrderedRing K]

private theorem massBefore_nonneg (h0 : ∀ k, 0 ≤ weight k) (keys : List Key) (k : Key) :
    0 ≤ massBefore weight keys k := mass_nonneg h0 _

private theorem massBefore_add_le (h0 : ∀ k, 0 ≤ weight k) {keys : List Key} {k : Key}
    (hk : k ∈ keys) :
    massBefore weight keys k + weight k ≤ mass weight keys := by
  induction keys with
  | nil => cases hk
  | cons a keys ih =>
      by_cases hak : a = k
      · rw [hak, massBefore_cons_self, mass_cons]
        linarith [mass_nonneg h0 keys]
      · have hin : k ∈ keys := (List.mem_cons.mp hk).resolve_left fun h => hak h.symm
        rw [massBefore_cons_of_ne weight hak, mass_cons]
        linarith [ih hin]

/-- The draws that fall on a key are those between the masses before and after it. -/
private theorem walk_eq_some_iff (h0 : ∀ k, 0 ≤ weight k) {r acc : K} {keys : List Key}
    (hnodup : keys.Nodup) (hacc : acc ≤ r) {k : Key} (hk : k ∈ keys) :
    walk weight r acc keys = some k ↔
      acc + massBefore weight keys k ≤ r ∧ r < acc + massBefore weight keys k + weight k := by
  induction keys generalizing acc with
  | nil => cases hk
  | cons a keys ih =>
      have hnotin : a ∉ keys := (List.nodup_cons.mp hnodup).1
      unfold walk
      by_cases hak : a = k
      · subst hak
        rw [massBefore_cons_self, add_zero]
        constructor
        · intro h
          split at h
          · exact ⟨hacc, ‹_›⟩
          · exact absurd (mem_of_walk h) hnotin
        · intro h
          rw [if_pos h.2]
      · have hin : k ∈ keys := (List.mem_cons.mp hk).resolve_left fun h => hak h.symm
        rw [massBefore_cons_of_ne weight hak, ← add_assoc]
        split
        · rename_i hlt
          constructor
          · intro h
            exact absurd (Option.some.inj h) hak
          · intro h
            have hbefore := massBefore_nonneg h0 keys k
            linarith [h.1]
        · rename_i hpast
          exact ih (List.nodup_cons.mp hnodup).2 (not_lt.mp hpast) hin

/-- The part of the unit interval that is a key's: as long as its part of the mass. -/
def share (weight : Key → K) (keys : List Key) (k : Key) : Set K :=
  let start := massBefore weight keys k / mass weight keys
  Set.Ico start (start + weight k / mass weight keys)

theorem weight_pos_of_mem_share {keys : List Key} {k : Key} (hmass : 0 < mass weight keys) {u : K}
    (hu : u ∈ share weight keys k) : 0 < weight k := by
  have hlong : 0 < weight k / mass weight keys := by
    have hstart := hu.1
    have hstop := hu.2
    linarith
  exact (div_pos_iff_of_pos_right hmass).mp hlong

theorem share_subset_unit (h0 : ∀ k, 0 ≤ weight k) {keys : List Key} {k : Key} (hk : k ∈ keys)
    (hmass : 0 < mass weight keys) : share weight keys k ⊆ Set.Ico 0 1 := by
  intro u hu
  have hstart : 0 ≤ massBefore weight keys k / mass weight keys :=
    div_nonneg (massBefore_nonneg h0 keys k) hmass.le
  have hstop : massBefore weight keys k / mass weight keys + weight k / mass weight keys ≤ 1 := by
    rw [← add_div, div_le_one hmass]
    exact massBefore_add_le h0 hk
  exact ⟨le_trans hstart hu.1, lt_of_lt_of_le hu.2 hstop⟩

theorem walk_draw_eq_some_iff (h0 : ∀ k, 0 ≤ weight k) {keys : List Key} (hnodup : keys.Nodup)
    (hmass : 0 < mass weight keys) {u : K} (hu : 0 ≤ u) {k : Key} (hk : k ∈ keys) :
    walk weight (u * mass weight keys) 0 keys = some k ↔ u ∈ share weight keys k := by
  have hr : 0 ≤ u * mass weight keys := mul_nonneg hu hmass.le
  rw [walk_eq_some_iff h0 hnodup hr hk, zero_add, share, ← add_div, Set.mem_Ico,
    div_le_iff₀ hmass, lt_div_iff₀ hmass]

end Walk

end IntelNav.Ranking
