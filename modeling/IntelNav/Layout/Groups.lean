import Mathlib.Order.Defs.LinearOrder
import Mathlib.Data.List.Basic
import Mathlib.Algebra.Order.Ring.Nat

/-! Items grouped by a key, in an ordered map from keys to lists. -/

set_option autoImplicit false
set_option relaxedAutoImplicit false

namespace IntelNav.Layout

universe u v

variable {κ : Type u} {ι : Type v} [LinearOrder κ]

def push (k : κ) (i : ι) : List (κ × List ι) → List (κ × List ι)
  | [] => [(k, [i])]
  | (k', is) :: rest =>
      if k < k' then (k, [i]) :: (k', is) :: rest
      else if k = k' then (k', is ++ [i]) :: rest
      else (k', is) :: push k i rest

def groups (f : ι → κ) (items : List ι) : List (κ × List ι) :=
  items.foldl (fun g i => push (f i) i g) []

/-- The keys ascend, and each key has the items of it, in their order. -/
structure Grouped (f : ι → κ) (items : List ι) (g : List (κ × List ι)) : Prop where
  ascending : (g.map Prod.fst).Pairwise (· < ·)
  items_eq : ∀ k is, (k, is) ∈ g → is = items.filter (f · = k)
  nonempty : ∀ k is, (k, is) ∈ g → is ≠ []
  all : ∀ i ∈ items, f i ∈ g.map Prod.fst

private theorem keys_push (k : κ) (i : ι) (g : List (κ × List ι)) (j : κ) :
    j ∈ (push k i g).map Prod.fst ↔ j = k ∨ j ∈ g.map Prod.fst := by
  induction g with
  | nil => simp [push]
  | cons group rest ih =>
      obtain ⟨k', is⟩ := group
      rw [push]
      split
      · simp
      · split
        · rename_i heq
          subst heq
          simp
        · simp only [List.map_cons, List.mem_cons, ih]
          tauto

private theorem ascending_push {k : κ} {i : ι} {g : List (κ × List ι)}
    (hg : (g.map Prod.fst).Pairwise (· < ·)) : ((push k i g).map Prod.fst).Pairwise (· < ·) := by
  induction g with
  | nil => exact List.pairwise_singleton _ _
  | cons group rest ih =>
      obtain ⟨k', is⟩ := group
      obtain ⟨hhead, hrest⟩ := List.pairwise_cons.mp hg
      rw [push]
      split
      · rename_i hlt
        refine List.pairwise_cons.mpr ⟨?_, hg⟩
        intro j hj
        rcases List.mem_cons.mp hj with rfl | hj
        · exact hlt
        · exact lt_trans hlt (hhead j hj)
      · split
        · exact hg
        · rename_i hnlt hne
          refine List.pairwise_cons.mpr ⟨?_, ih hrest⟩
          intro j hj
          rcases (keys_push k i rest j).mp hj with rfl | hj
          · exact lt_of_le_of_ne (not_lt.mp hnlt) (Ne.symm hne)
          · exact hhead j hj

/-- What the groups hold after the item came: the others as before, that of its key with it. -/
private theorem mem_push {k : κ} {i : ι} {g : List (κ × List ι)}
    (hg : (g.map Prod.fst).Pairwise (· < ·)) {j : κ} {js : List ι} (h : (j, js) ∈ push k i g) :
    j ≠ k ∧ (j, js) ∈ g ∨
      j = k ∧ ((∃ is, (k, is) ∈ g ∧ js = is ++ [i]) ∨ k ∉ g.map Prod.fst ∧ js = [i]) := by
  induction g with
  | nil =>
      obtain ⟨rfl, rfl⟩ := Prod.mk.inj (List.mem_singleton.mp h)
      exact .inr ⟨rfl, .inr ⟨List.not_mem_nil, rfl⟩⟩
  | cons group rest ih =>
      obtain ⟨k', is⟩ := group
      obtain ⟨hhead, hrest⟩ := List.pairwise_cons.mp hg
      rw [push] at h
      split at h
      · rename_i hlt
        have hfresh : k ∉ ((k', is) :: rest).map Prod.fst := by
          intro hmem
          rcases List.mem_cons.mp hmem with rfl | hmem
          · exact lt_irrefl _ hlt
          · exact lt_asymm hlt (hhead k hmem)
        rcases List.mem_cons.mp h with heq | hmem
        · obtain ⟨rfl, rfl⟩ := Prod.mk.inj heq
          exact .inr ⟨rfl, .inr ⟨hfresh, rfl⟩⟩
        · refine .inl ⟨?_, hmem⟩
          rintro rfl
          exact hfresh (List.mem_map.mpr ⟨_, hmem, rfl⟩)
      · split at h
        · rename_i heq
          subst heq
          rcases List.mem_cons.mp h with heq | hmem
          · obtain ⟨rfl, rfl⟩ := Prod.mk.inj heq
            exact .inr ⟨rfl, .inl ⟨is, List.mem_cons_self, rfl⟩⟩
          · refine .inl ⟨?_, List.mem_cons_of_mem _ hmem⟩
            rintro rfl
            exact lt_irrefl _ (hhead j (List.mem_map.mpr ⟨_, hmem, rfl⟩))
        · rename_i hnlt hne
          rcases List.mem_cons.mp h with heq | hmem
          · obtain ⟨rfl, rfl⟩ := Prod.mk.inj heq
            exact .inl ⟨Ne.symm hne, List.mem_cons_self⟩
          · rcases ih hrest hmem with ⟨hj, hold⟩ | ⟨rfl, ⟨is', hold, rfl⟩ | ⟨hnot, rfl⟩⟩
            · exact .inl ⟨hj, List.mem_cons_of_mem _ hold⟩
            · exact .inr ⟨rfl, .inl ⟨is', List.mem_cons_of_mem _ hold, rfl⟩⟩
            · refine .inr ⟨rfl, .inr ⟨?_, rfl⟩⟩
              intro hmem
              rcases List.mem_cons.mp hmem with heq | hmem
              · exact hne heq
              · exact hnot hmem

theorem Grouped.push {f : ι → κ} {items : List ι} {g : List (κ × List ι)}
    (h : Grouped f items g) (i : ι) : Grouped f (items ++ [i]) (push (f i) i g) where
  ascending := ascending_push h.ascending
  items_eq k is hmem := by
    rw [List.filter_append]
    rcases mem_push h.ascending hmem with ⟨hne, hold⟩ | ⟨rfl, ⟨is', hold, rfl⟩ | ⟨hnot, rfl⟩⟩
    · rw [h.items_eq k is hold]
      simp [Ne.symm hne]
    · rw [h.items_eq _ is' hold]
      simp
    · have hnone : items.filter (f · = f i) = [] := by
        refine List.filter_eq_nil_iff.mpr fun j hj => ?_
        have hkey := h.all j hj
        simp only [decide_eq_true_eq]
        intro heq
        exact hnot (heq ▸ hkey)
      simp [hnone]
  nonempty k is hmem := by
    rcases mem_push h.ascending hmem with ⟨-, hold⟩ | ⟨-, ⟨is', -, rfl⟩ | ⟨-, rfl⟩⟩
    · exact h.nonempty k is hold
    · simp
    · simp
  all j hj := by
    rw [keys_push]
    rcases List.mem_append.mp hj with hj | hj
    · exact .inr (h.all j hj)
    · exact .inl (congrArg f (List.mem_singleton.mp hj))

theorem grouped_groups (f : ι → κ) (items : List ι) : Grouped f items (groups f items) := by
  have hfold : ∀ (rest done : List ι) (g : List (κ × List ι)), Grouped f done g →
      Grouped f (done ++ rest) (rest.foldl (fun g i => Layout.push (f i) i g) g) := by
    intro rest
    induction rest with
    | nil => exact fun done g h => by simpa using h
    | cons i rest ih =>
        intro done g h
        have hnext := ih (done ++ [i]) _ (h.push i)
        rwa [List.append_assoc] at hnext
  have hnil : Grouped f [] ([] : List (κ × List ι)) := ⟨.nil, nofun, nofun, nofun⟩
  exact hfold items [] [] hnil

private theorem perm_push (k : κ) (i : ι) (g : List (κ × List ι)) :
    ((push k i g).flatMap Prod.snd).Perm (g.flatMap Prod.snd ++ [i]) := by
  induction g with
  | nil => exact .refl _
  | cons p g ih =>
      obtain ⟨k', is⟩ := p
      rw [push]
      split_ifs
      · exact List.perm_append_comm
      · simp only [List.flatMap_cons, List.append_assoc]
        exact List.perm_append_comm.append_left is
      · simp only [List.flatMap_cons, List.append_assoc]
        exact ih.append_left is

private theorem perm_groups (f : ι → κ) (items : List ι) :
    ((groups f items).flatMap Prod.snd).Perm items := by
  have hfold : ∀ (rest : List ι) (g : List (κ × List ι)),
      ((rest.foldl (fun g i => push (f i) i g) g).flatMap Prod.snd).Perm
        (g.flatMap Prod.snd ++ rest) := by
    intro rest
    induction rest with
    | nil =>
        intro g
        rw [List.append_nil]
        exact .refl _
    | cons i rest ih =>
        intro g
        have hpush := (perm_push (f i) i g).append_right rest
        rw [List.append_assoc] at hpush
        exact (ih _).trans hpush
  exact hfold items []

theorem sum_groups (f : ι → κ) (amount : ι → Nat) (items : List ι) :
    ((groups f items).map fun p => (p.2.map amount).sum).sum = (items.map amount).sum := by
  have hsum := ((perm_groups f items).map amount).sum_nat
  rwa [List.map_flatMap, List.flatMap_def, List.sum_flatten, List.map_map] at hsum

theorem sum_length_groups (f : ι → κ) (items : List ι) :
    ((groups f items).map fun p => p.2.length).sum = items.length := by
  simpa using sum_groups f (fun _ => 1) items

theorem perm_of_keys {γ : Type u} [DecidableEq γ] (f : ι → γ) (items : List ι) {keys : List γ}
    (hnodup : keys.Nodup) :
    (keys.flatMap fun k => items.filter (f · = k)).Perm (items.filter (f · ∈ keys)) := by
  induction keys with
  | nil => simp
  | cons k keys ih =>
      obtain ⟨hfresh, hrest⟩ := List.nodup_cons.mp hnodup
      have hof : (items.filter (f · ∈ k :: keys)).filter (f · = k) = items.filter (f · = k) := by
        rw [List.filter_filter]
        apply List.filter_congr
        intro i _
        by_cases hi : f i = k <;> simp [hi]
      have hothers : (items.filter (f · ∈ k :: keys)).filter (fun i => !decide (f i = k)) =
          items.filter (f · ∈ keys) := by
        rw [List.filter_filter]
        apply List.filter_congr
        intro i _
        by_cases hi : f i = k
        · simp [hi, hfresh]
        · simp [hi]
      have hsplit := List.filter_append_perm (fun i => decide (f i = k))
        (items.filter (f · ∈ k :: keys))
      rw [hof, hothers] at hsplit
      rw [List.flatMap_cons]
      exact ((ih hrest).append_left _).trans hsplit

/-! Lists that correspond item by item. -/

section Pairs

variable {α β : Type u} {related : α → β → Prop} {as : List α} {bs : List β}

theorem map_eq_of_forall₂ (h : List.Forall₂ related as bs) {γ : Type v} {f : α → γ} {f' : β → γ}
    (heq : ∀ a b, related a b → f' b = f a) : bs.map f' = as.map f := by
  induction h with
  | nil => rfl
  | cons hab _ ih => rw [List.map_cons, List.map_cons, heq _ _ hab, ih]

theorem exists_of_forall₂ (h : List.Forall₂ related as bs) {b : β} (hb : b ∈ bs) :
    ∃ a ∈ as, related a b := by
  induction h with
  | nil => cases hb
  | cons hab _ ih =>
      rcases List.mem_cons.mp hb with rfl | hb
      · exact ⟨_, List.mem_cons_self, hab⟩
      · obtain ⟨a, ha, hab⟩ := ih hb
        exact ⟨a, List.mem_cons_of_mem _ ha, hab⟩

end Pairs

end IntelNav.Layout
