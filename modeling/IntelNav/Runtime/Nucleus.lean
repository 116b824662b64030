import IntelNav.Core.Floats
import IntelNav.Ranking.Shares
import IntelNav.Runtime.Sample
import Mathlib.Algebra.Order.Field.Rat
import Mathlib.Data.List.Range

/-! What `sample_top_p` of `crates/runtime/src/sample.rs` draws from, in exact arithmetic. -/

set_option autoImplicit false
set_option relaxedAutoImplicit false

namespace IntelNav.Runtime

open IntelNav.Core IntelNav.Ranking

variable {R : Type} [SamplerLib R ℚ]

def draw (rng : R) : ℚ := (SamplerLib.genUnit (F := ℚ) rng).1

/-- What the generator and the sort promise: draws from 0 up to 1, and the same elements in an
order of the comparison, ties in any order. -/
structure SamplerLaws (R : Type) [SamplerLib R ℚ] : Prop where
  perm : ∀ (cmp : UInt32 → UInt32 → Ordering) [Std.TransCmp cmp] (l : List UInt32),
    (SamplerLib.sortUnstableBy R ℚ cmp l).Perm l
  sorted : ∀ (cmp : UInt32 → UInt32 → Ordering) [Std.TransCmp cmp] (l : List UInt32),
    (SamplerLib.sortUnstableBy R ℚ cmp l).Pairwise fun a b => (cmp a b).isLE
  draw_nonneg : ∀ rng : R, 0 ≤ draw rng
  draw_lt_one : ∀ rng : R, draw rng < 1

def prob (probs : List ℚ) (i : Nat) : ℚ := probs.getD i 0

/-- Nucleus sampling: the tokens drawn from are a smallest prefix, most probable first, that has
the mass `topP`. Each is drawn by an interval of draws as long as its part of that mass. -/
def SamplesNucleus (R : Type) [SamplerLib R ℚ] (probs : List ℚ) (topP : ℚ) : Prop :=
  ∃ kept : List Nat, IsNucleus (prob probs) topP (List.range probs.length) kept ∧
    (∀ i ∈ kept, share (prob probs) kept i ⊆ Set.Ico 0 1) ∧
    ∀ rng : R,
      let i := (sampleTopP probs topP rng).1.toNat
      i ∈ kept ∧ (∀ j ∈ kept, i = j ↔ draw rng ∈ share (prob probs) kept j) ∧
        0 < prob probs i ∧
        mass (prob probs) ((List.range probs.length).filter (prob probs i < prob probs ·)) < topP

/-- The comparison of the sort: the more probable of two tokens comes first. -/
def byProb (probs : List ℚ) (a b : UInt32) : Ordering :=
  let p (i : UInt32) : ℚ := probs.getD i.toNat (F32.ofInt 0)
  if F32.lt (p b) (p a) then .lt else if F32.lt (p a) (p b) then .gt else .eq

def sortedTokens (R : Type) [SamplerLib R ℚ] (probs : List ℚ) : List UInt32 :=
  SamplerLib.sortUnstableBy R ℚ (byProb probs)
    ((List.range (UInt32.ofNat probs.length).toNat).map UInt32.ofNat)

section Loops

variable {α : Type}

private theorem nucleus_map (weight : α → ℚ) (topP acc : ℚ) (keys : List α) :
    nucleus topP acc (keys.map weight) = reach weight topP acc keys := by
  induction keys generalizing acc with
  | nil => rfl
  | cons k keys ih =>
      simp only [List.map_cons, nucleus, reach, F32.add, F32.ge, decide_eq_true_eq]
      rw [ih]

private theorem firstPast_map (weight : UInt32 → ℚ) (r acc : ℚ) (keys : List UInt32) :
    firstPast r acc (keys.map fun i => (i, weight i)) = walk weight r acc keys := by
  induction keys generalizing acc with
  | nil => rfl
  | cons k keys ih =>
      simp only [List.map_cons, firstPast, walk, F32.add, F32.lt, decide_eq_true_eq]
      rw [ih]

private theorem sumF_map (weight : α → ℚ) (keys : List α) :
    sumF (keys.map weight) = mass weight keys := by
  rw [mass, List.sum_eq_foldl]
  rfl

end Loops

private theorem byProb_isLE (probs : List ℚ) (a b : UInt32) :
    (byProb probs a b).isLE ↔ prob probs b.toNat ≤ prob probs a.toNat := by
  unfold byProb prob
  simp only [F32.lt, F32.ofInt, decide_eq_true_eq, Int.cast_zero]
  split_ifs with hlt hgt
  · simpa using hlt.le
  · simpa using hgt
  · simpa using not_lt.mp hgt

instance byProb_trans (probs : List ℚ) : Std.TransCmp (byProb probs) where
  eq_swap := by
    intro a b
    unfold byProb
    simp only [F32.lt, decide_eq_true_eq]
    split_ifs with hlt hgt
    · exact absurd hlt (not_lt.mpr hgt.le)
    · rfl
    · rfl
    · rfl
  isLE_trans := by
    intro a b c hab hbc
    rw [byProb_isLE] at hab hbc ⊢
    exact le_trans hbc hab

private theorem sortedTokens_perm (hlaws : SamplerLaws R) {probs : List ℚ}
    (hlen : probs.length < 2 ^ 32) :
    ((sortedTokens R probs).map UInt32.toNat).Perm (List.range probs.length) := by
  have hperm := (hlaws.perm (byProb probs)
    ((List.range (UInt32.ofNat probs.length).toNat).map UInt32.ofNat)).map UInt32.toNat
  have hsize : (UInt32.ofNat probs.length).toNat = probs.length :=
    UInt32.toNat_ofNat_of_lt' hlen
  have hback : ((List.range probs.length).map UInt32.ofNat).map UInt32.toNat =
      List.range probs.length := by
    rw [List.map_map]
    conv_rhs => rw [← List.map_id (List.range probs.length)]
    refine List.map_congr_left fun i hi => ?_
    exact UInt32.toNat_ofNat_of_lt' (lt_trans (List.mem_range.mp hi) hlen)
  rw [hsize, hback] at hperm
  unfold sortedTokens
  rw [hsize]
  exact hperm

private theorem sortedTokens_sorted (hlaws : SamplerLaws R) (probs : List ℚ) :
    ((sortedTokens R probs).map UInt32.toNat).Pairwise
      fun a b => prob probs b ≤ prob probs a := by
  rw [List.pairwise_map]
  refine (hlaws.sorted (byProb probs) _).imp ?_
  intro a b hab
  exact (byProb_isLE probs a b).mp hab

def keptTokens (R : Type) [SamplerLib R ℚ] (probs : List ℚ) (topP : ℚ) : List UInt32 :=
  (sortedTokens R probs).take (reach (prob probs ∘ UInt32.toNat) topP 0 (sortedTokens R probs))

private theorem map_keptTokens (R : Type) [SamplerLib R ℚ] (probs : List ℚ) (topP : ℚ) :
    (keptTokens R probs topP).map UInt32.toNat =
      ((sortedTokens R probs).map UInt32.toNat).take
        (reach (prob probs) topP 0 ((sortedTokens R probs).map UInt32.toNat)) := by
  rw [keptTokens, List.map_take, reach_map]

private theorem sampleTopP_eq (probs : List ℚ) (topP : ℚ) (rng : R) :
    let weight := prob probs ∘ UInt32.toNat
    let kept := keptTokens R probs topP
    sampleTopP probs topP rng =
      if mass weight kept ≤ 0 then ((sortedTokens R probs).headD 0, rng)
      else ((walk weight (draw rng * mass weight kept) 0 kept).getD (kept.getLastD 0),
        (SamplerLib.genUnit (F := ℚ) rng).2) := by
  intro weight kept
  have hweight : (fun i : UInt32 => probs.getD i.toNat (F32.ofInt 0)) = weight := by
    ext i
    simp [weight, prob, F32.ofInt]
  have hkept : (sortedTokens R probs).take
      (nucleus topP 0 ((sortedTokens R probs).map weight)) = kept := by
    rw [nucleus_map, show kept = keptTokens R probs topP from rfl, keptTokens]
  have hshape : ∀ w : UInt32 → ℚ, (fun i => probs.getD i.toNat (F32.ofInt 0)) = w →
      sampleTopP probs topP rng =
        (let idx := sortedTokens R probs
         let kept := idx.take (nucleus topP (F32.ofInt 0) (idx.map w))
         if F32.ge (F32.ofInt 0) (sumF (kept.map w)) then (idx.headD 0, rng)
         else ((firstPast (F32.mul (draw rng) (sumF (kept.map w))) (F32.ofInt 0)
            (kept.map fun i => (i, w i))).getD (kept.getLastD 0),
            (SamplerLib.genUnit (F := ℚ) rng).2)) := by
    intro w hw
    rw [← hw]
    rfl
  rw [hshape weight hweight]
  simp only [hkept, sumF_map, firstPast_map, F32.ge, F32.mul, F32.ofInt, Int.cast_zero,
    decide_eq_true_eq]

theorem sampleTopP_samplesNucleus {probs : List ℚ} {topP : ℚ} (hlaws : SamplerLaws R)
    (hlen : probs.length < 2 ^ 32) (h0 : ∀ q ∈ probs, 0 ≤ q) (hsum : 0 < probs.sum)
    (hp : 0 < topP) : SamplesNucleus R probs topP := by
  have hweight : ∀ i, 0 ≤ prob probs i := by
    intro i
    unfold prob
    rw [List.getD_eq_getElem?_getD]
    cases hi : probs[i]? with
    | none => exact le_refl _
    | some q => exact h0 q (List.mem_of_getElem? hi)
  have hperm := sortedTokens_perm hlaws hlen
  have hkept : IsNucleus (prob probs) topP (List.range probs.length)
      ((keptTokens R probs topP).map UInt32.toNat) := by
    rw [map_keptTokens]
    exact isNucleus_take_reach _ _ hp hperm (sortedTokens_sorted hlaws probs)
  have hnodup : ((keptTokens R probs topP).map UInt32.toNat).Nodup := by
    rw [map_keptTokens]
    exact (hperm.nodup_iff.mpr List.nodup_range).sublist (List.take_sublist _ _)
  have htotal : 0 < mass (prob probs) (List.range probs.length) := by
    rw [mass, show (List.range probs.length).map (prob probs) = probs from ?_]
    · exact hsum
    · apply List.ext_getElem
      · simp
      · intro i _ hi
        simp [prob, hi]
  have hmass := hkept.mass_pos hp htotal
  have hmass' : 0 < mass (prob probs ∘ UInt32.toNat) (keptTokens R probs topP) := by
    rwa [← mass_map]
  refine ⟨_, hkept, fun i hi => share_subset_unit hweight hi hmass, fun rng => ?_⟩
  -- The draw always falls on a token, so that the last one is never the answer of the loop's end.
  have hdraw : walk (prob probs) (draw rng *
      mass (prob probs) ((keptTokens R probs topP).map UInt32.toNat)) 0
      ((keptTokens R probs topP).map UInt32.toNat) =
        some (sampleTopP probs topP rng).1.toNat := by
    have hbelow : draw rng * mass (prob probs ∘ UInt32.toNat) (keptTokens R probs topP) <
        0 + mass (prob probs ∘ UInt32.toNat) (keptTokens R probs topP) := by
      rw [zero_add]
      exact mul_lt_of_lt_one_left hmass' (hlaws.draw_lt_one rng)
    have hfrom : 0 ≤ draw rng * mass (prob probs ∘ UInt32.toNat) (keptTokens R probs topP) :=
      mul_nonneg (hlaws.draw_nonneg rng) hmass'.le
    obtain ⟨k, hk⟩ := exists_walk (keptTokens R probs topP) hbelow hfrom
    rw [sampleTopP_eq, if_neg (not_le.mpr hmass'), hk, Option.getD_some, mass_map, walk_map, hk]
    rfl
  have hmem := mem_of_walk hdraw
  have hiff : ∀ j ∈ (keptTokens R probs topP).map UInt32.toNat,
      (sampleTopP probs topP rng).1.toNat = j ↔
        draw rng ∈ share (prob probs) ((keptTokens R probs topP).map UInt32.toNat) j := by
    intro j hj
    rw [← walk_draw_eq_some_iff hweight hnodup hmass (hlaws.draw_nonneg rng) hj]
    rw [hdraw, Option.some.injEq]
  have hshare := (hiff _ hmem).mp rfl
  exact ⟨hmem, hiff, weight_pos_of_mem_share hmass hshare, hkept.mass_heavier_lt hweight hmem⟩

structure UnitDraw where
  val : ℚ
  nonneg : 0 ≤ val
  lt_one : val < 1

instance : SamplerLib UnitDraw ℚ where
  seedFromU64 _ := ⟨0, le_refl 0, zero_lt_one⟩
  genUnit u := (u.val, u)
  sortUnstableBy cmp l := l.mergeSort fun a b => (cmp a b).isLE

private theorem unitDraw_laws : SamplerLaws UnitDraw where
  perm cmp _ l := List.mergeSort_perm l _
  sorted cmp htrans l := by
    refine List.pairwise_mergeSort ?_ ?_ l
    · intro a b c hab hbc
      exact htrans.isLE_trans hab hbc
    · intro a b
      rw [htrans.eq_swap (a := b) (b := a)]
      cases cmp a b <;> rfl
  draw_nonneg u := u.nonneg
  draw_lt_one u := u.lt_one

theorem sampleTopP_samplesNucleus_tie :
    SamplesNucleus UnitDraw [1 / 4, 0, 1 / 2, 1 / 4] (3 / 4) :=
  sampleTopP_samplesNucleus unitDraw_laws (by decide) (by decide +kernel) (by decide +kernel)
    (by decide +kernel)

private theorem sampleTopP_wrapped {n : Nat} (hn : (UInt32.ofNat (n + 1)).toNat = 1) (hpos : 0 < n)
    (topP : ℚ) (u : UnitDraw) :
    let probs : List ℚ := List.replicate n 0 ++ [1]
    (sampleTopP probs topP u).1 = 0 ∧ prob probs 0 = 0 := by
  intro probs
  have hfirst : prob probs 0 = 0 := by
    simp [prob, probs, hpos]
  have hsorted : sortedTokens UnitDraw probs = [0] := by
    have hlen : (UInt32.ofNat probs.length).toNat = 1 := by simpa [probs] using hn
    unfold sortedTokens
    rw [hlen]
    exact List.mergeSort_singleton _
  have hmass : mass (prob probs ∘ UInt32.toNat) (keptTokens UnitDraw probs topP) ≤ 0 := by
    have hreach : reach (prob probs ∘ UInt32.toNat) topP 0 [0] = 1 := by
      unfold reach
      split <;> rfl
    rw [keptTokens, hsorted, hreach, List.take_succ_cons, List.take_zero, mass_cons, mass_nil,
      add_zero]
    exact hfirst.le
  rw [sampleTopP_eq, if_pos hmass, hsorted]
  exact ⟨rfl, hfirst⟩

theorem vast_vocabulary_not_sampled :
    let probs : List ℚ := List.replicate (2 ^ 32) 0 ++ [1]
    (∀ q ∈ probs, 0 ≤ q) ∧ 0 < probs.sum ∧ ¬ SamplesNucleus UnitDraw probs (1 / 2) := by
  intro probs
  have hnonneg : ∀ q ∈ probs, 0 ≤ q := by
    intro q hq
    rcases List.mem_append.mp hq with hin | hin
    · exact (List.eq_of_mem_replicate hin).ge
    · rw [List.mem_singleton.mp hin]
      exact zero_le_one
  have hsum : 0 < probs.sum := by
    rw [List.sum_append, List.sum_replicate, nsmul_zero]
    simp
  refine ⟨hnonneg, hsum, ?_⟩
  intro h
  obtain ⟨kept, _, _, hrun⟩ := h
  obtain ⟨_, _, hpos, _⟩ := hrun ⟨0, le_refl 0, zero_lt_one⟩
  obtain ⟨hzero, hnone⟩ := sampleTopP_wrapped (n := 2 ^ 32) (by decide) (by decide) (1 / 2)
    ⟨0, le_refl 0, zero_lt_one⟩
  rw [hzero] at hpos
  exact absurd hnone hpos.ne'

end IntelNav.Runtime
