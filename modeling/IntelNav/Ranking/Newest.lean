import Mathlib.Data.Finset.Card
import Mathlib.Data.Finset.Dedup
import Mathlib.Data.List.Destutter

/-! The freshest names among dated records. -/

set_option autoImplicit false
set_option relaxedAutoImplicit false

namespace IntelNav.Ranking

variable {Key Name : Type} [LE Key]

/-- Every record of `b` is matched by one of `a` that is no older. -/
def AsFresh (records : List (Key × Name)) (a b : Name) : Prop :=
  ∀ k, (k, b) ∈ records → ∃ k', (k', a) ∈ records ∧ k ≤ k'

def names (records : List (Key × Name)) : List Name := records.map Prod.snd

def Sorted (records : List (Key × Name)) : Prop := records.Pairwise fun r s => s.1 ≤ r.1

/-- `kept` are `cap` names of the records, or all where there are fewer: different ones, freshest
first, and none fresher than all of them left out. -/
structure KeepsFreshest [DecidableEq Name] (cap : Nat) (records : List (Key × Name))
    (kept : List Name) : Prop where
  nodup : kept.Nodup
  subset : kept ⊆ names records
  newest : kept.Pairwise (AsFresh records)
  count : kept.length = min cap (names records).toFinset.card
  leftOut : ∀ b ∈ names records, b ∉ kept → ∃ a ∈ kept, AsFresh records a b

theorem AsFresh.perm {records records' : List (Key × Name)} {a b : Name}
    (hperm : records.Perm records') (h : AsFresh records a b) : AsFresh records' a b := by
  intro k hk
  obtain ⟨k', hk', hle⟩ := h k (hperm.mem_iff.mpr hk)
  exact ⟨k', hperm.mem_iff.mp hk', hle⟩

theorem KeepsFreshest.perm [DecidableEq Name] {cap : Nat} {records records' : List (Key × Name)}
    {kept : List Name} (hperm : records.Perm records') (h : KeepsFreshest cap records kept) :
    KeepsFreshest cap records' kept := by
  have hnames : (names records).Perm (names records') := hperm.map _
  constructor
  · exact h.nodup
  · intro a ha
    exact hnames.mem_iff.mp (h.subset ha)
  · exact h.newest.imp fun hab => hab.perm hperm
  · rw [h.count, List.toFinset_eq_of_perm _ _ hnames]
  · intro b hb hout
    obtain ⟨a, ha, hab⟩ := h.leftOut b (hnames.mem_iff.mpr hb) hout
    exact ⟨a, ha, hab.perm hperm⟩

private theorem asFresh_of_sorted [Std.IsPreorder Key] {before after : List (Key × Name)}
    {r : Key × Name} {b : Name} (h : Sorted (before ++ r :: after)) (hb : b ∉ names before) :
    AsFresh (before ++ r :: after) r.2 b := by
  intro k hk
  have hlater : (k, b) ∈ r :: after := by
    rcases List.mem_append.mp hk with hin | hin
    · exact absurd (List.mem_map.mpr ⟨_, hin, rfl⟩) hb
    · exact hin
  have hr : r ∈ before ++ r :: after := by simp
  rcases List.mem_cons.mp hlater with heq | hin
  · exact ⟨r.1, hr, by rw [← heq]; exact Std.le_refl k⟩
  · have hrest := (List.pairwise_append.mp h).2.1
    exact ⟨r.1, hr, (List.pairwise_cons.mp hrest).1 _ hin⟩

variable [DecidableEq Name]

/-- The first `cap` of a list have as many different names as can be just when they are different
or are all there are. -/
private theorem card_take_eq_min_iff (cap : Nat) (l : List Name) :
    (l.take cap).toFinset.card = min cap l.toFinset.card ↔
      (l.take cap).Nodup ∨ l ⊆ l.take cap := by
  have hsub : (l.take cap).toFinset ⊆ l.toFinset := by
    intro a ha
    exact List.mem_toFinset.mpr (List.mem_of_mem_take (List.mem_toFinset.mp ha))
  have hcard := Finset.card_le_card hsub
  have hshort : (l.take cap).toFinset.card ≤ (l.take cap).length := List.toFinset_card_le _
  rw [List.length_take] at hshort
  constructor
  · intro h
    by_cases hcap : cap ≤ l.toFinset.card
    · left
      have hlen : l.toFinset.card ≤ l.length := List.toFinset_card_le l
      have hfull : (l.take cap).toFinset.card = (l.take cap).length := by
        rw [List.length_take]
        omega
      have hiff := @Multiset.toFinset_card_eq_card_iff_nodup Name _ ↑(l.take cap)
      exact hiff.mp hfull
    · right
      have hsame : (l.take cap).toFinset = l.toFinset :=
        Finset.eq_of_subset_of_card_le hsub (by omega)
      intro a ha
      rw [← List.mem_toFinset, hsame]
      exact List.mem_toFinset.mpr ha
  · rintro (hnodup | hall)
    · have hfull := List.toFinset_card_of_nodup hnodup
      rw [List.length_take] at hfull
      by_cases hlen : cap ≤ l.length
      · omega
      · rw [List.take_of_length_le (by omega)] at hfull hcard ⊢
        omega
    · have hsame : (l.take cap).toFinset = l.toFinset := by
        apply Finset.Subset.antisymm hsub
        intro a ha
        exact List.mem_toFinset.mpr (hall (List.mem_toFinset.mp ha))
      rw [hsame] at hshort ⊢
      omega

/-- Equal names are next to each other among the first three, and the first three are different or
are all the names. -/
def Apart (l : List Name) : Prop :=
  (∀ a b rest, l = a :: b :: a :: rest → a = b) ∧ ((l.take 3).Nodup ∨ l ⊆ l.take 3)

private theorem mem_destutter' (l : List Name) (a b : Name) :
    b ∈ l.destutter' (· ≠ ·) a ↔ b = a ∨ b ∈ l := by
  induction l generalizing a with
  | nil => simp
  | cons c l ih =>
      by_cases hac : a = c
      · rw [List.destutter'_cons_neg _ (not_not.mpr hac), ih, List.mem_cons, hac]
        tauto
      · rw [List.destutter'_cons_pos _ hac, List.mem_cons, ih, List.mem_cons]

private theorem mem_destutter (l : List Name) (b : Name) : b ∈ l.destutter (· ≠ ·) ↔ b ∈ l := by
  cases l with
  | nil => simp
  | cons a l => rw [List.destutter_cons', mem_destutter', List.mem_cons]

private theorem destutter_three (a b c : Name) :
    [a, b, c].destutter (· ≠ ·) =
      if a = b then if b = c then [a] else [a, c] else if b = c then [a, b] else [a, b, c] := by
  by_cases hab : a = b
  · subst hab
    by_cases hac : a = c
    · simp [List.destutter_cons_cons, hac]
    · simp [List.destutter_cons_cons, hac]
  · by_cases hbc : b = c
    · subst hbc
      simp [List.destutter_cons_cons, hab]
    · simp [List.destutter_cons_cons, hab, hbc]

private theorem nodup_destutter_take_three (l : List Name) :
    ((l.take 3).destutter (· ≠ ·)).Nodup ↔ ∀ a b rest, l = a :: b :: a :: rest → a = b := by
  match l with
  | [] => simp
  | [a] => simp
  | [a, b] =>
      by_cases hab : a = b
      · simp [hab]
      · simp [hab]
  | a :: b :: c :: rest =>
      have htake : (a :: b :: c :: rest).take 3 = [a, b, c] := rfl
      rw [htake, destutter_three]
      constructor
      · rintro h a' b' rest' heq
        simp only [List.cons.injEq] at heq
        obtain ⟨rfl, rfl, rfl, -⟩ := heq
        by_contra hab
        simp [hab, Ne.symm hab] at h
      · intro h
        have hsame : a = c → a = b := by
          rintro rfl
          exact h a b rest rfl
        by_cases hab : a = b
        · by_cases hbc : b = c
          · simp [hab, hbc]
          · simp [hab, hbc]
        · have hac : a ≠ c := fun hac => hab (hsame hac)
          by_cases hbc : b = c
          · simp [hbc, hac]
          · simp [hab, hbc, hac]

private theorem pairwise_destutter [Std.IsPreorder Key] {records : List (Key × Name)}
    (h : Sorted records) (hnodup : (((names records).take 3).destutter (· ≠ ·)).Nodup) :
    (((names records).take 3).destutter (· ≠ ·)).Pairwise (AsFresh records) := by
  match records with
  | [] => simp [names]
  | [r] => simp [names]
  | [r, s] =>
      have hfirst : AsFresh [r, s] r.2 s.2 :=
        @asFresh_of_sorted _ _ _ _ [] [s] r s.2 h (by simp [names])
      by_cases hrs : r.2 = s.2
      · simp [names, hrs]
      · simpa [names, hrs] using hfirst
  | r :: s :: t :: rest =>
      have hfirst : ∀ b, AsFresh (r :: s :: t :: rest) r.2 b :=
        fun b => @asFresh_of_sorted _ _ _ _ [] _ r b h (by simp [names])
      have hsecond : ∀ b, b ≠ r.2 → AsFresh (r :: s :: t :: rest) s.2 b :=
        fun b hb => @asFresh_of_sorted _ _ _ _ [r] _ s b h (by simpa [names] using hb)
      have htake : (names (r :: s :: t :: rest)).take 3 = [r.2, s.2, t.2] := rfl
      rw [htake, destutter_three] at hnodup ⊢
      by_cases hrs : r.2 = s.2
      · rw [if_pos hrs]
        split
        · exact List.pairwise_singleton _ _
        · exact List.pairwise_pair.mpr (hfirst _)
      · rw [if_neg hrs] at hnodup ⊢
        split
        · exact List.pairwise_pair.mpr (hfirst _)
        · rename_i hst
          rw [if_neg hst] at hnodup
          have hrt : t.2 ≠ r.2 := by
            rintro heq
            simp [heq] at hnodup
          refine List.pairwise_cons.mpr ⟨fun b _ => hfirst b, ?_⟩
          exact List.pairwise_pair.mpr (hsecond _ hrt)

/-- The first three names, adjacent repeats dropped, are the three freshest just when the names are
apart. -/
theorem keepsFreshest_iff_apart [Std.IsPreorder Key] {records : List (Key × Name)}
    (h : Sorted records) :
    KeepsFreshest 3 records (((names records).take 3).destutter (· ≠ ·)) ↔
      Apart (names records) := by
  have hlen : ∀ _ : (((names records).take 3).destutter (· ≠ ·)).Nodup,
      (((names records).take 3).destutter (· ≠ ·)).length =
        ((names records).take 3).toFinset.card := by
    intro hnodup
    rw [← List.toFinset_card_of_nodup hnodup]
    refine congrArg _ (Finset.ext fun b => ?_)
    rw [List.mem_toFinset, List.mem_toFinset, mem_destutter]
  constructor
  · intro hkept
    refine ⟨(nodup_destutter_take_three _).mp hkept.nodup, ?_⟩
    rw [← card_take_eq_min_iff, ← hlen hkept.nodup]
    exact hkept.count
  · rintro ⟨hback, hmost⟩
    have hnodup := (nodup_destutter_take_three _).mpr hback
    constructor
    · exact hnodup
    · intro b hb
      exact List.mem_of_mem_take ((mem_destutter _ _).mp hb)
    · exact pairwise_destutter h hnodup
    · rw [hlen hnodup]
      exact (card_take_eq_min_iff 3 _).mpr hmost
    · intro b hb _
      cases records with
      | nil => simp [names] at hb
      | cons r records =>
          refine ⟨r.2, ?_, @asFresh_of_sorted _ _ _ _ [] records r b h (by simp [names])⟩
          rw [mem_destutter]
          simp [names]

end IntelNav.Ranking
