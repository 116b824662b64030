import Mathlib.Data.List.Nodup
import Mathlib.Data.List.Range

/-! A cache of one entry a position, written in batches and cut back. -/

set_option autoImplicit false
set_option relaxedAutoImplicit false

namespace IntelNav.Cache

variable {E : Type}

/-- The cells in the order they were written, and all batches written so far, the newest first. The
batches are a record only: no operation reads them. -/
structure PositionCache (E : Type) where
  cells : List (Int × E)
  batches : List (List (Int × E))
  deriving DecidableEq

namespace PositionCache

def empty : PositionCache E := ⟨[], []⟩

/-- Drop the cells from position `p₀` on, and all of them when it is negative. -/
def dropFrom (c : PositionCache E) (p₀ : Int) : PositionCache E :=
  { c with cells := if p₀ < 0 then [] else c.cells.filter fun x => x.1 < p₀ }

def write (c : PositionCache E) (batch : List (Int × E)) : PositionCache E :=
  { cells := c.cells ++ batch, batches := batch :: c.batches }

def positions (c : PositionCache E) : List Int := c.cells.map Prod.fst

def latest (c : PositionCache E) (p : Int) : Option E :=
  c.batches.findSome? fun batch => (batch.find? fun x => x.1 = p).map Prod.snd

/-- The cache holds the positions below `n` and no others, each once and as last written. -/
structure Holds (c : PositionCache E) (n : Nat) : Prop where
  once : c.positions.Nodup
  covers : ∀ p, p ∈ c.positions ↔ 0 ≤ p ∧ p < n
  asWritten : ∀ x ∈ c.cells, c.latest x.1 = some x.2

@[simp] theorem dropFrom_batches (c : PositionCache E) (p₀ : Int) :
    (c.dropFrom p₀).batches = c.batches := rfl

theorem mem_cells_dropFrom {c : PositionCache E} {p₀ : Int} {x : Int × E} :
    x ∈ (c.dropFrom p₀).cells ↔ x ∈ c.cells ∧ 0 ≤ p₀ ∧ x.1 < p₀ := by
  rw [dropFrom]
  split_ifs with h
  · simp only [List.not_mem_nil, false_iff]
    omega
  · simp only [List.mem_filter, decide_eq_true_eq]
    constructor
    · exact fun ⟨hx, hlt⟩ => ⟨hx, by omega, hlt⟩
    · exact fun ⟨hx, _, hlt⟩ => ⟨hx, hlt⟩

theorem mem_positions {c : PositionCache E} {p : Int} :
    p ∈ c.positions ↔ ∃ e, (p, e) ∈ c.cells := by
  simp [positions]

theorem positions_write (c : PositionCache E) (batch : List (Int × E)) :
    (c.write batch).positions = c.positions ++ batch.map Prod.fst := by
  simp [positions, write]

private theorem latest_write (c : PositionCache E) (batch : List (Int × E)) (p : Int) :
    (c.write batch).latest p =
      ((batch.find? fun x => x.1 = p).map Prod.snd).or (c.latest p) := by
  rw [latest, write, List.findSome?_cons]
  cases (batch.find? fun x => x.1 = p).map Prod.snd <;> rfl

private theorem holds_of_cells_eq_nil {c : PositionCache E} (h : c.cells = []) : c.Holds 0 where
  once := by simp [positions, h]
  covers p := by
    simp only [positions, h, List.map_nil, List.not_mem_nil, false_iff]
    omega
  asWritten x hx := by
    rw [h] at hx
    cases hx

theorem holds_dropFrom_of_neg (c : PositionCache E) {p₀ : Int} (h : p₀ < 0) :
    (c.dropFrom p₀).Holds 0 :=
  holds_of_cells_eq_nil (if_pos h)

theorem Holds.dropFrom {c : PositionCache E} {n k : Nat} (h : c.Holds n) (hk : k ≤ n) :
    (c.dropFrom k).Holds k where
  once := by
    refine h.once.sublist (List.Sublist.map Prod.fst ?_)
    rw [PositionCache.dropFrom, if_neg (by omega)]
    exact List.filter_sublist
  covers p := by
    have hp := h.covers p
    rw [mem_positions] at hp ⊢
    simp only [mem_cells_dropFrom]
    constructor
    · rintro ⟨e, he, -, hlt⟩
      exact ⟨(hp.mp ⟨e, he⟩).1, hlt⟩
    · rintro ⟨hp₀, hlt⟩
      obtain ⟨e, he⟩ := hp.mpr ⟨hp₀, by omega⟩
      exact ⟨e, he, by omega, hlt⟩
  asWritten x hx := h.asWritten x (mem_cells_dropFrom.mp hx).1

/-- A batch for the next `m` positions makes the cache `m` longer. -/
theorem Holds.write {c : PositionCache E} {n m : Nat} {batch : List (Int × E)} (h : c.Holds n)
    (hbatch : batch.map Prod.fst = (List.range m).map fun i => ((n + i : Nat) : Int)) :
    (c.write batch).Holds (n + m) := by
  have hmem : ∀ p, p ∈ batch.map Prod.fst ↔ (n : Int) ≤ p ∧ p < (n + m : Nat) := by
    intro p
    rw [hbatch]
    simp only [List.mem_map, List.mem_range]
    constructor
    · rintro ⟨i, hi, rfl⟩
      omega
    · rintro ⟨hle, hlt⟩
      exact ⟨(p - n).toNat, by omega, by omega⟩
  have hnodup : (batch.map Prod.fst).Nodup := by
    rw [hbatch]
    refine List.nodup_range.map fun i j hij => ?_
    have : ((n + i : Nat) : Int) = ((n + j : Nat) : Int) := hij
    omega
  refine ⟨?_, fun p => ?_, fun x hx => ?_⟩
  · rw [positions_write]
    refine List.nodup_append.mpr ⟨h.once, hnodup, fun p hp q hq hpq => ?_⟩
    have h₁ := (h.covers p).mp hp
    have h₂ := (hmem q).mp hq
    omega
  · rw [positions_write, List.mem_append, h.covers, hmem]
    omega
  · rw [latest_write]
    have hfind : ∀ y ∈ batch, batch.find? (fun z => z.1 = y.1) = some y := by
      intro y hy
      obtain ⟨z, hz⟩ : ∃ z, batch.find? (fun z => z.1 = y.1) = some z := by
        rw [← Option.isSome_iff_exists, List.find?_isSome]
        exact ⟨y, hy, by simp⟩
      have hzmem := List.mem_of_find?_eq_some hz
      have hzpos : z.1 = y.1 := by simpa using List.find?_some hz
      rw [hz, List.inj_on_of_nodup_map hnodup hzmem hy hzpos]
    rcases List.mem_append.mp hx with hold | hnew
    · have hnone : batch.find? (fun z => z.1 = x.1) = none := by
        rw [List.find?_eq_none]
        intro z hz hzx
        have h₁ := (hmem z.1).mp (List.mem_map_of_mem hz)
        have h₂ := (h.covers x.1).mp (List.mem_map_of_mem hold)
        have h₃ : z.1 = x.1 := by simpa using hzx
        omega
      rw [hnone]
      exact h.asWritten x hold
    · rw [hfind x hnew]
      rfl

/-- A cache that lacks a position below `n` does not hold `n`. -/
theorem not_holds_of_gap {c : PositionCache E} {n p : Nat} (hp : p < n)
    (hgap : (p : Int) ∉ c.positions) : ¬ c.Holds n := fun h =>
  hgap ((h.covers p).mpr ⟨by omega, by omega⟩)

end PositionCache

end IntelNav.Cache
