import IntelNav.Runtime.Chain

/-! The layer ranges of an accepted chain configuration: together with the driver's own layers they
cover the blocks of the model, in order and without overlap. -/

set_option autoImplicit false
set_option relaxedAutoImplicit false

namespace IntelNav.Runtime

open IntelNav.Core

variable {Addr : Type}

/-- Non-empty ranges that lead from `s` to `e` without a gap. -/
def Spans : Nat → List LayerRange → Nat → Prop
  | s, [], e => s = e
  | s, r :: rs, e => r.start.toNat = s ∧ s < r.stop.toNat ∧ Spans r.stop.toNat rs e

theorem Spans.le {s e : Nat} {rs : List LayerRange} (h : Spans s rs e) : s ≤ e := by
  induction rs generalizing s with
  | nil => exact Nat.le_of_eq h
  | cons r rs ih =>
      obtain ⟨-, hlt, hrest⟩ := h
      exact Nat.le_trans (Nat.le_of_lt hlt) (ih hrest)

private theorem increasing_iff (splits : List UInt16) :
    increasing splits = true ↔ splits.IsChain (· < ·) := by
  induction splits with
  | nil => simp [increasing]
  | cons a rest ih =>
      cases rest with
      | nil => simp [increasing]
      | cons b rest => simp [increasing, ih]

/-- What `Chain::connect` checks before it dials. -/
private theorem ChainCfg.validate_eq_ok {cfg : ChainCfg Addr} {nBlocks : UInt16}
    (h : cfg.validate nBlocks = .ok ()) :
    cfg.peers.length = cfg.splits.length ∧ cfg.splits ≠ [] ∧ cfg.splits.IsChain (· < ·) ∧
      ∀ last, cfg.splits.getLast? = some last → last < nBlocks := by
  rw [validate] at h
  split_ifs at h with hempty hlen hinc hzero
  have hsplits : cfg.splits ≠ [] := fun hnil => by
    rw [hnil] at hlen
    simp at hempty hlen
    exact hempty hlen
  refine ⟨not_not.mp hlen, hsplits, ?_, fun last hlast => ?_⟩
  · rw [← increasing_iff]
    simpa using hinc
  · rw [hlast] at h
    dsimp only at h
    split_ifs at h with hge
    exact UInt16.not_le.mp hge

/-- The range between split `i` and the next one, or the end. -/
private def between (splits : List UInt16) (n : UInt16) (i : Nat) : LayerRange :=
  ⟨splits.getD i 0, (splits[i + 1]?).getD n⟩

private theorem spans_between {splits : List UInt16} {n : UInt16} (hne : splits ≠ [])
    (hinc : splits.IsChain (· < ·)) (hlast : ∀ last, splits.getLast? = some last → last < n) :
    Spans (splits.headD 0).toNat ((List.range splits.length).map (between splits n)) n.toNat := by
  induction splits with
  | nil => exact absurd rfl hne
  | cons a rest ih =>
      cases rest with
      | nil => exact ⟨rfl, UInt16.lt_iff_toNat_lt.mp (hlast a rfl), rfl⟩
      | cons b rest =>
          obtain ⟨hab, hrest⟩ := List.isChain_cons_cons.mp hinc
          have htail := ih (by simp) hrest (fun last hl => hlast last (by simpa using hl))
          have hcomp : between (a :: b :: rest) n ∘ Nat.succ = between (b :: rest) n :=
            funext fun i => by simp [between]
          rw [List.length_cons, List.range_succ_eq_map, List.map_cons, List.map_map, hcomp]
          exact ⟨rfl, UInt16.lt_iff_toNat_lt.mp hab, htail⟩

theorem ChainCfg.spans_layers {cfg : ChainCfg Addr} {nBlocks : UInt16}
    (h : cfg.validate nBlocks = .ok ()) :
    Spans (cfg.splits.headD 0).toNat ((List.range cfg.peers.length).map (cfg.layers nBlocks))
      nBlocks.toNat := by
  obtain ⟨hlen, hne, hinc, hlast⟩ := validate_eq_ok h
  rw [hlen]
  exact spans_between hne hinc hlast

theorem ChainCfg.layers_ne {cfg : ChainCfg Addr} {nBlocks : UInt16}
    (h : cfg.validate nBlocks = .ok ()) {i j : Nat} (hij : i < j) (hj : j < cfg.peers.length) :
    cfg.layers nBlocks i ≠ cfg.layers nBlocks j := by
  obtain ⟨hlen, -, hinc, -⟩ := validate_eq_ok h
  have hpair := List.pairwise_iff_getElem.mp (List.isChain_iff_pairwise.mp hinc) i j
    (by omega) (by omega) hij
  intro heq
  have hstart : cfg.splits.getD i 0 = cfg.splits.getD j 0 := congrArg LayerRange.start heq
  rw [List.getD_eq_getElem?_getD, List.getD_eq_getElem?_getD, List.getElem?_eq_getElem (by omega),
    List.getElem?_eq_getElem (by omega), Option.getD_some, Option.getD_some] at hstart
  rw [hstart] at hpair
  exact UInt16.lt_irrefl _ hpair

end IntelNav.Runtime
