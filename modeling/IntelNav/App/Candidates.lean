import IntelNav.App.ChainDriver
import IntelNav.Ranking.Newest

/-! The candidates of each hop, and what failover does with them
(`crates/app/src/chain_driver.rs`). -/

set_option autoImplicit false
set_option relaxedAutoImplicit false

namespace IntelNav.App

open IntelNav.Core IntelNav.Net IntelNav.Ranking

variable {Addr : Type}

/-- The forward addresses of a range, with the times they were minted. -/
def forwardRecords (parse : String → Option Addr) (providers : List ProviderRecord) :
    List (UInt64 × Addr) :=
  providers.filterMap fun p => do
    let u ← p.forwardUrl
    let addr ← parse u
    some (p.mintedAt, addr)

def newestRecords (parse : String → Option Addr) (providers : List ProviderRecord) :
    List (UInt64 × Addr) :=
  (forwardRecords parse providers).mergeSort fun a b => a.1 ≥ b.1

theorem newestRecords_perm (parse : String → Option Addr) (providers : List ProviderRecord) :
    (newestRecords parse providers).Perm (forwardRecords parse providers) :=
  List.mergeSort_perm _ _

private theorem sorted_newestRecords (parse : String → Option Addr)
    (providers : List ProviderRecord) :
    Sorted (newestRecords parse providers) := by
  have hsorted := @List.pairwise_mergeSort _ (fun a b : UInt64 × Addr => decide (a.1 ≥ b.1))
    (by
      intro a b c hab hbc
      rw [decide_eq_true_iff] at hab hbc ⊢
      exact UInt64.le_trans hbc hab)
    (by
      intro a b
      rw [Bool.or_eq_true, decide_eq_true_iff, decide_eq_true_iff]
      exact UInt64.le_total b.1 a.1) (forwardRecords parse providers)
  exact hsorted.imp fun h => of_decide_eq_true h

theorem newestRecords_of_sorted {parse : String → Option Addr} {providers : List ProviderRecord}
    (h : (forwardRecords parse providers).Pairwise fun a b => decide (a.1 ≥ b.1)) :
    newestRecords parse providers = forwardRecords parse providers :=
  List.mergeSort_of_pairwise h

namespace ChainTarget

/-- The active peer of hop `i` and its backups. -/
def candidates (t : ChainTarget Addr) (i : Nat) : List Addr :=
  (t.peers[i]?).toList ++ (t.alternates[i]?).getD []

/-- The target after failovers at the hops `is`, one after the other. -/
def failovers (t : ChainTarget Addr) (is : List Nat) : ChainTarget Addr :=
  is.foldl (fun t i => (t.failover i).2) t

def Shaped (t : ChainTarget Addr) : Prop := t.alternates.length = t.peers.length

theorem Shaped.getElem? {t : ChainTarget Addr} (h : t.Shaped) {i : Nat} {alts : List Addr}
    (hi : t.alternates[i]? = some alts) : ∃ a, t.peers[i]? = some a := by
  have hlt : i < t.alternates.length := (List.getElem?_eq_some_iff.mp hi).1
  have hlen : t.alternates.length = t.peers.length := h
  exact ⟨t.peers[i], List.getElem?_eq_getElem (by omega)⟩

private theorem candidates_failover {t : ChainTarget Addr} (h : t.Shaped) (i : Nat) :
    (t.failover i).2.Shaped ∧
      ∀ j, (t.failover i).2.candidates j =
        if j = i ∧ (t.failover i).1 then (t.candidates j).tail else t.candidates j := by
  unfold failover
  split
  · rename_i next rest hi
    obtain ⟨a, ha⟩ := h.getElem? hi
    have hpeer : i < t.peers.length := (List.getElem?_eq_some_iff.mp ha).1
    have halt : i < t.alternates.length := (List.getElem?_eq_some_iff.mp hi).1
    refine ⟨?_, fun j => ?_⟩
    · have hlen : t.alternates.length = t.peers.length := h
      simpa [Shaped] using hlen
    · by_cases hj : j = i
      · subst hj
        have hcands : t.candidates j = a :: next :: rest := by
          rw [candidates, ha, hi]
          rfl
        rw [if_pos ⟨rfl, by simpa using hpeer⟩, hcands]
        simp [candidates, hpeer, halt]
      · simp [candidates, hj, List.getElem?_set_ne (Ne.symm hj)]
  · exact ⟨h, fun j => by simp⟩

private theorem candidates_of_swap {t : ChainTarget Addr} (h : t.Shaped) {i : Nat}
    (hswap : (t.failover i).1 = true) : ∃ a b rest, t.candidates i = a :: b :: rest := by
  unfold failover at hswap
  split at hswap
  · rename_i next rest hi
    obtain ⟨a, ha⟩ := h.getElem? hi
    exact ⟨a, next, rest, by simp [candidates, ha, hi]⟩
  · cases hswap

theorem failovers_candidates {t : ChainTarget Addr} (h : t.Shaped) (is : List Nat) :
    (t.failovers is).Shaped ∧ ∀ j, (t.failovers is).candidates j <:+ t.candidates j := by
  induction is generalizing t with
  | nil => exact ⟨h, fun j => List.suffix_refl _⟩
  | cons i is ih =>
      obtain ⟨hshaped, hone⟩ := candidates_failover h i
      obtain ⟨hall, hrest⟩ := ih hshaped
      refine ⟨hall, fun j => (hrest j).trans ?_⟩
      rw [hone j]
      split
      · exact List.tail_suffix _
      · exact List.suffix_refl _

theorem head?_candidates {t : ChainTarget Addr} (h : t.Shaped) (i : Nat) :
    (t.candidates i).head? = t.peers[i]? := by
  unfold candidates
  cases hp : t.peers[i]? with
  | some a => simp
  | none =>
      cases ha : t.alternates[i]? with
      | none => simp
      | some alts =>
          obtain ⟨a, hsome⟩ := h.getElem? ha
          rw [hp] at hsome
          cases hsome

private theorem failover_fresh {t : ChainTarget Addr} (h : t.Shaped) {i : Nat}
    (hnodup : (t.candidates i).Nodup) (is js : List Nat)
    (hswap : (((t.failovers is).failovers js).failover i).1 = true) :
    (((t.failovers is).failovers js).failover i).2.peers[i]? ≠ (t.failovers is).peers[i]? := by
  obtain ⟨hbefore, hsuffix⟩ := failovers_candidates h is
  obtain ⟨hlater, hsuffix'⟩ := failovers_candidates hbefore js
  obtain ⟨hafter, hone⟩ := candidates_failover hlater i
  rw [← head?_candidates hafter, ← head?_candidates hbefore, hone i, if_pos ⟨rfl, hswap⟩]
  obtain ⟨pre, hpre⟩ := hsuffix' i
  have hnodup' : ((t.failovers is).candidates i).Nodup := hnodup.sublist (hsuffix i).sublist
  obtain ⟨a, b, rest, hcands⟩ := candidates_of_swap hlater hswap
  rw [hcands] at hpre ⊢
  rw [← hpre] at hnodup' ⊢
  cases pre with
  | nil =>
      intro heq
      have hab : b = a := by simpa using heq
      simp [hab] at hnodup'
  | cons c pre =>
      intro heq
      have hbc : b = c := by simpa using heq
      simp [hbc] at hnodup'

end ChainTarget

/-! What `from_swarm` makes of a range. -/

variable [DecidableEq Addr] {parse : String → Option Addr} {ranges : List RangeCoverage}
  {t : ChainTarget Addr}

theorem rankedSockets_eq (parse : String → Option Addr) (providers : List ProviderRecord) :
    rankedSockets parse providers =
      ((names (newestRecords parse providers)).take 3).destutter (· ≠ ·) := rfl

private theorem mapM_swarmHop_getElem? {hops : List (Addr × UInt16 × List Addr)}
    (h : ranges.mapM (swarmHop parse) = .ok hops) {i : Nat} {r : RangeCoverage}
    (hr : ranges[i]? = some r) : ∃ hop, hops[i]? = some hop ∧ swarmHop parse r = .ok hop := by
  induction ranges generalizing hops i with
  | nil => simp at hr
  | cons r' rs ih =>
      rw [List.mapM_cons] at h
      cases hhop : swarmHop parse r' with
      | error e =>
          rw [hhop] at h
          cases h
      | ok hop =>
          cases hrest : rs.mapM (swarmHop parse) with
          | error e =>
              rw [hhop, hrest] at h
              cases h
          | ok rest =>
              rw [hhop, hrest] at h
              obtain rfl : hop :: rest = hops := Except.ok.inj h
              cases i with
              | zero =>
                  obtain rfl : r' = r := by simpa using hr
                  exact ⟨hop, rfl, hhop⟩
              | succ i => exact ih hrest (by simpa using hr)

theorem fromSwarm_candidates (h : ChainTarget.fromSwarm parse ranges = .ok t) :
    t.Shaped ∧ ∀ i r, ranges[i]? = some r → t.candidates i = rankedSockets parse r.providers := by
  unfold ChainTarget.fromSwarm at h
  split at h
  · cases h
  · split at h
    · cases h
    · rename_i hops hhops
      obtain rfl := Except.ok.inj h
      refine ⟨by simp [ChainTarget.Shaped], fun i r hr => ?_⟩
      obtain ⟨hop, hget, hhop⟩ := mapM_swarmHop_getElem? hhops hr
      unfold swarmHop at hhop
      split at hhop
      · cases hhop
      · rename_i primary rest hsockets
        obtain rfl := Except.ok.inj hhop
        simp [ChainTarget.candidates, hget, hsockets]

/-- The candidates of hop `i` are the freshest forward addresses of its range, different ones, and
no swap at the hop promotes one that was active there before. -/
structure DistinctCandidates (parse : String → Option Addr) (r : RangeCoverage)
    (t : ChainTarget Addr) (i : Nat) : Prop where
  ranked : KeepsFreshest maxCandidatesPerHop (forwardRecords parse r.providers) (t.candidates i)
  noReturn : ∀ is js, (((t.failovers is).failovers js).failover i).1 = true →
    (((t.failovers is).failovers js).failover i).2.peers[i]? ≠ (t.failovers is).peers[i]?

/-- A range keeps distinct candidates just when, among its three newest records, equal addresses
follow each other, and these records are all different or name every address. -/
theorem distinctCandidates_iff (h : ChainTarget.fromSwarm parse ranges = .ok t) {i : Nat}
    {r : RangeCoverage} (hr : ranges[i]? = some r) :
    DistinctCandidates parse r t i ↔ Apart (names (newestRecords parse r.providers)) := by
  obtain ⟨hshaped, hcands⟩ := fromSwarm_candidates h
  have hperm := newestRecords_perm parse r.providers
  rw [← keepsFreshest_iff_apart (sorted_newestRecords parse r.providers), ← rankedSockets_eq,
    ← hcands i r hr]
  constructor
  · intro hdistinct
    exact hdistinct.ranked.perm hperm.symm
  · intro hkept
    exact ⟨hkept.perm hperm, fun is js => ChainTarget.failover_fresh hshaped hkept.nodup is js⟩

private def dialled (u : String) : Option Nat :=
  if u = "a" then some 0 else if u = "b" then some 1 else if u = "c" then some 2 else none

private def minted (u : String) (at_ : UInt64) : ProviderRecord :=
  ⟨u, [], none, none, some u, at_⟩

/-- The peer at `a` published twice around the one at `b`; the one at `c` is the oldest. -/
private def republished : RangeCoverage :=
  ⟨6, 12, [minted "a" 10, minted "b" 9, minted "a" 8, minted "c" 7]⟩

private def steady : RangeCoverage := ⟨6, 12, [minted "a" 10, minted "b" 9]⟩

private theorem fromSwarm_one {r : RangeCoverage}
    (h : (forwardRecords dialled r.providers).Pairwise fun a b => decide (a.1 ≥ b.1))
    {primary : Nat} {rest : List Nat}
    (hsockets : ((names (forwardRecords dialled r.providers)).take 3).destutter (· ≠ ·) =
      primary :: rest) :
    ChainTarget.fromSwarm dialled [r] = .ok ⟨[primary], [r.start], [rest]⟩ := by
  have hranked : rankedSockets dialled r.providers = primary :: rest := by
    rw [rankedSockets_eq, newestRecords_of_sorted h, hsockets]
  simp [ChainTarget.fromSwarm, swarmHop, hranked]

theorem distinctCandidates_iff_steady :
    DistinctCandidates dialled steady ⟨[0], [6], [[1]]⟩ 0 ↔
      Apart (names (newestRecords dialled steady.providers)) :=
  distinctCandidates_iff (@fromSwarm_one steady (by decide) 0 [1] (by decide)) rfl

/-- The second failover dials the peer that was given up first, and the third peer is left out. -/
theorem republished_peer_dialled_again :
    ChainTarget.fromSwarm dialled [republished] = .ok ⟨[0], [6], [[1, 0]]⟩ ∧
      ((ChainTarget.mk [0] [6] [[1, 0]]).failovers [0, 0]).peers = [0] ∧
      ¬ DistinctCandidates dialled republished ⟨[0], [6], [[1, 0]]⟩ 0 := by
  refine ⟨@fromSwarm_one republished (by decide) 0 [1, 0] (by decide), by decide, fun h => ?_⟩
  exact absurd h.ranked.nodup (by decide)

end IntelNav.App
