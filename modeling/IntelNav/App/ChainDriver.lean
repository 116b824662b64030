import IntelNav.App.Control
import IntelNav.Net.Shards
import IntelNav.Runtime.Chain
import Mathlib.Data.List.Destutter
import Mathlib.Data.List.Forall2

/-! Chains assembled from what the swarm publishes (`crates/app/src/chain_driver.rs`). -/

set_option autoImplicit false
set_option relaxedAutoImplicit false

namespace IntelNav.App

open IntelNav.Core IntelNav.Net IntelNav.Runtime IntelNav.Wire

variable {Addr Conn W : Type}

/-- The active peer of each hop, the layer it starts at, and its backups, freshest first. -/
structure ChainTarget (Addr : Type) where
  peers : List Addr
  splits : List UInt16
  alternates : List (List Addr)
  deriving DecidableEq

inductive TargetError
  | noRanges
  | noProvider (start stop : UInt16)
  deriving DecidableEq

def maxCandidatesPerHop : Nat := 3

def maxFailoverAttempts : Nat := 4

/-- The sockets of one range, freshest first: parsed, sorted by `minted_at`, capped, and without
repeats next to each other. -/
def rankedSockets [DecidableEq Addr] (parse : String → Option Addr)
    (providers : List ProviderRecord) : List Addr :=
  let ranked := providers.filterMap fun p => do
    let u ← p.forwardUrl
    let addr ← parse u
    some (p.mintedAt, addr)
  let sorted := ranked.mergeSort fun a b => a.1 ≥ b.1
  ((sorted.map (·.2)).take maxCandidatesPerHop).destutter (· ≠ ·)

/-- One round of the loop of `from_swarm`: the primary and the alternates of a range. -/
def swarmHop [DecidableEq Addr] (parse : String → Option Addr) (r : RangeCoverage) :
    Except TargetError (Addr × UInt16 × List Addr) :=
  match rankedSockets parse r.providers with
  | [] => .error (.noProvider r.start r.stop)
  | primary :: rest => .ok (primary, r.start, rest)

/-- `ChainTarget::from_swarm`; `parse` reads a socket address. -/
def ChainTarget.fromSwarm [DecidableEq Addr] (parse : String → Option Addr)
    (ranges : List RangeCoverage) : Except TargetError (ChainTarget Addr) :=
  if ranges.isEmpty then .error .noRanges
  else
    match ranges.mapM (swarmHop parse) with
    | .error e => .error e
    | .ok hops =>
        .ok
          { peers := hops.map (·.1), splits := hops.map (·.2.1), alternates := hops.map (·.2.2) }

/-- Promote the next alternate of hop `i`, and whether there was one. -/
def ChainTarget.failover (t : ChainTarget Addr) (i : Nat) : Bool × ChainTarget Addr :=
  match t.alternates[i]? with
  | some (next :: rest) =>
      (i < t.peers.length,
        { t with peers := t.peers.set i next, alternates := t.alternates.set i rest })
  | _ => (false, t)

def failedIndex : ChainError Addr → Option Nat
  | .connect i .. | .timeout i .. | .handshake i .. | .aborted i .. | .dropped i .. => some i
  | .other _ => none

/-- The configuration `connect_with_failover` connects with. -/
def ChainTarget.cfg (t : ChainTarget Addr) (modelName : String) (wireDtype : Dtype) :
    ChainCfg Addr :=
  { peers := t.peers, splits := t.splits, protoVer := 1, modelCid := modelName, maxSeq := 2048,
    wireDtype }

section Connect

variable (net : Net Addr Conn W) (cd : Codec) (modelName : String) (nBlocks : UInt16)
  (wireDtype : Dtype)

/-- The loop of `connect_with_failover`, with the swaps that are left: the chain or the error, the
target with its swaps, and the status lines sent. -/
def connectAttempts : Nat → ChainTarget Addr → W →
    Except (ChainError Addr) (Chain Addr Conn) × ChainTarget Addr × List String × W
  | left, t, w =>
      match Chain.connect net cd (t.cfg modelName wireDtype) nBlocks w with
      | (.ok chain, w) => (.ok chain, t, [], w)
      | (.error e, w) =>
          match failedIndex e, left with
          | some i, left + 1 =>
              match t.failover i with
              | (false, t) => (.error e, t, [], w)
              | (true, t) =>
                  let (r, t, sent, w) := connectAttempts left t w
                  (r, t, s!"[swarm] hop {i} unreachable, swapping to backup\n" :: sent, w)
          | _, _ => (.error e, t, [], w)

/-- Open a chain, swapping in alternates for a hop whose connect fails. -/
def connectWithFailover (t : ChainTarget Addr) (w : W) :
    Except (ChainError Addr) (Chain Addr Conn) × ChainTarget Addr × List String × W :=
  connectAttempts net cd modelName nBlocks wireDtype maxFailoverAttempts t w

end Connect

/-- The ranges cover `[start, stop)` one after the other. -/
def Covers : Nat → List RangeCoverage → Nat → Prop
  | start, [], stop => start = stop
  | start, r :: rs, stop => r.start.toNat = start ∧ start < r.stop.toNat ∧
    Covers r.stop.toNat rs stop

/-- A provider of the range has a socket address, and the host there announces its slice. -/
def Hosted (parse : String → Option Addr) (hosts : Addr → ControlState) (modelCid : String)
    (r : RangeCoverage) : Prop :=
  ∃ p ∈ r.providers, ∃ u addr entry, p.forwardUrl = some u ∧ parse u = some addr ∧
    (hosts addr).slices.lookup (modelCid, r.start, r.stop) = some entry ∧
    entry.state = .announcing

/-- The key in the session request of hop `i`. -/
def sessionKey (cfg : ChainCfg Addr) (nBlocks : UInt16) (i : Nat) : SliceKey :=
  (cfg.modelCid, (cfg.layers nBlocks i).start, (cfg.layers nBlocks i).stop)

/-- The swarm's ranges give a target that `Chain::connect` accepts, and each hop asks for the very
slice its range announces. -/
def DriverAgrees [DecidableEq Addr] (parse : String → Option Addr) (modelName modelCid : String)
    (nBlocks : UInt16) (wireDtype : Dtype) (ranges : List RangeCoverage) : Prop :=
  ∃ t, ChainTarget.fromSwarm parse ranges = .ok t ∧
    (t.cfg modelName wireDtype).validate nBlocks = .ok () ∧
    ∀ i r, ranges[i]? = some r →
      sessionKey (t.cfg modelName wireDtype) nBlocks i = (modelCid, r.start, r.stop)

private theorem mapM_swarmHop [DecidableEq Addr] {parse : String → Option Addr}
    {ranges : List RangeCoverage} {hops : List (Addr × UInt16 × List Addr)}
    (h : ranges.mapM (swarmHop parse) = .ok hops) :
    hops.map (·.2.1) = ranges.map (·.start) := by
  induction ranges generalizing hops with
  | nil =>
      obtain rfl : [] = hops := Except.ok.inj h
      rfl
  | cons r rs ih =>
      rw [List.mapM_cons] at h
      cases hhop : swarmHop parse r with
      | error e =>
          rw [hhop] at h
          cases h
      | ok hop =>
          cases hrest : rs.mapM (swarmHop parse) with
          | error e =>
              rw [hhop, hrest] at h
              cases h
          | ok rest =>
              obtain rfl : hop :: rest = hops := by
                rw [hhop, hrest] at h
                exact Except.ok.inj h
              rw [List.map_cons, List.map_cons, ih hrest]
              simp only [swarmHop] at hhop
              split at hhop
              · cases hhop
              · obtain rfl := Except.ok.inj hhop
                rfl

theorem fromSwarm_splits [DecidableEq Addr] {parse : String → Option Addr}
    {ranges : List RangeCoverage} {t : ChainTarget Addr}
    (h : ChainTarget.fromSwarm parse ranges = .ok t) :
    ranges ≠ [] ∧ t.splits = ranges.map (·.start) ∧ t.peers.length = t.splits.length := by
  unfold ChainTarget.fromSwarm at h
  split at h
  · cases h
  · rename_i hne
    split at h
    · cases h
    · rename_i hops hhops
      obtain rfl := Except.ok.inj h
      exact ⟨by simpa using hne, mapM_swarmHop hhops, by simp⟩

private theorem increasing_of_covers {a b : Nat} {ranges : List RangeCoverage}
    (h : Covers a ranges b) : increasing (ranges.map (·.start)) = true := by
  induction ranges generalizing a with
  | nil => rfl
  | cons r rs ih =>
      obtain ⟨hstart, hlt, hrest⟩ := h
      have hinc := ih hrest
      cases rs with
      | nil => rfl
      | cons r' rs =>
          have hnext : r'.start.toNat = r.stop.toNat := hrest.1
          have hstep : r.start < r'.start := by
            rw [UInt16.lt_iff_toNat_lt]
            omega
          simp only [List.map_cons, increasing] at hinc ⊢
          simp [hstep, hinc]

private theorem validate_fromSwarm [DecidableEq Addr] {parse : String → Option Addr}
    {ranges : List RangeCoverage} {t : ChainTarget Addr} {stop : Nat}
    (hcovers : Covers 0 ranges stop)
    (h : ChainTarget.fromSwarm parse ranges = .ok t) (modelName : String) (nBlocks : UInt16)
    (wireDtype : Dtype) :
    (t.cfg modelName wireDtype).validate nBlocks = .error .firstSplitZero := by
  obtain ⟨hne, hsplits, hlen⟩ := fromSwarm_splits h
  have hinc : increasing t.splits = true := hsplits ▸ increasing_of_covers hcovers
  have hfirst : t.splits.headD 0 = 0 := by
    cases ranges with
    | nil => exact absurd rfl hne
    | cons r rs =>
        rw [hsplits, List.map_cons, List.headD_cons, ← UInt16.toNat_inj]
        exact hcovers.1
  have hpeers : t.peers ≠ [] := by
    intro hnil
    rw [hnil, hsplits, List.length_nil, List.length_map] at hlen
    exact hne (List.eq_nil_of_length_eq_zero hlen.symm)
  have hempty : t.peers.isEmpty = false := by simpa using hpeers
  simp only [ChainCfg.validate, ChainTarget.cfg, hempty, hlen, hinc, hfirst, ne_eq,
    not_true_eq_false, Bool.not_true, Bool.false_eq_true, if_false, if_true]

/-- The ranges of a whole model never give a target that agrees with its hosts: it is refused
before any peer is dialled. -/
theorem swarm_target_never_connects [DecidableEq Addr] (parse : String → Option Addr)
    (modelName modelCid : String) (nBlocks : UInt16) (wireDtype : Dtype)
    (ranges : List RangeCoverage) (hcovers : Covers 0 ranges nBlocks.toNat) :
    ¬ DriverAgrees parse modelName modelCid nBlocks wireDtype ranges ∧
      ∀ (Conn W : Type) (net : Net Addr Conn W) (cd : Codec) (t : ChainTarget Addr) (w : W),
        ChainTarget.fromSwarm parse ranges = .ok t →
        connectWithFailover net cd modelName nBlocks wireDtype t w =
          (.error (.other .firstSplitZero), t, [], w) := by
  constructor
  · rintro ⟨t, ht, hvalid, -⟩
    rw [validate_fromSwarm hcovers ht] at hvalid
    cases hvalid
  · intro Conn W net cd t w ht
    simp only [connectWithFailover, connectAttempts, Chain.connect,
      validate_fromSwarm hcovers ht modelName nBlocks wireDtype, failedIndex]

private def wholeModel : List RangeCoverage :=
  [⟨0, 4, [⟨"p", [], none, none, some "10.0.0.2:7717", 1⟩]⟩]

private def parseOne (u : String) : Option Nat := if u = "10.0.0.2:7717" then some 0 else none

private def announcingHost (modelCid : String) : ControlState :=
  (ControlState.new "p" 0).upsertAnnouncing (modelCid, 0, 4) "m"

theorem swarm_target_never_connects_four_blocks :
    ¬ DriverAgrees parseOne "m" "m" 4 .fp16 wholeModel :=
  (swarm_target_never_connects parseOne "m" "m" 4 .fp16 wholeModel
    ⟨rfl, by decide, rfl⟩).1

/-- One host announces the whole model and would admit a chain for it, and the name of the local
model is its cid: the driver still never asks. -/
theorem announced_model_not_reached :
    Covers 0 wholeModel 4 ∧
    (∀ r ∈ wholeModel, Hosted parseOne (fun _ => announcingHost "m") "m" r) ∧
      ((announcingHost "m").acceptChain ("m", 0, 4)).isSome ∧
      ¬ DriverAgrees parseOne "m" "m" 4 .fp16 wholeModel := by
  have hcovers : Covers 0 wholeModel 4 := ⟨rfl, by decide, rfl⟩
  refine ⟨hcovers, ?_, by decide, ?_⟩
  · intro r hr
    obtain rfl := List.mem_singleton.mp hr
    exact ⟨_, List.mem_singleton_self _, _, 0, _, rfl, rfl, rfl, rfl⟩
  · rintro ⟨t, ht, hvalid, -⟩
    rw [validate_fromSwarm hcovers ht] at hvalid
    cases hvalid

end IntelNav.App
