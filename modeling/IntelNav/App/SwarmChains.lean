import IntelNav.App.Candidates
import IntelNav.Net.Discovery

/-! Chains made of what the swarm announces: from a host's announcement to the sockets the chain
driver dials (`crates/net/src/swarm_index.rs`, `crates/app/src/chain_driver.rs`). -/

set_option autoImplicit false
set_option relaxedAutoImplicit false

namespace IntelNav.App

open IntelNav.Net IntelNav.Transition

variable {Socket : Type} [DecidableEq Socket] {parse : String → Option Socket}

private theorem mem_rankedSockets {providers : List ProviderRecord} {a : Socket}
    (h : a ∈ rankedSockets parse providers) :
    ∃ p ∈ providers, ∃ u, p.forwardUrl = some u ∧ parse u = some a := by
  rw [rankedSockets_eq] at h
  have hname := List.mem_of_mem_take ((List.destutter_sublist _ _).subset h)
  obtain ⟨x, hx, rfl⟩ := List.mem_map.mp hname
  have hrecord := (newestRecords_perm parse providers).mem_iff.mp hx
  obtain ⟨p, hp, hpx⟩ := List.mem_filterMap.mp hrecord
  obtain ⟨u, hu, hpx⟩ := Option.bind_eq_some_iff.mp hpx
  obtain ⟨addr, haddr, hpx⟩ := Option.bind_eq_some_iff.mp hpx
  obtain rfl := Option.some.inj hpx
  exact ⟨p, hp, u, hu, haddr⟩

omit [DecidableEq Socket] in
private theorem splits_failovers (t : ChainTarget Socket) (is : List Nat) :
    (t.failovers is).splits = t.splits := by
  induction is generalizing t with
  | nil => rfl
  | cons i is ih =>
      have hone : (t.failover i).2.splits = t.splits := by
        unfold ChainTarget.failover
        split <;> rfl
      exact (ih _).trans hone

private theorem peer_of_range {ranges : List RangeCoverage} {t : ChainTarget Socket}
    (ht : ChainTarget.fromSwarm parse ranges = .ok t) (is : List Nat) {i : Nat} {a : Socket}
    (hpeer : (t.failovers is).peers[i]? = some a) :
    ∃ r, ranges[i]? = some r ∧ (t.failovers is).splits[i]? = some r.start ∧
      a ∈ rankedSockets parse r.providers := by
  obtain ⟨hshaped, hcands⟩ := fromSwarm_candidates ht
  obtain ⟨-, hsplits, hlen⟩ := fromSwarm_splits ht
  obtain ⟨hlater, hsuffix⟩ := ChainTarget.failovers_candidates hshaped is
  have hcand : a ∈ t.candidates i := by
    apply (hsuffix i).subset
    apply List.mem_of_head?
    rw [ChainTarget.head?_candidates hlater, hpeer]
  have hin : i < ranges.length := by
    by_contra hout
    have hpeers : t.peers.length ≤ i := by
      rw [hlen, hsplits, List.length_map]
      exact Nat.le_of_not_lt hout
    have halts : t.alternates.length ≤ i := hshaped.trans_le hpeers
    rw [ChainTarget.candidates, List.getElem?_eq_none hpeers, List.getElem?_eq_none halts] at hcand
    cases hcand
  have hr := List.getElem?_eq_getElem hin
  refine ⟨ranges[i], hr, ?_, hcands i _ hr ▸ hcand⟩
  rw [splits_failovers, hsplits, List.getElem?_map, hr]
  rfl

section Swarm

variable {Peer Addr Key Query Name : Type} [DecidableEq Name] [DecidableEq Query]
  {blake3 : List UInt8 → Key} {es : List (Name × NodeEvent Peer Addr Key Query)}
  {net : Name → Libp2pNode Peer Addr Key Query} {rd : RecordReader}

/-- A chain put together from a refreshed view of the swarm dials, for each hop and after any
failovers, a socket that some node has announced for exactly the layers of that hop. -/
theorem chain_dials_announced (hblake3 : Function.Injective blake3)
    (hrun : SwarmRun blake3 es net) (hread : ReadsBack rd net) {n : Name} {cid : String}
    {model : Except String (List Value)}
    {shards : List ((UInt16 × UInt16) × Except String (List Value))}
    (hreplied : ∀ x ∈ shards, (net n).Replied (.shard cid x.1.1 x.1.2) x.2)
    {t : ChainTarget Socket}
    (ht : ChainTarget.fromSwarm parse (refreshOne rd cid model shards).ranges = .ok t)
    (is : List Nat) {i : Nat} {a : Socket} (hpeer : (t.failovers is).peers[i]? = some a) :
    ∃ start stop p u, (shards.map Prod.fst)[i]? = some (start, stop) ∧
      (t.failovers is).splits[i]? = some start ∧ Announced net (.shard cid start stop p) ∧
      p.forwardUrl = some u ∧ parse u = some a := by
  obtain ⟨r, hr, hsplit, ha⟩ := peer_of_range ht is hpeer
  obtain ⟨x, hx, rfl⟩ := Option.map_eq_some_iff.mp ((List.getElem?_map ..).symm.trans hr)
  obtain ⟨p, hp, u, hu, haddr⟩ := mem_rankedSockets ha
  have hannounced := providers_announced hblake3 hrun hread
    (hreplied x (List.mem_of_getElem? hx)) hp
  refine ⟨x.1.1, x.1.2, p, u, ?_, hsplit, hannounced, hu, haddr⟩
  rw [List.getElem?_map, hx]
  rfl

end Swarm

private def parseSample (u : String) : Option Nat := if u = "10.0.0.7:7717" then some 7 else none

private theorem rankedSockets_sample : rankedSockets parseSample [sampleRecord] = [7] := by
  have hparse : parseSample "10.0.0.7:7717" = some 7 := if_pos rfl
  have hrecords : forwardRecords parseSample [sampleRecord] = [(1, 7)] := by
    simp [forwardRecords, sampleRecord, hparse]
  have hnewest : newestRecords parseSample [sampleRecord] = [(1, 7)] := by
    rw [newestRecords_of_sorted (hrecords ▸ List.pairwise_singleton _ _), hrecords]
  rw [rankedSockets_eq, hnewest]
  rfl

theorem chain_dials_announced_sample : ∃ net : Bool → Libp2pNode Nat Nat (List UInt8) Nat,
    SwarmRun id announcedThenFound net ∧ ∃ start stop p u,
      [((0 : UInt16), (8 : UInt16))][0]? = some (start, stop) ∧
        Announced net (.shard "qwen" start stop p) ∧ p.forwardUrl = some u ∧
        parseSample u = some 7 := by
  obtain ⟨net, hrun, htrue, hfalse, hlookups, -, hreply⟩ := announcedThenFound_run
  have hlookup : (1, sampleShard.topic) ∈ (net false).lookups := by
    rw [hlookups]
    exact List.mem_cons_self
  have ht : ChainTarget.fromSwarm parseSample sampleView.ranges = .ok ⟨[7], [0], [[]]⟩ := by
    rw [sampleView_eq]
    simp [ChainTarget.fromSwarm, swarmHop, rankedSockets_sample]
  have hshards : ∀ x ∈ [(((0 : UInt16), (8 : UInt16)), Except.ok [sampleShard.value])],
      (net false).Replied (.shard "qwen" x.1.1 x.1.2) x.2 := by
    intro x hx
    obtain rfl := List.mem_singleton.mp hx
    exact replied_sample hlookup hreply
  obtain ⟨start, stop, p, u, hrange, -, hrest⟩ := chain_dials_announced Function.injective_id hrun
    (sampleReader_readsBack htrue hfalse) hshards ht [] (i := 0) rfl
  exact ⟨net, hrun, start, stop, p, u, hrange, hrest⟩

end IntelNav.App
