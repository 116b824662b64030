import IntelNav.Runtime.SpecRounds
import IntelNav.System.Connect
import IntelNav.System.Passes

/-! The target of a speculative turn over honest peers: what its passes, its commits and its start
do to the caches of the front slice and of the slices behind the hops. -/

set_option autoImplicit false
set_option relaxedAutoImplicit false

namespace IntelNav.System

open IntelNav.App IntelNav.Core IntelNav.Decoding IntelNav.Ggml IntelNav.Runtime IntelNav.Stream
open IntelNav.Wire

variable {Addr F E K : Type} [F32 F]

section Rows

variable (g : RowModel F E) (cfg : ChainCfg Addr) (nBlocks : UInt16)

def ranges : List LayerRange := (List.range cfg.peers.length).map (cfg.layers nBlocks)

def frontRows (ts : List UInt32) : List (List F) :=
  g.through 0 (cfg.splits.headD 0).toNat (g.embedAll ts)

def targetRows (ts : List UInt32) : List (List F) :=
  acrossLegs cfg.wireDtype g (ranges cfg nBlocks) (frontRows g cfg ts)

def targetNext (ts : List UInt32) : UInt32 := g.best (targetRows g cfg nBlocks ts)

variable {g cfg nBlocks}

omit [F32 F] in
private theorem causal_embedAll : Causal g.embedAll := .map g.embed

omit [F32 F] in
theorem causal_frontRows : Causal (frontRows g cfg) :=
  causal_embedAll.comp (RowModel.causal_through _ _)

omit [F32 F] in
private theorem width_frontRows (ts : List UInt32) : ∀ r ∈ frontRows g cfg ts,
    r.length = g.width := by
  rw [frontRows]
  exact RowModel.width_through RowModel.width_embedAll

theorem causal_targetRows : Causal (targetRows g cfg nBlocks) :=
  causal_acrossLegs causal_frontRows _

private theorem width_targetRows (ts : List UInt32) :
    ∀ r ∈ targetRows g cfg nBlocks ts, r.length = g.width :=
  width_acrossLegs (width_frontRows ts)

end Rows

/-- The front slice holds the tokens `ts`, and the slices behind the hops `ts` and `us`, after `n`
steps; nothing is on its way. -/
structure TargetHolds (m : Pipelined F K) (layer : K → Nat → List E) (g : RowModel F E) (room : Nat)
    (cfg : ChainCfg Addr) (nBlocks : UInt16) (session : Nat → SessionId) (n : Nat)
    (ts us : List UInt32) (t : Target K Addr Nat (Peers Addr F K)) (hs : List (Hop Addr K)) :
    Prop where
  chain_eq : t.chain = ⟨cfg, hs.map Hop.link, cfg.splits.headD 0⟩
  front : ∀ i < (cfg.splits.headD 0).toNat, layer t.kv i = g.cached 0 (g.embedAll ts) i
  attached : ∀ h ∈ hs, Attached m t.world h
  apart : hs.Pairwise Apart
  legs_eq : hs.map Hop.leg = legs cfg nBlocks session
  caught : Caught cfg.wireDtype g layer n (frontRows g cfg (ts ++ us)) hs
  room_le : (ts ++ us).length ≤ room

omit [F32 F] in
private theorem layers_of_legs {cfg : ChainCfg Addr} {nBlocks : UInt16} {session : Nat → SessionId}
    {hs : List (Hop Addr K)} (h : hs.map Hop.leg = legs cfg nBlocks session) :
    (hs.map fun h => h.link.layers) = ranges cfg nBlocks := by
  have hfst := congrArg (List.map Prod.fst) h
  rw [List.map_map, legs, List.map_map] at hfst
  exact hfst

section Passes

variable [DecidableEq Addr] {cd : Codec} {cut : Nat → List UInt8 → List (List UInt8)}
  {m : Pipelined F K} {layer : K → Nat → List E} {g : RowModel F E} {room : Nat}
  {cfg : ChainCfg Addr} {nBlocks : UInt16} {session : Nat → SessionId} {n : Nat}
  {ts us ids : List UInt32}
  {t t' : Target K Addr Nat (Peers Addr F K)} {hs : List (Hop Addr K)} {logits : Hidden F}

theorem connect_holds (hm : Computes m layer g room) (hcd : cd.RoundTrips) (hcut : Cuts cut)
    (hvalid : cfg.validate nBlocks = .ok ()) {w : Peers Addr F K}
    (hwf : ∀ a, WellFormed (w.servers a))
    (hready : ∀ i addr, cfg.peers[i]? = some addr →
      Ready m cfg.modelCid (cfg.layers nBlocks i) (w.servers addr))
    (hfits : HandshakeFits cd cfg nBlocks fun i => w.ids (w.drawn + i)) (kv : K) :
    ∃ chain w' hs, Chain.connect (peersNet cd cut) cd cfg nBlocks w = (.ok chain, w') ∧
      TargetHolds m layer g room cfg nBlocks (fun i => w.ids (w.drawn + i)) 0 [] []
        ⟨m.resetCache kv, chain, w'⟩ hs := by
  obtain ⟨hs, w', hconnect, hatt, hapart, hlen, hfresh⟩ :=
    connect_spec (m := m) hcd hcut hvalid hwf hready hfits
  refine ⟨_, w', hs, hconnect, rfl, fun i _ => ?_, hatt, hapart, legs_of_fresh hlen hfresh, ?_,
    Nat.zero_le _⟩
  · rw [hm.resetCache, RowModel.embedAll, List.map_nil, RowModel.cached_nil]
  · rw [List.append_nil, frontRows, RowModel.embedAll, List.map_nil, RowModel.through_nil]
    refine caught_nil fun a ha => ?_
    obtain ⟨i, hi⟩ := List.getElem?_of_mem ha
    have hf := hfresh i a hi
    obtain ⟨k, hk⟩ := hf.kv_eq
    exact ⟨hf.seq_eq, hf.pos_eq, fun j => by rw [hk, hm.resetCache]⟩

omit [F32 F] [DecidableEq Addr] in
private theorem frontForward_ok {pos frontEnd : Nat} {kv kv' : K} {front : Hidden F}
    (h : frontForward m ids pos frontEnd kv = (.ok front, kv')) :
    ∃ x kv₁, m.embed ids kv = (.ok x, kv₁) ∧
      m.forwardRange x pos 0 frontEnd kv₁ = (.ok front, kv') := by
  rw [frontForward] at h
  cases hembed : m.embed ids kv with
  | mk r kv₁ =>
  rw [hembed] at h
  cases r with
  | error e => cases (Prod.mk.inj h).1
  | ok x => exact ⟨x, kv₁, rfl, h⟩

/-- A pass gives logits only where the front slice, the hops and the head all come through. -/
private theorem pass_ok {head : Hidden F → K → Except String (Hidden F) × K} {keep : Option UInt32}
    {phase : Phase} {pos : Nat}
    (hpass : t.pass (peersNet cd cut) cd m head keep phase ids pos = (.ok logits, t')) :
    ∃ front kv₁ tail links w kv₂,
      frontForward m ids pos t.chain.frontEnd.toNat t.kv = (.ok front, kv₁) ∧
      hops (peersNet cd cut) cd t.chain.cfg.wireDtype phase keep 0 t.chain.links front t.world =
        (.ok tail, links, w) ∧
      head tail kv₁ = (.ok logits, kv₂) ∧ t' = ⟨kv₂, { t.chain with links }, w⟩ := by
  rw [Target.pass] at hpass
  cases hfront : frontForward m ids pos t.chain.frontEnd.toNat t.kv with
  | mk r kv₁ =>
  rw [hfront] at hpass
  cases r with
  | error e => cases (Prod.mk.inj hpass).1
  | ok front =>
  dsimp only [Chain.stepWithTruncate] at hpass
  cases hhops : hops (peersNet cd cut) cd t.chain.cfg.wireDtype phase keep 0 t.chain.links front
      t.world with
  | mk r rest =>
  obtain ⟨links, w⟩ := rest
  rw [hhops] at hpass
  cases r with
  | error e => cases (Prod.mk.inj hpass).1
  | ok tail =>
  dsimp only at hpass
  cases hhead : head tail kv₁ with
  | mk r kv₂ =>
  rw [hhead] at hpass
  cases r with
  | error e => cases (Prod.mk.inj hpass).1
  | ok y =>
      obtain ⟨hy, rfl⟩ := Prod.mk.inj hpass
      obtain rfl := Except.ok.inj hy
      exact ⟨front, kv₁, tail, links, w, kv₂, rfl, hhops, hhead, rfl⟩

/-- A pass that gets through goes on from the tokens kept: the head is given their rows, and all
caches hold the new tokens too. -/
private theorem pass_holds (hm : Computes m layer g room) (hcd : cd.RoundTrips) (hcut : Cuts cut)
    (hvalid : cfg.validate nBlocks = .ok ()) (hblocks : g.blocks = nBlocks.toNat)
    (h : TargetHolds m layer g room cfg nBlocks session n ts us t hs) {keep : Option UInt32}
    (hkeep : Keeps keep ts us) (hids : ids ≠ []) {phase : Phase}
    {head : Hidden F → K → Except String (Hidden F) × K}
    (hhead : ∀ rows k y k', (∀ r ∈ rows, r.length = g.width) →
      head (ofRows g.width rows) k = (.ok y, k') → layer k' = layer k)
    (hpass : t.pass (peersNet cd cut) cd m head keep phase ids ts.length = (.ok logits, t')) :
    (∃ k, head (ofRows g.width (later (targetRows g cfg nBlocks) ts ids)) k = (.ok logits, t'.kv)) ∧
      ∃ hs', TargetHolds m layer g room cfg nBlocks session (n + 1) (ts ++ ids) [] t' hs' := by
  obtain ⟨kv, chain, w⟩ := t
  obtain ⟨rfl, hfront, hatt, hapart, hlegs, hcaught, hroom⟩ := h
  dsimp only at hfront hatt
  have hspans : Spans (cfg.splits.headD 0).toNat (hs.map fun h => h.link.layers) g.blocks := by
    rw [hblocks]
    exact spans_legs hvalid hlegs
  have hlayers : (hs.map fun h => h.link.layers) = ranges cfg nBlocks := layers_of_legs hlegs
  obtain ⟨front, kv₂, tail, links, w', kv₃, hrun, hhops, hheadRun, rfl⟩ := pass_ok hpass
  obtain ⟨x, kv₁, hembed, hrun⟩ := frontForward_ok hrun
  obtain ⟨rfl, hlayer₁⟩ := hm.embed _ _ _ _ hembed
  rw [show g.embedAll ids = later g.embedAll ts ids from (Causal.later_map g.embed ts ids).symm]
    at hrun
  obtain ⟨rfl, hkept, -, hroom'⟩ := hm.range_later causal_embedAll
    (fun _ => RowModel.width_embedAll) (Nat.zero_le _) hspans.le
    (fun i _ hi => by rw [hlayer₁, hfront i hi]) hrun
  have hfrontRows : (fun ts => g.through 0 (cfg.splits.headD 0).toNat (g.embedAll ts)) =
      frontRows g cfg := rfl
  dsimp only at hhops
  rw [hfrontRows] at hhops
  obtain ⟨hall, ⟨z, hs'⟩, hfeed⟩ := allSent_of_hops hcd hcut hm causal_frontRows width_frontRows
    hspans le_rfl hkeep hroom hids hcaught hatt hapart hhops
  obtain ⟨hz, hcaught'⟩ := feedAll_caught hm causal_frontRows width_frontRows hspans le_rfl hkeep
    hroom hcaught hfeed
  obtain ⟨w₁, heq, hatt', -⟩ := (hops_spec hcd hcut hs hatt hapart hall 0).2 z hs' hfeed
  rw [hhops] at heq
  obtain ⟨htail, hrest⟩ := Prod.mk.inj heq
  obtain rfl := Except.ok.inj htail
  obtain ⟨rfl, rfl⟩ := Prod.mk.inj hrest
  rw [hlayers] at hz
  rw [hz] at hheadRun
  have hlayer₃ := hhead _ _ _ _ (Causal.forall_mem_later width_targetRows ts ids) hheadRun
  refine ⟨⟨kv₂, hheadRun⟩, hs', rfl, fun i hi => ?_, hatt', apart_of_feedAll hapart hfeed,
    (legs_of_feedAll hfeed).trans hlegs, ?_, ?_⟩
  · rw [hlayer₃, hkept i (Nat.zero_le i) hi]
  · rw [List.append_nil]
    exact hcaught'
  · rw [List.append_nil, List.length_append]
    exact hroom'

theorem pass_headAll (hm : Computes m layer g room) (hcd : cd.RoundTrips) (hcut : Cuts cut)
    (hvalid : cfg.validate nBlocks = .ok ()) (hblocks : g.blocks = nBlocks.toNat)
    (h : TargetHolds m layer g room cfg nBlocks session n ts [] t hs) (hids : ids ≠ [])
    {phase : Phase}
    (hpass : t.pass (peersNet cd cut) cd m m.headAll none phase ids ts.length =
      (.ok logits, t')) :
    logits = g.allLogits (later (targetRows g cfg nBlocks) ts ids) ∧
      ∃ hs', TargetHolds m layer g room cfg nBlocks session (n + 1) (ts ++ ids) [] t' hs' := by
  have hkeep : Keeps none ts [] := rfl
  obtain ⟨⟨k, hhead⟩, hs', hh⟩ := pass_holds hm hcd hcut hvalid hblocks h hkeep hids
    (fun rows k y k' hrows hrun => (hm.headAll rows k y k' hrows hrun).2) hpass
  exact ⟨(hm.headAll _ _ _ _ (Causal.forall_mem_later width_targetRows ts ids) hhead).1, hs', hh⟩

theorem pass_head (hm : Computes m layer g room) (hcd : cd.RoundTrips) (hcut : Cuts cut)
    (hvalid : cfg.validate nBlocks = .ok ()) (hblocks : g.blocks = nBlocks.toNat)
    (h : TargetHolds m layer g room cfg nBlocks session n ts us t hs) {keep : Option UInt32}
    (hkeep : Keeps keep ts us) (hids : ids ≠ []) {phase : Phase}
    (hpass : t.pass (peersNet cd cut) cd m m.head keep phase ids ts.length = (.ok logits, t')) :
    logits = g.logits (targetRows g cfg nBlocks (ts ++ ids)) ∧
      ∃ hs', TargetHolds m layer g room cfg nBlocks session (n + 1) (ts ++ ids) [] t' hs' := by
  obtain ⟨⟨k, hhead⟩, hs', hh⟩ := pass_holds hm hcd hcut hvalid hblocks h hkeep hids
    (fun rows k y k' hrows hrun => (hm.head rows k y k' hrows hrun).2) hpass
  obtain ⟨⟨r, hr, rfl⟩, -⟩ :=
    hm.head _ _ _ _ (Causal.forall_mem_later width_targetRows ts ids) hhead
  refine ⟨?_, hs', hh⟩
  rw [RowModel.logits, causal_targetRows.append_later, List.getLastD_eq_getLast?,
    List.getLast?_append, hr]
  rfl

omit [DecidableEq Addr] in
theorem TargetHolds.truncate (hm : Computes m layer g room)
    (h : TargetHolds m layer g room cfg nBlocks session n (ts ++ us) [] t hs) {kv : K}
    (hcut : m.truncateKvTo ts.length t.kv = (.ok (), kv)) :
    TargetHolds m layer g room cfg nBlocks session n ts us { t with kv } hs := by
  obtain ⟨hchain, hfront, hatt, hapart, hlegs, hcaught, hroom⟩ := h
  rw [List.append_nil] at hcaught hroom
  have hlen : ts.length = (g.embedAll ts).length := (List.length_map _).symm
  have hle : ts.length ≤ room := by
    rw [List.length_append] at hroom
    omega
  refine ⟨hchain, fun i hi => ?_, hatt, hapart, hlegs, hcaught, hroom⟩
  rw [hm.truncateKvTo _ _ _ hle hcut, hfront i hi, embedAll_append, hlen, RowModel.take_cached]

theorem commit_holds (hm : Computes m layer g room) (hcd : cd.RoundTrips) (hcut : Cuts cut)
    (hvalid : cfg.validate nBlocks = .ok ()) (hblocks : g.blocks = nBlocks.toNat)
    (h : TargetHolds m layer g room cfg nBlocks session n (ts ++ us) [] t hs) {last : UInt32}
    (hcommit : t.commit (peersNet cd cut) cd m ts.length last = (.ok logits, t')) :
    logits = g.logits (targetRows g cfg nBlocks (ts ++ [last])) ∧
      ∃ hs', TargetHolds m layer g room cfg nBlocks session (n + 1) (ts ++ [last]) [] t' hs' := by
  have hroom := h.room_le
  rw [List.append_nil] at hroom
  have hle : ts.length ≤ room := by
    rw [List.length_append] at hroom
    omega
  rw [Target.commit] at hcommit
  cases hcutKv : m.truncateKvTo ts.length t.kv with
  | mk r kv =>
  cases r with
  | error e =>
      rw [hcutKv] at hcommit
      cases (Prod.mk.inj hcommit).1
  | ok u =>
  rw [hcutKv] at hcommit
  dsimp only at hcommit
  have hkeep : Keeps (some (UInt32.ofNat ts.length)) ts us :=
    UInt32.toNat_ofNat_of_lt' (lt_of_le_of_lt hle hm.room_lt)
  exact pass_head hm hcd hcut hvalid hblocks (h.truncate hm hcutKv) hkeep (by simp) hcommit

variable {seqs : Nat}

theorem pass_total (hm : Computes m layer g room) (ht : Unfailing m layer g room)
    (hcd : cd.RoundTrips) (hcut : Cuts cut) (hvalid : cfg.validate nBlocks = .ok ())
    (hblocks : g.blocks = nBlocks.toNat)
    (hdelivers : ∀ i < cfg.peers.length,
      Delivers cd cfg.wireDtype F g.width room seqs (session i))
    (h : TargetHolds m layer g room cfg nBlocks session n ts us t hs) {keep : Option UInt32}
    (hkeep : Keeps keep ts us) (hids : ids ≠ []) (hnext : (ts ++ ids).length ≤ room)
    (hseqs : n + 1 ≤ seqs) (phase : Phase) {head : Hidden F → K → Except String (Hidden F) × K}
    (hhead : ∀ rows k, rows ≠ [] → rows.length ≤ room → (∀ r ∈ rows, r.length = g.width) →
      ∃ y k', head (ofRows g.width rows) k = (.ok y, k')) :
    ∃ logits t', t.pass (peersNet cd cut) cd m head keep phase ids ts.length =
      (.ok logits, t') := by
  obtain ⟨kv, chain, w⟩ := t
  obtain ⟨rfl, hfront, hatt, hapart, hlegs, hcaught, hroom⟩ := h
  dsimp only at hfront hatt
  have hspans : Spans (cfg.splits.headD 0).toNat (hs.map fun h => h.link.layers) g.blocks := by
    rw [hblocks]
    exact spans_legs hvalid hlegs
  have hlayers : (hs.map fun h => h.link.layers) = ranges cfg nBlocks := layers_of_legs hlegs
  have hlen : ts.length + ids.length ≤ room := by rwa [List.length_append] at hnext
  obtain ⟨x, kv₁, hembed⟩ := ht.embed ids kv hids (by omega)
  obtain ⟨rfl, hlayer₁⟩ := hm.embed _ _ _ _ hembed
  have hne : g.embedAll ids ≠ [] := by simpa [RowModel.embedAll] using hids
  obtain ⟨front, kv₂, hrun⟩ := ht.forwardRange (g.embedAll ids) ts.length 0
    (cfg.splits.headD 0).toNat kv₁ hne (by rwa [RowModel.embedAll, List.length_map])
    (Nat.zero_le _) hspans.le RowModel.width_embedAll fun i _ hi => by
      rw [hlayer₁, hfront i hi, RowModel.length_cached, RowModel.embedAll, List.length_map]
  have hrun' := hrun
  rw [show g.embedAll ids = later g.embedAll ts ids from (Causal.later_map g.embed ts ids).symm]
    at hrun'
  obtain ⟨rfl, -, -, -⟩ := hm.range_later causal_embedAll
    (fun _ => RowModel.width_embedAll) (Nat.zero_le _) hspans.le
    (fun i _ hi => by rw [hlayer₁, hfront i hi]) hrun'
  have hdelivers' : ∀ h ∈ hs, Delivers cd cfg.wireDtype F g.width room seqs h.link.session := by
    intro h hh
    have hmem : h.leg ∈ legs cfg nBlocks session := hlegs ▸ List.mem_map_of_mem hh
    obtain ⟨i, hi, heq⟩ := List.mem_map.mp hmem
    rw [show h.link.session = session i from (congrArg Prod.snd heq).symm]
    exact hdelivers i (List.mem_range.mp hi)
  obtain ⟨hall, ⟨z, hs'⟩, hfeed⟩ := allSent_total hm ht causal_frontRows width_frontRows hspans
    le_rfl hkeep hroom hids hnext hseqs hcaught hdelivers' phase
  obtain ⟨hz, -⟩ := feedAll_caught hm causal_frontRows width_frontRows hspans le_rfl hkeep hroom
    hcaught hfeed
  obtain ⟨w₁, hhops, -, -⟩ := (hops_spec hcd hcut hs hatt hapart hall 0).2 z hs' hfeed
  rw [hlayers] at hz
  have hwidth : ∀ ts, ∀ r ∈ targetRows g cfg nBlocks ts, r.length = g.width := width_targetRows
  have hlater : (later (targetRows g cfg nBlocks) ts ids).length = ids.length :=
    causal_targetRows.length_later ts ids
  obtain ⟨logits, kv₃, hheadRun⟩ := hhead (later (targetRows g cfg nBlocks) ts ids) kv₂
    (by rw [← List.length_pos_iff, hlater]; exact List.length_pos_iff.mpr hids)
    (by omega) (Causal.forall_mem_later hwidth ts ids)
  refine ⟨logits, ⟨kv₃, ⟨cfg, hs'.map Hop.link, cfg.splits.headD 0⟩, w₁⟩, ?_⟩
  have hfrontForward : frontForward m ids ts.length (cfg.splits.headD 0).toNat kv =
      (.ok (ofRows g.width (later (frontRows g cfg) ts ids)), kv₂) := by
    simp only [frontForward, hembed, hrun]
    rfl
  have hz' : z = ofRows g.width (later (targetRows g cfg nBlocks) ts ids) := hz
  simp only [Target.pass, hfrontForward, Chain.stepWithTruncate, hhops, hz', hheadRun]

theorem commit_total (hm : Computes m layer g room) (ht : Unfailing m layer g room)
    (hcd : cd.RoundTrips) (hcut : Cuts cut) (hvalid : cfg.validate nBlocks = .ok ())
    (hblocks : g.blocks = nBlocks.toNat)
    (hdelivers : ∀ i < cfg.peers.length,
      Delivers cd cfg.wireDtype F g.width room seqs (session i))
    (h : TargetHolds m layer g room cfg nBlocks session n (ts ++ us) [] t hs) {last : UInt32}
    (hnext : (ts ++ [last]).length ≤ room) (hseqs : n + 1 ≤ seqs) :
    ∃ logits t', t.commit (peersNet cd cut) cd m ts.length last = (.ok logits, t') := by
  have hle : ts.length ≤ room := by
    rw [List.length_append] at hnext
    omega
  obtain ⟨kv, hcutKv⟩ := ht.truncateKvTo ts.length t.kv hle
  have hkeep : Keeps (some (UInt32.ofNat ts.length)) ts us :=
    UInt32.toNat_ofNat_of_lt' (lt_of_le_of_lt hle hm.room_lt)
  obtain ⟨logits, t', hpass⟩ := pass_total hm ht hcd hcut hvalid hblocks hdelivers
    (h.truncate hm hcutKv) hkeep (List.cons_ne_nil last []) hnext hseqs .decode ht.head
  refine ⟨logits, t', ?_⟩
  simp only [Target.commit, hcutKv, hpass]

end Passes

end IntelNav.System
