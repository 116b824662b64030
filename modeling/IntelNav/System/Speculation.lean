import IntelNav.Runtime.Saying
import IntelNav.System.TargetPasses

/-! The rounds of a speculative turn over honest peers keep the caches of the driver, of the peers
and of the draft in step with the tokens committed. -/

set_option autoImplicit false
set_option relaxedAutoImplicit false

namespace IntelNav.System

open IntelNav.App IntelNav.Core IntelNav.Decoding IntelNav.Ggml IntelNav.Runtime IntelNav.Stream
open IntelNav.Transition IntelNav.Wire

variable {Addr D E F J K : Type} [F32 F]

section LoopHead

variable (m : Pipelined F K) (layer : K → Nat → List E) (g : RowModel F E) (room : Nat)
  (layerD : J → Nat → List E) (gd : RowModel F E) (roomD : Nat) (cfg : ChainCfg Addr)
  (nBlocks : UInt16) (session : Nat → SessionId) (prompt : List UInt32) (k : Nat)

/-- At the head of the loop, after `n` steps of the chain: all caches of the target hold exactly the
tokens committed, and those of the draft also its next proposals but the last. -/
structure LoopHead (n : Nat) (hs : List (Hop Addr K))
    (s : SpecTurn F K J Addr Nat (Peers Addr F K)) : Prop where
  tokens_eq : prompt <+: s.said.tokens ∧ s.said.tokens.length = prompt.length + s.said.nGen
  pos_eq : s.pos = s.said.tokens.length
  target : TargetHolds m layer g room cfg nBlocks session n s.said.tokens [] s.target hs
  peers : ∀ h ∈ hs, h.pos = s.pos
  pending : s.pending = g.logits (targetRows g cfg nBlocks s.said.tokens)
  drafts : s.drafts = greedy gd.next k s.said.tokens
  draft : HoldsTokens layerD gd roomD s.draft (s.said.tokens ++ s.drafts.take (k - 1))

/-- The end of the round from `s` cuts no cache to more entries than it has. -/
def CutsWithin [DecidableEq Addr] (net : Net Addr Nat (Peers Addr F K)) (cd : Codec)
    (s : SpecTurn F K J Addr Nat (Peers Addr F K)) : Prop :=
  ∀ verify target j emitted last, s.verify net cd m = (.ok verify, target) →
    settle k s.pending verify s.drafts = .ok (j, emitted, last) →
      (∀ i < (cfg.splits.headD 0).toNat, s.pos + j ≤ (layer target.kv i).length) ∧
      (∃ hs : List (Hop Addr K), target.chain.links = hs.map Hop.link ∧
        (∀ h ∈ hs, Attached m target.world h) ∧
        ∀ h ∈ hs, ∀ i, h.link.layers.start.toNat ≤ i → i < h.link.layers.stop.toNat →
          (UInt32.ofNat (s.pos + j)).toNat ≤ (layer h.kv i).length) ∧
      (j ≠ k → ∀ i < gd.blocks, s.pos + j ≤ (layerD s.draft i).length)

end LoopHead

section Rounds

variable [DecidableEq Addr] {cd : Codec} {cut : Nat → List UInt8 → List (List UInt8)}
  {m : Pipelined F K} {layer : K → Nat → List E} {g : RowModel F E} {room : Nat}
  {md : Pipelined F J} {layerD : J → Nat → List E} {gd : RowModel F E} {roomD : Nat}
  {cfg : ChainCfg Addr} {nBlocks : UInt16} {session : Nat → SessionId} {prompt : List UInt32}
  {spec : SpecCfg} {n : Nat}
  {hs : List (Hop Addr K)} {s : SpecTurn F K J Addr Nat (Peers Addr F K)}

/-- The verifying pass gives the target's predictions for the drafts, and leaves them in its
caches. -/
private theorem verify_holds (hm : Computes m layer g room) (hcd : cd.RoundTrips) (hcut : Cuts cut)
    (hvalid : cfg.validate nBlocks = .ok ()) (hblocks : g.blocks = nBlocks.toNat)
    (hk : 2 ≤ spec.k)
    (h : LoopHead m layer g room layerD gd roomD cfg nBlocks session prompt spec.k n hs s)
    {verify : Hidden F} {target : Target K Addr Nat (Peers Addr F K)}
    (hverify : s.verify (peersNet cd cut) cd m = (.ok verify, target)) :
    (∃ hs', TargetHolds m layer g room cfg nBlocks session (n + 1) (s.said.tokens ++ s.drafts) []
      target hs') ∧
    settle spec.k s.pending verify s.drafts =
      let j := agreed (targetNext g cfg nBlocks) s.said.tokens s.drafts
      .ok (j, greedy (targetNext g cfg nBlocks) (j + 1) s.said.tokens,
        targetNext g cfg nBlocks (s.said.tokens ++ s.drafts.take j)) := by
  have hlen : s.drafts.length = spec.k := by rw [h.drafts, length_greedy]
  have hne : s.drafts ≠ [] := by
    rw [← List.length_pos_iff]
    omega
  rw [SpecTurn.verify, h.pos_eq] at hverify
  obtain ⟨rfl, hholds⟩ := pass_headAll hm hcd hcut hvalid hblocks h.target hne hverify
  refine ⟨hholds, ?_⟩
  have hcausal : Causal (targetRows g cfg nBlocks) := causal_targetRows
  have hsettle := settle_later g hcausal s.said.tokens hne
  rw [← hlen, h.pending]
  exact hsettle

private theorem cutsWithin_of_loopHead (hm : Computes m layer g room) (hcd : cd.RoundTrips)
    (hcut : Cuts cut) (hvalid : cfg.validate nBlocks = .ok ()) (hblocks : g.blocks = nBlocks.toNat)
    (hk : 2 ≤ spec.k)
    (h : LoopHead m layer g room layerD gd roomD cfg nBlocks session prompt spec.k n hs s) :
    CutsWithin m layer layerD gd cfg spec.k (peersNet cd cut) cd s := by
  intro verify target j emitted last hverify hsettle
  obtain ⟨⟨hs', hholds⟩, hsettle'⟩ := verify_holds hm hcd hcut hvalid hblocks hk h hverify
  rw [hsettle'] at hsettle
  obtain ⟨rfl, -⟩ := Prod.mk.inj (Except.ok.inj hsettle)
  have hlen : s.drafts.length = spec.k := by rw [h.drafts, length_greedy]
  have hj := agreed_le (targetNext g cfg nBlocks) s.said.tokens s.drafts
  have hpos := h.pos_eq
  have hroom := hholds.room_le
  have hroom_lt := hm.room_lt
  simp only [List.append_nil, List.length_append] at hroom
  refine ⟨fun i hi => ?_, ⟨hs', by rw [hholds.chain_eq], hholds.attached, fun a ha i hi hi' => ?_⟩,
    fun hne i hi => ?_⟩
  · rw [hholds.front i hi, RowModel.length_cached, RowModel.embedAll, List.length_map,
      List.length_append]
    omega
  · rw [(hholds.caught.lengths a ha).2 i hi hi', causal_frontRows.length_eq, List.append_nil,
      List.length_append, UInt32.toNat_ofNat_of_lt' (show _ < 2 ^ 32 by omega)]
    omega
  · rw [h.draft.cached i hi, RowModel.length_cached, RowModel.embedAll, List.length_map,
      List.length_append, List.length_take]
    omega

private theorem advance_ok {target : Target K Addr Nat (Peers Addr F K)} {said : Said} {j : Nat}
    {last : UInt32} {s' : SpecTurn F K J Addr Nat (Peers Addr F K)}
    (h : s.advance (D := D) (peersNet cd cut) cd m md spec target said j last = .ok s') :
    ∃ pending target' drafts draft,
      target.commit (peersNet cd cut) cd m (s.pos + j) last = (.ok pending, target') ∧
      advanceAndPropose (A := Addr) (D := D) md j spec.k s.drafts last s.pos s.draft =
        (.ok drafts, draft) ∧
      s' = ⟨said, pending, s.pos + j + 1, drafts, target', draft⟩ := by
  rw [SpecTurn.advance] at h
  cases hcommit : target.commit (peersNet cd cut) cd m (s.pos + j) last with
  | mk r target' =>
  rw [hcommit] at h
  cases r with
  | error e => cases h
  | ok pending =>
  dsimp only at h
  cases hadvance : advanceAndPropose (A := Addr) (D := D) md j spec.k s.drafts last s.pos
      s.draft with
  | mk r draft =>
  rw [hadvance] at h
  cases r with
  | error e => cases h
  | ok drafts => exact ⟨pending, target', drafts, draft, rfl, rfl, (Except.ok.inj h).symm⟩

/-- A round that goes on has verified and settled the drafts, said what it emits, and advanced. -/
private theorem specRound_again {tok : Tok} {scfg : SamplingCfg D F} {onToken : OnToken}
    {s' : SpecTurn F K J Addr Nat (Peers Addr F K)}
    (hround : specRound (peersNet cd cut) cd m md tok scfg spec onToken s = .again s') :
    ∃ verify target j emitted last said,
      s.verify (peersNet cd cut) cd m = (.ok verify, target) ∧
      settle spec.k s.pending verify s.drafts = .ok (j, emitted, last) ∧
      s.said.sayAll (A := Addr) tok scfg.maxNewTokens onToken emitted = .ok (false, said) ∧
      s.advance (D := D) (peersNet cd cut) cd m md spec target said j last = .ok s' := by
  rw [specRound] at hround
  split at hround
  · cases hround
  cases hverify : s.verify (peersNet cd cut) cd m with
  | mk r target =>
  rw [hverify] at hround
  cases r with
  | error e => cases hround
  | ok verify =>
  dsimp only at hround
  cases hsettle : settle spec.k s.pending verify s.drafts with
  | error e =>
      rw [hsettle] at hround
      cases hround
  | ok settled =>
  obtain ⟨j, emitted, last⟩ := settled
  rw [hsettle] at hround
  dsimp only at hround
  split at hround
  · cases hround
  · cases hround
  rename_i said hsaid
  cases hadvance : s.advance (D := D) (peersNet cd cut) cd m md spec target said j last with
  | error e =>
      rw [hadvance] at hround
      cases hround
  | ok s₁ =>
      rw [hadvance] at hround
      obtain rfl := Round.again.inj hround
      exact ⟨verify, target, j, emitted, last, said, rfl, hsettle, hsaid, hadvance⟩

/-- A round leads from one loop head to the next, whatever number of drafts is accepted. -/
theorem loopHead_round (hm : Computes m layer g room) (hmd : Computes md layerD gd roomD)
    (hcd : cd.RoundTrips) (hcut : Cuts cut) (hvalid : cfg.validate nBlocks = .ok ())
    (hblocks : g.blocks = nBlocks.toNat) (hk : 2 ≤ spec.k) {tok : Tok} {scfg : SamplingCfg D F}
    {onToken : OnToken}
    (h : LoopHead m layer g room layerD gd roomD cfg nBlocks session prompt spec.k n hs s)
    {s' : SpecTurn F K J Addr Nat (Peers Addr F K)}
    (hround : specRound (peersNet cd cut) cd m md tok scfg spec onToken s = .again s') :
    ∃ hs', LoopHead m layer g room layerD gd roomD cfg nBlocks session prompt spec.k (n + 2) hs'
      s' := by
  obtain ⟨verify, target, j, emitted, last, said, hverify, hsettled, hsaid, hadvanced⟩ :=
    specRound_again hround
  obtain ⟨⟨hs₁, hholds⟩, hsettle⟩ := verify_holds hm hcd hcut hvalid hblocks hk h hverify
  obtain ⟨hj, hrest⟩ := Prod.mk.inj (Except.ok.inj (hsettled.symm.trans hsettle))
  obtain ⟨rfl, hlast⟩ := Prod.mk.inj hrest
  have hjle : j ≤ s.drafts.length := hj ▸ agreed_le _ _ _
  have hlen : s.drafts.length = spec.k := by rw [h.drafts, length_greedy]
  have hemitted := take_agreed_append_next (targetNext g cfg nBlocks) s.said.tokens s.drafts
  rw [← hj] at hemitted hlast hsaid
  rw [← hlast] at hemitted
  obtain ⟨htokens, hnGen⟩ := sayAll_tokens hsaid
  rw [← hemitted] at htokens
  rw [length_greedy] at hnGen
  have hposj : s.pos + j = (s.said.tokens ++ s.drafts.take j).length := by
    rw [h.pos_eq, List.length_append, List.length_take, Nat.min_eq_left hjle]
  obtain ⟨pending, target', drafts, draft, hcommit, hadvance, rfl⟩ := advance_ok hadvanced
  -- The pass left all drafts in the caches; those accepted are kept.
  rw [show s.said.tokens ++ s.drafts = s.said.tokens ++ s.drafts.take j ++ s.drafts.drop j by
    rw [List.append_assoc, List.take_append_drop]] at hholds
  rw [hposj] at hcommit
  obtain ⟨hpending, hs₂, hholds₂⟩ := commit_holds hm hcd hcut hvalid hblocks hholds hcommit
  rw [h.pos_eq] at hadvance
  obtain ⟨hdrafts, hdraft⟩ := advanceAndPropose_holds hmd (by omega) hlen (hlen ▸ hjle) h.draft
    hadvance
  rw [List.append_assoc, ← htokens] at hpending hholds₂
  rw [← htokens] at hdrafts hdraft
  rw [hposj]
  have hpos' : (s.said.tokens ++ s.drafts.take j).length + 1 = said.tokens.length := by
    simp only [htokens, List.length_append, List.length_singleton, Nat.add_assoc]
  have hcount : said.tokens.length = prompt.length + said.nGen := by
    have := h.tokens_eq.2
    have := h.pos_eq
    omega
  refine ⟨hs₂, ⟨?_, hcount⟩, hpos', hholds₂, fun a ha => ?_, hpending, hdrafts, hdraft⟩
  · rw [htokens]
    exact h.tokens_eq.1.trans (List.prefix_append _ _)
  · have hlengths := (hholds₂.caught.lengths a ha).1
    rw [causal_frontRows.length_eq, List.append_nil] at hlengths
    exact hlengths.trans hpos'.symm

theorem loopHead_start [F64 D F] (hm : Computes m layer g room) (hmd : Computes md layerD gd roomD)
    (hcd : cd.RoundTrips) (hcut : Cuts cut) (hvalid : cfg.validate nBlocks = .ok ())
    (hblocks : g.blocks = nBlocks.toNat) {kv : K} {kd : J} {chain : Chain Addr Nat}
    {w : Peers Addr F K} {tok : Tok} {scfg : SamplingCfg D F} {text : String}
    (hholds : TargetHolds m layer g room cfg nBlocks session 0 [] [] ⟨m.resetCache kv, chain, w⟩ hs)
    (hstart : specStart (peersNet cd cut) cd m md tok scfg spec chain text kv w kd = .ok s) :
    2 ≤ spec.k ∧ ∃ ids hs', tok.encode text = .ok ids ∧
      LoopHead m layer g room layerD gd roomD cfg nBlocks session ids spec.k 1 hs' s := by
  rw [specStart] at hstart
  split at hstart
  · cases hstart
  rename_i hcheck
  have hk : 2 ≤ spec.k := by
    rw [checkSpec] at hcheck
    split at hcheck
    · cases hcheck
    · omega
  split at hstart
  · cases hstart
  rename_i ids hids
  split at hstart
  · cases hstart
  rename_i hne
  have hne : ids ≠ [] := by simpa using hne
  rw [specPrefill] at hstart
  split at hstart
  · cases hstart
  rename_i pending target hpass
  have hkeep : Keeps none [] [] := rfl
  obtain ⟨hpending, hs', hholds'⟩ := pass_head hm hcd hcut hvalid hblocks hholds hkeep hne hpass
  rw [List.nil_append] at hpending hholds'
  split at hstart
  · cases hstart
  rename_i start kd' hforward
  have hempty : HoldsTokens layerD gd roomD (md.resetCache kd) [] :=
    ⟨fun i _ => by rw [hmd.resetCache, RowModel.embedAll, List.map_nil, RowModel.cached_nil],
      Nat.zero_le _⟩
  obtain ⟨rfl, hdraft⟩ := hmd.forward_holds hempty hforward
  rw [List.nil_append] at hdraft hstart
  split at hstart
  · cases hstart
  rename_i drafts draft hpropose
  obtain ⟨hdrafts, hdraft'⟩ := proposeFrom_holds hmd (Nat.add_zero _) hdraft hpropose
  obtain rfl := Except.ok.inj hstart
  refine ⟨hk, ids, hs', hids, ⟨List.prefix_rfl, rfl⟩, rfl, hholds', fun a ha => ?_, hpending,
    hdrafts, hdraft'⟩
  have hlengths := (hholds'.caught.lengths a ha).1
  rwa [causal_frontRows.length_eq, List.append_nil] at hlengths

/-- What a round does while there is room: it stops where its tokens stop the turn, and goes on
otherwise. -/
theorem specRound_ok (hm : Computes m layer g room) (ht : Unfailing m layer g room)
    (hmd : Computes md layerD gd roomD) (htd : Unfailing md layerD gd roomD) (hcd : cd.RoundTrips)
    (hcut : Cuts cut) (hvalid : cfg.validate nBlocks = .ok ()) (hblocks : g.blocks = nBlocks.toNat)
    (tok : Tok) (scfg : SamplingCfg D F) (onToken : OnToken)
    (hdelivers : ∀ i < cfg.peers.length, Delivers cd cfg.wireDtype F g.width room
      (2 * scfg.maxNewTokens + 1) (session i)) (hk : 2 ≤ spec.k)
    (hroom : prompt.length + scfg.maxNewTokens + spec.k ≤ room)
    (hroomD : prompt.length + scfg.maxNewTokens + spec.k ≤ roomD)
    (h : LoopHead m layer g room layerD gd roomD cfg nBlocks session prompt spec.k n hs s)
    (hn : n ≤ 2 * s.said.nGen + 1) (hgo : s.said.nGen < scfg.maxNewTokens) :
    let j := agreed (targetNext g cfg nBlocks) s.said.tokens s.drafts
    match s.said.sayAll (A := Addr) tok scfg.maxNewTokens onToken
        (greedy (targetNext g cfg nBlocks) (j + 1) s.said.tokens) with
    | .error e => specRound (peersNet cd cut) cd m md tok scfg spec onToken s =
        .return ⟨.error (.turn e.1), e.2⟩
    | .ok (true, said) => specRound (peersNet cd cut) cd m md tok scfg spec onToken s =
        .return ⟨.ok (said.nGen, s.draft), said.calls⟩
    | .ok (false, said) => ∃ s', s'.said = said ∧
        specRound (peersNet cd cut) cd m md tok scfg spec onToken s = .again s' := by
  have hlen : s.drafts.length = spec.k := by rw [h.drafts, length_greedy]
  have hne : s.drafts ≠ [] := by
    rw [← List.length_pos_iff]
    omega
  have htokens := h.tokens_eq.2
  have hkeep : Keeps none s.said.tokens [] := rfl
  have hverified : (s.said.tokens ++ s.drafts).length ≤ room := by
    rw [List.length_append]
    omega
  obtain ⟨verify, target, hpass⟩ := pass_total hm ht hcd hcut hvalid hblocks hdelivers h.target
    hkeep hne hverified (by omega) .decode ht.headAll
  have hverify : s.verify (peersNet cd cut) cd m = (.ok verify, target) := by
    rw [SpecTurn.verify, h.pos_eq, hpass]
  obtain ⟨⟨hs₁, hholds⟩, hsettle⟩ := verify_holds hm hcd hcut hvalid hblocks hk h hverify
  dsimp only at hsettle
  intro j
  change settle spec.k s.pending verify s.drafts = .ok (j, _, _) at hsettle
  have hj : j ≤ spec.k := hlen ▸ agreed_le _ _ _
  simp only [specRound, if_neg (Nat.not_le.mpr hgo), hverify, hsettle]
  cases hsay : s.said.sayAll (A := Addr) tok scfg.maxNewTokens onToken
      (greedy (targetNext g cfg nBlocks) (j + 1) s.said.tokens) with
  | error e => rfl
  | ok r =>
  obtain ⟨stop, said⟩ := r
  cases stop with
  | true => rfl
  | false =>
  have hle := sayAll_le hgo.le hsay
  obtain ⟨-, hnGen⟩ := sayAll_tokens hsay
  rw [length_greedy] at hnGen
  have hposj : s.pos + j = (s.said.tokens ++ s.drafts.take j).length := by
    rw [h.pos_eq, List.length_append, List.length_take]
    omega
  rw [show s.said.tokens ++ s.drafts = s.said.tokens ++ s.drafts.take j ++ s.drafts.drop j by
    rw [List.append_assoc, List.take_append_drop]] at hholds
  generalize targetNext g cfg nBlocks (s.said.tokens ++ s.drafts.take j) = last
  have hcommitted : (s.said.tokens ++ s.drafts.take j ++ [last]).length ≤ room := by
    rw [List.length_append, ← hposj, h.pos_eq, List.length_singleton]
    omega
  obtain ⟨pending, target', hcommit⟩ := commit_total hm ht hcd hcut hvalid hblocks hdelivers hholds
    hcommitted (by omega)
  obtain ⟨drafts, draft, hadvance⟩ : ∃ drafts draft, advanceAndPropose (A := Addr) (D := D) md j
      spec.k s.drafts last s.said.tokens.length s.draft = (.ok drafts, draft) :=
    advanceAndPropose_ok hmd htd (by omega) hlen hj h.draft (by omega)
  rw [← hposj] at hcommit
  rw [← h.pos_eq] at hadvance
  simp only [SpecTurn.advance, hcommit, hadvance]
  exact ⟨_, rfl, rfl⟩

theorem specStart_ok [F64 D F] (hm : Computes m layer g room) (ht : Unfailing m layer g room)
    (hmd : Computes md layerD gd roomD) (htd : Unfailing md layerD gd roomD) (hcd : cd.RoundTrips)
    (hcut : Cuts cut) (hvalid : cfg.validate nBlocks = .ok ()) (hblocks : g.blocks = nBlocks.toNat)
    {tok : Tok} {scfg : SamplingCfg D F} {text : String} {seqs : Nat}
    (hdelivers : ∀ i < cfg.peers.length,
      Delivers cd cfg.wireDtype F g.width room seqs (session i)) (hseqs : 1 ≤ seqs)
    {kv : K} (kd : J) {chain : Chain Addr Nat} {w : Peers Addr F K}
    (hholds : TargetHolds m layer g room cfg nBlocks session 0 [] [] ⟨m.resetCache kv, chain, w⟩ hs)
    (hcheck : checkSpec (A := Addr) scfg spec = .ok ()) (htext : tok.encode text = .ok prompt)
    (hne : prompt ≠ []) (hroom : prompt.length ≤ room) (hroomD : prompt.length + spec.k ≤ roomD) :
    ∃ s₀, specStart (peersNet cd cut) cd m md tok scfg spec chain text kv w kd = .ok s₀ ∧
      s₀.said = ⟨prompt, .new, 0, []⟩ := by
  have hkeep : Keeps none [] [] := rfl
  have hempty : HoldsTokens layerD gd roomD (md.resetCache kd) [] :=
    ⟨fun i _ => by rw [hmd.resetCache, RowModel.embedAll, List.map_nil, RowModel.cached_nil],
      Nat.zero_le _⟩
  obtain ⟨pending, target, hpass⟩ := pass_total hm ht hcd hcut hvalid hblocks hdelivers hholds
    hkeep hne hroom hseqs .prefill ht.head
  obtain ⟨start, kd', hforward⟩ := htd.forward_ok hempty hne
    (by rw [List.nil_append]; exact (Nat.le_add_right _ _).trans hroomD)
  obtain ⟨rfl, hdraft⟩ := hmd.forward_holds hempty hforward
  rw [List.nil_append] at hdraft hforward
  obtain ⟨drafts, draft, hpropose⟩ := proposeFrom_ok (A := Addr) (D := D) (n := spec.k) hmd htd
    (Nat.add_zero _) hdraft (by omega)
  rw [List.length_nil] at hpass hforward
  have hempty' : prompt.isEmpty = false := List.isEmpty_eq_false_iff.mpr hne
  simp only [specStart, hcheck, htext, hempty', specPrefill, hpass, hforward, proposeKDrafts,
    hpropose, Bool.false_eq_true, if_false]
  exact ⟨_, rfl, rfl⟩

/-- At every loop head of a speculative turn over a freshly connected chain the caches of the front
slice, of every peer and of the draft are in step with the tokens committed, and nothing is cut to
more than it has. -/
theorem speculation_keeps_in_step [F64 D F] (hm : Computes m layer g room)
    (hmd : Computes md layerD gd roomD) (hcd : cd.RoundTrips) (hcut : Cuts cut)
    (hvalid : cfg.validate nBlocks = .ok ()) (hblocks : m.blockCount = nBlocks.toNat)
    {w : Peers Addr F K} (hwf : ∀ a, WellFormed (w.servers a))
    (hready : ∀ i addr, cfg.peers[i]? = some addr →
      Ready m cfg.modelCid (cfg.layers nBlocks i) (w.servers addr))
    (hfits : HandshakeFits cd cfg nBlocks fun i => w.ids (w.drawn + i)) (tok : Tok)
    (scfg : SamplingCfg D F) (onToken : OnToken) (text : String) (kv : K) (kd : J)
    {chain : Chain Addr Nat} {w' : Peers Addr F K}
    (hconnect : Chain.connect (peersNet cd cut) cd cfg nBlocks w = (.ok chain, w'))
    {s₀ : SpecTurn F K J Addr Nat (Peers Addr F K)}
    (hstart : specStart (peersNet cd cut) cd m md tok scfg spec chain text kv w' kd = .ok s₀)
    {rounds : Nat}
    (hreach : stateAt (specRound (peersNet cd cut) cd m md tok scfg spec onToken) rounds s₀ =
      some s) :
    (∃ ids n hs, tok.encode text = .ok ids ∧
      LoopHead m layer g room layerD gd roomD cfg nBlocks (fun i => w.ids (w.drawn + i)) ids spec.k
        n hs s) ∧
    CutsWithin m layer layerD gd cfg spec.k (peersNet cd cut) cd s := by
  have hblocks : g.blocks = nBlocks.toNat := hm.blockCount.symm.trans hblocks
  obtain ⟨chain', w₁, hs, hconnect', hholds⟩ :=
    connect_holds hm hcd hcut hvalid hwf hready hfits kv
  rw [hconnect] at hconnect'
  obtain ⟨hchain, rfl⟩ := Prod.mk.inj hconnect'
  obtain rfl := Except.ok.inj hchain
  obtain ⟨hk, ids, hs₀, hids, hhead⟩ :=
    loopHead_start hm hmd hcd hcut hvalid hblocks hholds hstart
  obtain ⟨n, hs', hhead'⟩ := stateAt_invariant
    (P := fun s => ∃ n hs, LoopHead m layer g room layerD gd roomD cfg nBlocks
      (fun i => w.ids (w.drawn + i)) ids spec.k n hs s)
    (fun s s' ⟨n, hs, h⟩ hround =>
      ⟨n + 2, loopHead_round hm hmd hcd hcut hvalid hblocks hk h hround⟩)
    ⟨1, hs₀, hhead⟩ hreach
  exact ⟨⟨ids, n, hs', hids, hhead'⟩,
    cutsWithin_of_loopHead hm hcd hcut hvalid hblocks hk hhead'⟩

end Rounds

section Example

/-- A model of two blocks that predicts the same token after all texts. -/
def constantRows (first second : ℚ) : RowModel ℚ ℚ where
  blocks := 2
  width := 1
  vocab := 2
  embed _ := [1]
  block _ _ r := (r.headD 0, r)
  head _ := [first, second]
  width_pos := Nat.one_pos
  vocab_pos := Nat.two_pos
  length_embed _ := rfl
  length_block _ _ _ h := h
  length_head _ := rfl

def oneHopCfg : ChainCfg UInt16 :=
  { peers := [1], splits := [1], protoVer := 1, modelCid := "m", maxSeq := 2048,
    wireDtype := .fp16 }

def oneHopPeers : Peers UInt16 ℚ (Nat → List ℚ) where
  servers a := serverHolding ((constantRows 0 1).pipelined 8) (fun _ => [5]) ("m", a, a + 1)
  sockets := []
  ids i := ⟨Vector.replicate 32 (UInt8.ofNat i)⟩
  drawn := 0
  writes := 0

def oneHopNet (cd : Codec) : Net UInt16 Nat (Peers UInt16 ℚ (Nat → List ℚ)) :=
  peersNet cd fun _ bs => bs.map fun b => [b]

def oneHopSampling : SamplingCfg ℚ ℚ :=
  { temperature := 0, topP := none, repeatPenalty := 1, repeatCtx := 64, seed := 7,
    maxNewTokens := 2 }

/-- A tokenizer of which the tokens `eosIds` end a turn. -/
def oneHopTok (eosIds : List UInt32) : Tok where
  encode _ := .ok [7]
  decode ids := .ok (String.ofList (ids.map fun _ => 'a'))
  eosIds := eosIds

theorem oneHop_ready (i : Nat) (addr : UInt16) (h : oneHopCfg.peers[i]? = some addr) :
    Ready ((constantRows 0 1).pipelined 8) oneHopCfg.modelCid (oneHopCfg.layers 2 i)
      (oneHopPeers.servers addr) := by
  match i, h with
  | 0, h =>
      obtain rfl : 1 = addr := Option.some.inj h
      exact ready_serverHolding rfl

theorem oneHop_fits : HandshakeFits (Cbor.chainCodec fun _ => []) oneHopCfg 2 fun i =>
    oneHopPeers.ids (oneHopPeers.drawn + i) where
  hello := Cbor.chainCodec_fits (show 2 < 2 ^ 64 by decide) (by decide +kernel)
  init i hi := by
    obtain rfl : i = 0 := Nat.lt_one_iff.mp hi
    exact Cbor.chainCodec_fits (show 1 < 2 ^ 64 by decide) (by decide +kernel)
  ack i hi := by
    obtain rfl : i = 0 := Nat.lt_one_iff.mp hi
    exact Cbor.chainCodec_fits trivial (by decide +kernel)

theorem oneHop_delivers (i : Nat) : Delivers (Cbor.chainCodec fun _ => [])
    oneHopCfg.wireDtype ℚ (constantRows 0 1).width 8 5 (oneHopPeers.ids (oneHopPeers.drawn + i)) :=
  delivers_chainCodec (by decide) (by decide) (by decide) (by decide) _

/-- A round in which no draft is accepted. -/
theorem speculation_keeps_in_step_one_hop :
    let cd := Cbor.chainCodec fun _ => []
    let m := (constantRows 0 1).pipelined 8
    let md := (constantRows 1 0).pipelined 8
    let tok := oneHopTok []
    ∃ chain w' s₀ s ids n hs, Chain.connect (oneHopNet cd) cd oneHopCfg 2 oneHopPeers =
        (.ok chain, w') ∧
      specStart (oneHopNet cd) cd m md tok oneHopSampling ⟨2⟩ chain "hi" (fun _ => [3]) w'
        (fun _ => [4]) = .ok s₀ ∧
      stateAt (specRound (oneHopNet cd) cd m md tok oneHopSampling ⟨2⟩ fun _ => .ok ()) 1 s₀ =
        some s ∧
      tok.encode "hi" = .ok ids ∧
      LoopHead m (fun k i => k i) (constantRows 0 1) 8 (fun k i => k i) (constantRows 1 0) 8
        oneHopCfg 2 (fun i => oneHopPeers.ids (oneHopPeers.drawn + i)) ids 2 n hs s ∧
      CutsWithin m (fun k i => k i) (fun k i => k i) (constantRows 1 0) oneHopCfg 2 (oneHopNet cd)
        cd s := by
  intro cd m md tok
  have hm : Computes m (fun k i => k i) (constantRows 0 1) 8 :=
    (constantRows 0 1).computes_pipelined (by decide)
  have hmd : Computes md (fun k i => k i) (constantRows 1 0) 8 :=
    (constantRows 1 0).computes_pipelined (by decide)
  have ht := (constantRows 0 1).unfailing_pipelined 8
  have htd := (constantRows 1 0).unfailing_pipelined 8
  have hcd : cd.RoundTrips := Cbor.chainCodec_roundTrips _
  have hvalid : oneHopCfg.validate 2 = .ok () := by decide
  have hwf : ∀ a, WellFormed (oneHopPeers.servers a) := fun a => wellFormed_serverHolding
  obtain ⟨chain, w', hs, hconnect, hholds⟩ :=
    connect_holds hm hcd cuts_bytes hvalid hwf oneHop_ready oneHop_fits (fun _ => [3])
  obtain ⟨s₀, hstart, hsaid⟩ : ∃ s₀, specStart (oneHopNet cd) cd m md tok oneHopSampling ⟨2⟩ chain
      "hi" (fun _ => [3]) w' (fun _ => [4]) = .ok s₀ ∧ s₀.said = ⟨[7], .new, 0, []⟩ :=
    specStart_ok hm ht hmd htd hcd cuts_bytes hvalid rfl (fun i _ => oneHop_delivers i) (by decide)
      _ hholds rfl rfl (by decide) (by decide) (by decide)
  obtain ⟨-, ids, hs₀, hids, hhead⟩ :=
    loopHead_start hm hmd hcd cuts_bytes hvalid rfl hholds hstart
  obtain rfl : [7] = ids := Except.ok.inj hids
  have hgo := specRound_ok hm ht hmd htd hcd cuts_bytes hvalid rfl tok oneHopSampling
    (fun _ => .ok ()) (fun i _ => oneHop_delivers i) le_rfl (by decide) (by decide) hhead
    (by rw [hsaid]; decide) (by rw [hsaid]; decide)
  have hdrafts : s₀.drafts = [0, 0] := by
    rw [hhead.drafts, hsaid]
    rfl
  have hsay : Said.sayAll (A := UInt16) tok oneHopSampling.maxNewTokens (fun _ => .ok ())
      (greedy (targetNext (constantRows 0 1) oneHopCfg 2)
        (agreed (targetNext (constantRows 0 1) oneHopCfg 2) [7] [0, 0] + 1) [7])
      ⟨[7], .new, 0, []⟩ = .ok (false, ⟨[7, 1], ⟨[1], 1⟩, 1, ["a"]⟩) := by rfl
  rw [hdrafts, hsaid] at hgo
  dsimp only at hgo
  rw [hsay] at hgo
  obtain ⟨s, -, hround⟩ := hgo
  have hreach : stateAt (specRound (oneHopNet cd) cd m md tok oneHopSampling ⟨2⟩ fun _ => .ok ()) 1
      s₀ = some s := by
    rw [oneHopNet, stateAt, hround]
    rfl
  obtain ⟨⟨ids, n, hs', hids, hhead'⟩, hcuts⟩ :=
    speculation_keeps_in_step hm hmd hcd cuts_bytes hvalid rfl hwf oneHop_ready oneHop_fits tok
      oneHopSampling (fun _ => .ok ()) "hi" _ _ hconnect hstart hreach
  exact ⟨chain, w', s₀, s, ids, n, hs', hconnect, hstart, hreach, hids, hhead', hcuts⟩

end Example

end IntelNav.System
