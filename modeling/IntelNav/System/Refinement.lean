import IntelNav.Core.Floats
import IntelNav.Runtime.Contract
import IntelNav.System.Connect
import IntelNav.Wire.Cbor

/-! Distributed decoding refines local decoding: the caches of the driver and of the peers' slices
are, layer by layer, the caches of the whole model. -/

set_option autoImplicit false
set_option relaxedAutoImplicit false

namespace IntelNav.System

open IntelNav.App IntelNav.Core IntelNav.Ggml IntelNav.Runtime IntelNav.Stream IntelNav.Transition
open IntelNav.Wire

variable {Addr F K L R D : Type}

section Pass

variable [F32 F] (cd : Codec) (dtype : Dtype) (m : Pipelined F K)

/-- The states exchanged in pass `seq` over `x` fit in their frames and arrive unchanged: the input
of a hop is `x` after all layers before it, its reply that after its own. -/
def Lossless (seq : Nat) (phase : Phase) (x : Hidden F) (pos : Nat) (k : K)
    (legs : List (LayerRange × SessionId)) : Prop :=
  ∀ r session, (r, session) ∈ legs → ∀ y k',
    (m.forwardRange x pos 0 r.start.toNat k = (.ok y, k') →
      Sent cd dtype session seq phase none y y) ∧
    (m.forwardRange x pos 0 r.stop.toNat k = (.ok y, k') →
      Sent cd dtype session seq .decode none y y)

end Pass

section Ranges

variable [F32 F] {cd : Codec} {dtype : Dtype} {m : Pipelined F K} {layer : K → Nat → L}

/-- The hop stands at `pos` after `n` passes, with the caches `v` on its layers. -/
structure Hop.InStep (layer : K → Nat → L) (n pos : Nat) (v : Nat → L) (h : Hop Addr K) : Prop where
  seq_eq : h.link.seq = n
  pos_eq : h.pos = pos
  layer_eq : ∀ i, h.link.layers.start.toNat ≤ i → i < h.link.layers.stop.toNat → layer h.kv i = v i

omit [F32 F] in
private theorem feed_at (m : Pipelined F K) {h : Hop Addr K} (x : Hidden F) {s n pos : Nat}
    (hstart : h.link.layers.start.toNat = s) (hseq : h.link.seq = n) (hpos : h.pos = pos) :
    h.feed m none x =
      match m.forwardRange x pos s h.link.layers.stop.toNat h.kv with
      | (.ok y, kv) => some (y, { h with
          kv, pos := pos + x.shape.getD 1 0, link := { h.link with seq := n + 1 } })
      | (.error _, _) => none := by
  subst hstart hseq hpos
  rfl

omit [F32 F] in
/-- A hop that stands where the layers before it leave off does what its layers do in the whole
model. -/
private theorem feed_range (hm : Contract m layer) {h : Hop Addr K} {x₀ x : Hidden F}
    {n pos s : Nat} {k₀ k : K} (hlead : m.forwardRange x₀ pos 0 s k₀ = (.ok x, k))
    (hstart : h.link.layers.start.toNat = s) (hle : s ≤ h.link.layers.stop.toNat)
    (hin : h.InStep layer n pos (layer k₀)) :
    match m.forwardRange x₀ pos 0 h.link.layers.stop.toNat k₀ with
    | (.error _, _) => h.feed m none x = none
    | (.ok y, k₁) => ∃ h', h.feed m none x = some (y, h') ∧ h'.link.layers = h.link.layers ∧
        h'.leg = h.leg ∧ h'.InStep layer (n + 1) (pos + x₀.shape.getD 1 0) (layer k₁) := by
  obtain ⟨hseq, hpos, hlayer⟩ := hin
  have hagree : ∀ i, s ≤ i → i < h.link.layers.stop.toNat → layer k i = layer h.kv i := by
    intro i hi hi'
    rw [hlayer i (hstart ▸ hi) hi']
    have hframe := hm.range_frame x₀ pos 0 s k₀ i (Or.inr hi)
    rwa [hlead] at hframe
  have hrun := hm.range_ok (Nat.zero_le s) hle hlead
  have hfeed := feed_at m x hstart hseq hpos
  cases hmid : m.forwardRange x₀ pos 0 h.link.layers.stop.toNat k₀ with
  | mk r k₁ =>
  rw [hmid] at hrun
  cases r with
  | error msg =>
      obtain ⟨msg₁, k₂, hfail⟩ := (outcome_eq_none _).mp hrun.symm
      obtain ⟨k₃, hfail'⟩ := hm.range_agree_error hagree hfail
      dsimp only
      rw [hfeed, hfail']
  | ok y =>
      obtain ⟨k₂, hrun₂, hk₂⟩ := outcome_eq_some.mp hrun.symm
      obtain ⟨kv, hhop, hkv⟩ := hm.range_agree hagree hrun₂
      have hx : x.shape = x₀.shape := hm.range_shape x₀ pos 0 s k₀ x (by rw [hlead])
      refine ⟨{ h with kv, pos := pos + x.shape.getD 1 0, link := { h.link with seq := n + 1 } },
        ?_, rfl, rfl, rfl, by rw [← hx], ?_⟩
      · rw [hfeed, hhop]
      · intro i hi hi'
        rw [← hk₂]
        exact (hkv i (hstart ▸ hi) hi').symm

/-- The hops from layer `s` on do what the layers from `s` on of the whole model do. -/
private theorem feedAll_ranges (hm : Contract m layer) {x₀ : Hidden F} {n pos e : Nat} {k₀ : K}
    {phase : Phase} (hs : List (Hop Addr K)) {s : Nat} {x : Hidden F} {k : K}
    (hlead : m.forwardRange x₀ pos 0 s k₀ = (.ok x, k))
    (hspans : Spans s (hs.map fun h => h.link.layers) e)
    (hstep : ∀ h ∈ hs, h.InStep layer n pos (layer k₀))
    (hsent : Lossless cd dtype m (n + 1) phase x₀ pos k₀ (hs.map Hop.leg)) :
    AllSent cd dtype m phase none id hs x ∧
      match outcome layer (m.forwardRange x₀ pos 0 e k₀) with
      | none => feedAll m none id hs x = none
      | some (y, v) => ∃ hs', feedAll m none id hs x = some (y, hs') ∧
          hs'.map Hop.leg = hs.map Hop.leg ∧
          ∀ h ∈ hs', h.InStep layer (n + 1) (pos + x₀.shape.getD 1 0) v := by
  induction hs generalizing s x k with
  | nil =>
      obtain rfl : s = e := hspans
      refine ⟨trivial, ?_⟩
      rw [hlead]
      exact ⟨[], rfl, rfl, by simp⟩
  | cons h hs ih =>
      obtain ⟨hstart, hlt, hrest⟩ := hspans
      have hin := hstep h List.mem_cons_self
      have hinput := (hsent h.link.layers h.link.session List.mem_cons_self x k).1
        (by rw [hstart]; exact hlead)
      rw [← hin.seq_eq] at hinput
      have hhop := feed_range hm hlead hstart hlt.le hin
      cases hmid : m.forwardRange x₀ pos 0 h.link.layers.stop.toNat k₀ with
      | mk r k₁ =>
      rw [hmid] at hhop
      cases r with
      | error msg =>
          have hnone : h.feed m none x = none := hhop
          refine ⟨⟨hinput, fun y h' hsome => ?_⟩, ?_⟩
          · rw [show id x = x from rfl, hnone] at hsome
            cases hsome
          · obtain ⟨msg₂, k₃, hwhole⟩ := hm.range_error (Nat.zero_le _) hrest.le hmid
            rw [hwhole]
            simp only [outcome, feedAll, id_eq, hnone]
      | ok y =>
          obtain ⟨h', hsome, hlayers, hleg, hin'⟩ := hhop
          obtain ⟨hall, hend⟩ := ih hmid hrest (fun g hg => hstep g (List.mem_cons_of_mem h hg))
            fun r session hmem => hsent r session (List.mem_cons_of_mem _ hmem)
          refine ⟨⟨hinput, fun y' g hg => ?_⟩, ?_⟩
          · rw [show id x = x from rfl, hsome] at hg
            obtain ⟨rfl, rfl⟩ := Prod.mk.inj (Option.some.inj hg)
            have hx : x.shape = x₀.shape := hm.range_shape x₀ pos 0 s k₀ x (by rw [hlead])
            have hy : y.shape = x₀.shape := hm.range_shape x₀ pos 0 _ k₀ y (by rw [hmid])
            refine ⟨?_, by rw [hy, hx], hall⟩
            rw [hin.seq_eq]
            exact (hsent h.link.layers h.link.session List.mem_cons_self y k₁).2 hmid
          · have htail := hm.range_ok (Nat.zero_le _) hrest.le hmid
            cases hwhole : m.forwardRange x₀ pos 0 e k₀ with
            | mk r k₃ =>
            rw [hwhole] at hend htail
            cases r with
            | error msg =>
                simp only [outcome] at hend
                simp only [outcome, feedAll, id_eq, hsome, hend, Option.map_none]
            | ok z =>
                obtain ⟨hs', hfeedAll, hlegs, hrestIn⟩ := hend
                obtain ⟨k₄, hrun₄, hk₄⟩ := outcome_eq_some.mp htail.symm
                refine ⟨h' :: hs', ?_, ?_, ?_⟩
                · simp only [feedAll, id_eq, hsome, hfeedAll, Option.map_some]
                · rw [List.map_cons, List.map_cons, hlegs, hleg]
                · intro g hg
                  rcases List.mem_cons.mp hg with rfl | hg
                  · refine ⟨hin'.seq_eq, hin'.pos_eq, fun i hi hi' => ?_⟩
                    have hframe := hm.range_frame y pos h.link.layers.stop.toNat e k₁ i
                      (Or.inl (hlayers ▸ hi'))
                    rw [hrun₄] at hframe
                    rw [← hk₄]
                    exact (hin'.layer_eq i hi hi').trans hframe.symm
                  · exact hrestIn g hg

omit [F32 F] in
/-- The front slice of the driver does what the embeddings and the first layers of the whole model
do. -/
private theorem frontForward_follows (hm : Contract m layer) (ids : List UInt32) (pos : Nat)
    {s e : Nat} {k kv : K} (hfront : ∀ i, i < s → layer kv i = layer k i) (hle : s ≤ e) :
    ((∃ msg k', andThen (m.embed ids k) (fun x k => m.forwardRange x pos 0 e k) =
      (.error msg, k')) ∧
      ∃ msg kv', frontForward m ids pos s kv = (.error msg, kv')) ∨
    ∃ x k₁ front k₂ kv₂, m.embed ids k = (.ok x, k₁) ∧ layer k₁ = layer k ∧
      m.forwardRange x pos 0 s k₁ = (.ok front, k₂) ∧
      frontForward m ids pos s kv = (.ok front, kv₂) ∧ ∀ i, i < s → layer k₂ i = layer kv₂ i := by
  have hembed := hm.embed_eq ids k kv
  have hembedK := hm.embed_layer ids k
  have hembedKv := hm.embed_layer ids kv
  cases hx : m.embed ids k with
  | mk r k₁ =>
  cases hx' : m.embed ids kv with
  | mk r' kv₁ =>
  rw [hx, hx'] at hembed
  rw [hx] at hembedK
  rw [hx'] at hembedKv
  obtain rfl : r = r' := hembed
  cases r with
  | error msg => exact .inl ⟨⟨msg, k₁, rfl⟩, msg, kv₁, by rw [frontForward, hx']⟩
  | ok x =>
      have hagree : ∀ i, 0 ≤ i → i < s → layer k₁ i = layer kv₁ i := by
        intro i _ hi
        rw [hembedK, hembedKv, hfront i hi]
      cases hpre : m.forwardRange x pos 0 s k₁ with
      | mk r k₂ =>
      cases r with
      | error msg =>
          obtain ⟨kv₂, hpre'⟩ := hm.range_agree_error hagree hpre
          obtain ⟨msg', k₃, hwhole⟩ := hm.range_error (Nat.zero_le _) hle hpre
          exact .inl ⟨⟨msg', k₃, hwhole⟩, msg, kv₂, by simp only [frontForward, hx', hpre']⟩
      | ok front =>
          obtain ⟨kv₂, hpre', hkv₂⟩ := hm.range_agree hagree hpre
          refine .inr ⟨x, k₁, front, k₂, kv₂, rfl, hembedK, hpre, ?_, fun i hi =>
            hkv₂ i (Nat.zero_le i) hi⟩
          simp only [frontForward, hx', hpre']

end Ranges

section Turns

variable [F32 F] [F64 D F] [SamplerLib R F] [DecidableEq Addr] {cd : Codec}
  {cut : Nat → List UInt8 → List (List UInt8)} {m : Pipelined F K} {layer : K → Nat → L}
  {cfg : ChainCfg Addr} {nBlocks : UInt16} {session : Nat → SessionId}

/-- After `n` passes the caches of the driver and its hops are those of the whole model, `k`. -/
structure Follows (m : Pipelined F K) (layer : K → Nat → L) (cfg : ChainCfg Addr)
    (nBlocks : UInt16) (session : Nat → SessionId) (n pos : Nat) (k : K)
    (d : Drive K Addr Nat (Peers Addr F K)) (hs : List (Hop Addr K)) : Prop where
  chain : d.chain = ⟨cfg, hs.map Hop.link, cfg.splits.headD 0⟩
  indexPos : d.indexPos = pos
  front : ∀ i, i < (cfg.splits.headD 0).toNat → layer d.kv i = layer k i
  attached : ∀ h ∈ hs, Attached m d.world h
  apart : hs.Pairwise Apart
  legs_eq : hs.map Hop.leg = legs cfg nBlocks session
  inStep : ∀ h ∈ hs, h.InStep layer n pos (layer k)

/-- The states exchanged in one pass of the whole model fit and arrive unchanged. -/
def PassSent (cd : Codec) (m : Pipelined F K) (cfg : ChainCfg Addr) (nBlocks : UInt16)
    (session : Nat → SessionId) (seq : Nat) (phase : Phase) (ids : List UInt32)
    (pos : Nat) (k : K) : Prop :=
  ∀ x k₁, m.embed ids k = (.ok x, k₁) →
    Lossless cd cfg.wireDtype m seq phase x pos k₁ (legs cfg nBlocks session)

/-- A pass over the chain returns what a forward of the whole model returns, and follows it. -/
private theorem feed_follows (hm : Contract m layer) (hcd : cd.RoundTrips) (hcut : Cuts cut)
    (hvalid : cfg.validate nBlocks = .ok ()) (hblocks : m.blockCount = nBlocks.toNat) {n pos : Nat}
    {k : K} {d : Drive K Addr Nat (Peers Addr F K)} {hs : List (Hop Addr K)} {phase : Phase}
    {ids : List UInt32} (hfollows : Follows m layer cfg nBlocks session n pos k d hs)
    (hsent : PassSent cd m cfg nBlocks session (n + 1) phase ids pos k) :
    match outcome layer (m.forward ids pos k) with
    | none => ∃ e d', d.feed (peersNet cd cut) cd m ids phase = (.error e, d')
    | some (logits, v) => ∃ d' hs', d.feed (peersNet cd cut) cd m ids phase = (.ok logits, d') ∧
        ∀ k', layer k' = v →
          Follows m layer cfg nBlocks session (n + 1) (pos + ids.length) k' d' hs' := by
  obtain ⟨kv, chain, w, indexPos⟩ := d
  obtain ⟨rfl, rfl, hfront, hatt, hapart, hlegs, hstep⟩ := hfollows
  have hspans := spans_legs hvalid hlegs
  rw [hm.forward, hblocks]
  rcases frontForward_follows hm ids indexPos hfront hspans.le with
    ⟨⟨msg, k', hwhole⟩, msg', kv', hfail⟩ | ⟨x, k₁, front, k₂, kv₂, hx, hk₁, hpre, hrun, hkv₂⟩
  · rw [hwhole]
    simp only [andThen, outcome, Drive.feed, hfail]
    exact ⟨_, _, rfl⟩
  · rw [hx]
    simp only [andThen]
    obtain ⟨hid, hshape⟩ := hm.embed_shape ids k x (by rw [hx])
    obtain ⟨hall, hend⟩ := feedAll_ranges hm hs hpre hspans
      (fun h hh => by rw [hk₁]; exact hstep h hh)
      (by rw [hlegs]; exact hsent x k₁ hx)
    obtain ⟨hfail, hok⟩ := hops_spec hcd hcut hs hatt hapart hall 0
    cases hwhole : m.forwardRange x indexPos 0 nBlocks.toNat k₁ with
    | mk r k₃ =>
    rw [hwhole] at hend
    cases r with
    | error msg =>
        obtain ⟨e, links, w', heq⟩ := hfail hend
        simp only [outcome, Drive.feed, hrun, Chain.step, Chain.stepWithTruncate, heq]
        exact ⟨_, _, rfl⟩
    | ok tail =>
        obtain ⟨hs', hfeed, hlegs', hstep'⟩ := hend
        obtain ⟨w', heq, hatt', -⟩ := hok tail hs' hfeed
        have hhead := hm.head_eq tail k₃ kv₂
        have hheadKv := hm.head_layer tail kv₂
        have hheadK := hm.head_layer tail k₃
        cases hl : m.head tail k₃ with
        | mk r k₄ =>
        cases hl' : m.head tail kv₂ with
        | mk r' kv₃ =>
        rw [hl, hl'] at hhead
        rw [hl'] at hheadKv
        rw [hl] at hheadK
        obtain rfl : r = r' := hhead
        simp only [hl]
        cases r with
        | error msg =>
            simp only [outcome, Drive.feed, hrun, Chain.step, Chain.stepWithTruncate, heq, hl']
            exact ⟨_, _, rfl⟩
        | ok logits =>
            refine ⟨⟨kv₃, ⟨cfg, hs'.map Hop.link, cfg.splits.headD 0⟩, w',
              indexPos + ids.length⟩, hs', ?_, fun k' hk' => ?_⟩
            · simp only [Drive.feed, hrun, Chain.step, Chain.stepWithTruncate, heq, hl']
            · have hk'₃ : layer k' = layer k₃ := hk'.trans hheadK
              refine ⟨rfl, rfl, fun i hi => ?_, hatt', apart_of_feedAll hapart hfeed,
                hlegs'.trans hlegs, fun h hh => ?_⟩
              · have hend := hm.range_ok (Nat.zero_le _) hspans.le hpre
                rw [hwhole] at hend
                obtain ⟨k₅, hrun₅, hk₅⟩ := outcome_eq_some.mp hend.symm
                have hframe := hm.range_frame front indexPos (cfg.splits.headD 0).toNat
                  nBlocks.toNat k₂ i (Or.inl hi)
                rw [hrun₅] at hframe
                dsimp only at hframe hheadKv
                rw [hheadKv, hk'₃, ← hk₅, hframe]
                exact (hkv₂ i hi).symm
              · obtain ⟨hseq, hpos, hlayer⟩ := hstep' h hh
                refine ⟨hseq, ?_, fun i hi hi' => by rw [hk'₃]; exact hlayer i hi hi'⟩
                rw [hpos, hshape]
                rfl

/-- The forwards `generate` makes: their number, phase, tokens and position, and the caches before
them. -/
inductive GeneratePass (R Addr : Type) [SamplerLib R F] (m : Pipelined F K) (tok : Tok)
    (scfg : SamplingCfg D F) (onToken : OnToken) (prompt : String) (k : K) :
    Nat → Phase → List UInt32 → Nat → K → Prop
  | prefill (t : Turn R D) : Turn.start (A := Addr) tok scfg prompt = .ok t →
      GeneratePass R Addr m tok scfg onToken prompt k 1 .prefill t.tokens 0 (m.resetCache k)
  | decode (n : Nat) (s : Turn R D × K) (t t' : Turn R D) (k' : K) :
      generateStart (A := Addr) m tok scfg prompt k = .ok s →
      stateAt (generateRound (A := Addr) m tok scfg onToken) n s = some (t, k') →
      (tok.isEos t.next || t.nGen ≥ scfg.maxNewTokens) = false →
      t.emit (A := Addr) tok onToken = .ok t' →
      GeneratePass R Addr m tok scfg onToken prompt k (n + 2) .decode [t.next] t.tokens.length k'

/-- `generate` makes one pass over the prompt and one for each token of the budget at most. -/
theorem GeneratePass.bounds {R Addr : Type} [SamplerLib R F] {tok : Tok} {scfg : SamplingCfg D F}
    {onToken : OnToken} {prompt : String} {k k' : K} {seq : Nat} {phase : Phase}
    {ids : List UInt32} {pos : Nat}
    (h : GeneratePass R Addr m tok scfg onToken prompt k seq phase ids pos k') :
    seq = 1 ∧ phase = .prefill ∧ tok.encode prompt = .ok ids ∨
      2 ≤ seq ∧ seq ≤ scfg.maxNewTokens + 1 ∧ phase = .decode ∧ ids.length = 1 := by
  cases h with
  | prefill t ht =>
      left
      rw [Turn.start] at ht
      split at ht
      · cases ht
      rename_i tokens htokens
      split_ifs at ht
      obtain rfl := Except.ok.inj ht
      exact ⟨rfl, rfl, htokens⟩
  | decode n s t t' k' hs hreach hgo hemit =>
      right
      have hlt : t.nGen < scfg.maxNewTokens := by
        have h : tok.isEos t.next = false ∧ t.nGen < scfg.maxNewTokens := by simpa using hgo
        exact h.2
      have := nGen_stateAt hreach
      dsimp only at this
      exact ⟨by omega, by omega, rfl, rfl⟩

def SameTurn (r r' : TurnResult Addr) : Prop :=
  r.calls = r'.calls ∧ r.count.toOption = r'.count.toOption

private theorem start_follows (hm : Contract m layer) (hcd : cd.RoundTrips) (hcut : Cuts cut)
    (hvalid : cfg.validate nBlocks = .ok ()) (hblocks : m.blockCount = nBlocks.toNat) {tok : Tok}
    {scfg : SamplingCfg D F} {prompt : String} {k kv : K} {chain : Chain Addr Nat}
    {w : Peers Addr F K} {hs : List (Hop Addr K)}
    (hfollows : Follows m layer cfg nBlocks session 0 0 (m.resetCache k)
      ⟨m.resetCache kv, chain, w, 0⟩ hs)
    (hsent : ∀ t : Turn R D, Turn.start (A := Addr) tok scfg prompt = .ok t →
      PassSent cd m cfg nBlocks session 1 .prefill t.tokens 0 (m.resetCache k)) :
    match generateStart (R := R) m tok scfg prompt k,
      runTurnStart (R := R) (peersNet cd cut) cd m tok scfg chain prompt kv w with
    | .ok (t, k'), .ok (t', d) => t' = t ∧ ∃ hs',
        Follows m layer cfg nBlocks session 1 t.tokens.length k' d hs'
    | .error r, .error r' => SameTurn r r'
    | _, _ => False := by
  simp only [generateStart, runTurnStart]
  cases ht : Turn.start (R := R) (A := Addr) tok scfg prompt with
  | error e => exact ⟨rfl, rfl⟩
  | ok t =>
      have hfeed := feed_follows hm hcd hcut hvalid hblocks hfollows (hsent t ht)
      dsimp only
      cases hforward : m.forward t.tokens 0 (m.resetCache k) with
      | mk r k' =>
      rw [hforward] at hfeed
      cases r with
      | error msg =>
          obtain ⟨e, d', heq⟩ := hfeed
          rw [heq]
          exact ⟨rfl, rfl⟩
      | ok logits =>
          obtain ⟨d', hs', heq, hnext⟩ := hfeed
          rw [heq]
          dsimp only
          cases hpick : t.pick (A := Addr) scfg logits with
          | error e => exact ⟨rfl, rfl⟩
          | ok t' =>
              refine ⟨rfl, hs', ?_⟩
              rw [(Turn.pick_eq hpick).2.1]
              simpa only [Nat.zero_add] using hnext k' rfl

/-- A round over the chain answers a round of local decoding. -/
private theorem round_follows (onToken : OnToken) (hm : Contract m layer) (hcd : cd.RoundTrips)
    (hcut : Cuts cut)
    (hvalid : cfg.validate nBlocks = .ok ()) (hblocks : m.blockCount = nBlocks.toNat) {tok : Tok}
    {scfg : SamplingCfg D F} {n : Nat} {t : Turn R D} {k : K}
    {d : Drive K Addr Nat (Peers Addr F K)} {hs : List (Hop Addr K)}
    (hfollows : Follows m layer cfg nBlocks session n t.tokens.length k d hs)
    (hsent : ∀ t' : Turn R D, (tok.isEos t.next || t.nGen ≥ scfg.maxNewTokens) = false →
      t.emit (A := Addr) tok onToken = .ok t' →
        PassSent cd m cfg nBlocks session (n + 1) .decode [t.next] t.tokens.length k) :
    Answers (fun (s : Turn R D × K) s' => s'.1 = s.1 ∧ ∃ hs',
        Follows m layer cfg nBlocks session (n + 1) s.1.tokens.length s.2 s'.2 hs') SameTurn
      (generateRound m tok scfg onToken (t, k))
      (runTurnRound (peersNet cd cut) cd m tok scfg onToken (t, d)) := by
  simp only [generateRound, runTurnRound]
  cases hstop : tok.isEos t.next || t.nGen ≥ scfg.maxNewTokens with
  | true => exact ⟨rfl, rfl⟩
  | false =>
      simp only [Bool.false_eq_true, if_false]
      cases hemit : t.emit (A := Addr) tok onToken with
      | error e => exact ⟨rfl, rfl⟩
      | ok t₁ =>
          have hfeed := feed_follows hm hcd hcut hvalid hblocks hfollows (hsent t₁ hstop hemit)
          have htokens := (Turn.emit_nGen hemit).2
          have hpos : t₁.tokens.length - 1 = t.tokens.length := by
            rw [htokens, List.length_append, List.length_singleton, Nat.add_sub_cancel]
          dsimp only
          rw [hpos]
          cases hforward : m.forward [t.next] t.tokens.length k with
          | mk r k' =>
          rw [hforward] at hfeed
          cases r with
          | error msg =>
              obtain ⟨e, d', heq⟩ := hfeed
              rw [heq]
              exact ⟨rfl, rfl⟩
          | ok logits =>
              obtain ⟨d', hs', heq, hnext⟩ := hfeed
              rw [heq]
              dsimp only
              cases hpick : t₁.pick (A := Addr) scfg logits with
              | error e => exact ⟨rfl, rfl⟩
              | ok t₂ =>
                  refine ⟨rfl, hs', ?_⟩
                  rw [(Turn.pick_eq hpick).2.1, htokens, List.length_append]
                  exact hnext k' rfl

/-- Decoding over a freshly connected chain does what local decoding does: connecting succeeds, and
the turn makes the same calls and returns the same count. -/
theorem runTurn_refines_generate (hm : Contract m layer) (hcd : cd.RoundTrips) (hcut : Cuts cut)
    (hvalid : cfg.validate nBlocks = .ok ()) (hblocks : m.blockCount = nBlocks.toNat)
    {w : Peers Addr F K} (hwf : ∀ a, WellFormed (w.servers a))
    (hready : ∀ i addr, cfg.peers[i]? = some addr →
      Ready m cfg.modelCid (cfg.layers nBlocks i) (w.servers addr))
    (hfits : HandshakeFits cd cfg nBlocks fun i => w.ids (w.drawn + i))
    (tok : Tok) (scfg : SamplingCfg D F) (onToken : OnToken) (prompt : String) (k kv : K)
    (hsent : ∀ seq phase ids pos k',
      GeneratePass R Addr m tok scfg onToken prompt k seq phase ids pos k' →
        PassSent cd m cfg nBlocks (fun i => w.ids (w.drawn + i)) seq phase ids pos k') :
    ∃ chain w' r r', Chain.connect (peersNet cd cut) cd cfg nBlocks w = (.ok chain, w') ∧
      generate (R := R) m tok scfg onToken prompt k = some r ∧
      runTurn (R := R) (peersNet cd cut) cd m tok scfg onToken chain prompt kv w' = some r' ∧
      SameTurn r r' := by
  obtain ⟨hs, w', hconnect, hatt, hapart, hlen, hfresh⟩ :=
    connect_spec (m := m) hcd hcut hvalid hwf hready hfits
  have hlegs := legs_of_fresh hlen hfresh
  have hfollows : Follows m layer cfg nBlocks (fun i => w.ids (w.drawn + i)) 0 0 (m.resetCache k)
      ⟨m.resetCache kv, ⟨cfg, hs.map Hop.link, cfg.splits.headD 0⟩, w', 0⟩ hs := by
    refine ⟨rfl, rfl, fun i _ => by rw [hm.resetCache kv k], hatt, hapart, hlegs, fun h hh => ?_⟩
    obtain ⟨i, hi⟩ := List.getElem?_of_mem hh
    have hf := hfresh i h hi
    obtain ⟨k₀, hk₀⟩ := hf.kv_eq
    exact ⟨hf.seq_eq, hf.pos_eq, fun j _ _ => by rw [hk₀, hm.resetCache k₀ k]⟩
  have hsome : (generate (R := R) (A := Addr) m tok scfg onToken prompt k).isSome :=
    generate_isSome m tok scfg onToken prompt k
  have hstart := start_follows (R := R) hm hcd hcut hvalid hblocks hfollows
    fun t ht => hsent _ _ _ _ _ (.prefill t ht)
  suffices h : ∃ r r', generate (R := R) m tok scfg onToken prompt k = some r ∧
      runTurn (R := R) (peersNet cd cut) cd m tok scfg onToken
        ⟨cfg, hs.map Hop.link, cfg.splits.headD 0⟩ prompt kv w' = some r' ∧ SameTurn r r' by
    obtain ⟨r, r', h⟩ := h
    exact ⟨_, w', r, r', hconnect, h⟩
  rw [generate] at hsome ⊢
  rw [runTurn]
  cases hg : generateStart (R := R) (A := Addr) m tok scfg prompt k with
  | error r =>
      cases hr : runTurnStart (R := R) (peersNet cd cut) cd m tok scfg
        ⟨cfg, hs.map Hop.link, cfg.splits.headD 0⟩ prompt kv w' with
      | error r' =>
          rw [hg, hr] at hstart
          exact ⟨r, r', rfl, rfl, hstart⟩
      | ok s' =>
          rw [hg, hr] at hstart
          exact hstart.elim
  | ok s =>
      cases hr : runTurnStart (R := R) (peersNet cd cut) cd m tok scfg
        ⟨cfg, hs.map Hop.link, cfg.splits.headD 0⟩ prompt kv w' with
      | error r' =>
          rw [hg, hr] at hstart
          exact hstart.elim
      | ok s' =>
          rw [hg, hr] at hstart
          rw [hg] at hsome
          -- the states of round `n`, together with how the first one was reached
          have hloop := loop_related (Q := SameTurn)
            (R := fun n (s₁ : Turn R D × K) (s₂ : Turn R D × Drive K Addr Nat (Peers Addr F K)) =>
              stateAt (generateRound (A := Addr) m tok scfg onToken) n s = some s₁ ∧
                s₂.1 = s₁.1 ∧ ∃ hs', Follows m layer cfg nBlocks (fun i => w.ids (w.drawn + i))
                  (n + 1) s₁.1.tokens.length s₁.2 s₂.2 hs')
            (generateRound m tok scfg onToken)
            (runTurnRound (peersNet cd cut) cd m tok scfg onToken)
            (fun n s₁ s₂ hrel => by
              obtain ⟨hreach, hturn, hs', hfol⟩ := hrel
              obtain ⟨t, k₁⟩ := s₁
              obtain ⟨t', d⟩ := s₂
              obtain rfl : t' = t := hturn
              have hans := round_follows onToken hm hcd hcut hvalid hblocks hfol
                fun t₁ hgo hemit => hsent _ _ _ _ _ (.decode n s t' t₁ k₁ hg hreach hgo hemit)
              exact hans.imp fun s₁' s₂' hnext h => ⟨stateAt_again hreach hnext, h⟩)
            (scfg.maxNewTokens + 1) 0 s s' ⟨rfl, hstart⟩
          rcases hloop with ⟨hnone, -⟩ | ⟨r, r', hr₁, hr₂, hsame⟩
          · dsimp only at hsome
            rw [hnone] at hsome
            cases hsome
          · exact ⟨r, r', hr₁, hr₂, hsame⟩

end Turns

section Example

/-- A model of three layers that only checks the positions its caches are at. -/
private def positionModel : Pipelined ℚ (Nat → Nat) where
  blockCount := 3
  resetCache _ := fun _ => 0
  embed ids k := (.ok ⟨List.replicate ids.length 1, [1, ids.length, 1]⟩, k)
  forwardRange x pos s e k :=
    if ∀ i < e, s ≤ i → k i = pos then
      (.ok x, fun i => if s ≤ i ∧ i < e then pos + x.shape.getD 1 0 else k i)
    else (.error "position", k)
  head _ k := (.ok ⟨[0, 1], [1, 2]⟩, k)
  headAll _ k := (.error "unused", k)
  truncateKvTo _ k := (.error "unused", k)
  forward ids pos k :=
    if ∀ i < 3, k i = pos then
      (.ok ⟨[0, 1], [1, 2]⟩, fun i => if i < 3 then pos + ids.length else k i)
    else (.error "position", k)

private theorem positionModel_contract : Contract positionModel fun k i => k i where
  resetCache _ _ := rfl
  embed_eq _ _ _ := rfl
  embed_layer _ _ := rfl
  embed_shape ids _ x h := by
    obtain rfl := Except.ok.inj h
    exact ⟨1, rfl⟩
  range_eq x pos s e k k' h := by
    have hiff : (∀ i < e, s ≤ i → k i = pos) ↔ ∀ i < e, s ≤ i → k' i = pos :=
      forall_congr' fun i => forall_congr' fun hi => forall_congr' fun hs => by rw [h i hs hi]
    simp only [positionModel, hiff]
    split_ifs <;> rfl
  range_layer x pos s e k k' h i hs he := by
    have hiff : (∀ i < e, s ≤ i → k i = pos) ↔ ∀ i < e, s ≤ i → k' i = pos :=
      forall_congr' fun i => forall_congr' fun hi => forall_congr' fun hs => by rw [h i hs hi]
    simp only [positionModel, hiff]
    split_ifs
    · simp only [hs, he, and_self, if_true]
    · exact h i hs he
  range_frame x pos s e k i h := by
    simp only [positionModel]
    split_ifs
    · exact if_neg (by omega)
    · rfl
  range_shape x pos s e k y h := by
    simp only [positionModel] at h
    split_ifs at h
    rw [Except.ok.inj h]
  range_split x pos s mid e k hs he := by
    simp only [positionModel]
    by_cases h₁ : ∀ i < mid, s ≤ i → k i = pos
    · have hiff : (∀ i < e, mid ≤ i →
          (if s ≤ i ∧ i < mid then pos + x.shape.getD 1 0 else k i) = pos) ↔
            ∀ i < e, s ≤ i → k i = pos := by
        constructor
        · intro h i hi hsi
          by_cases him : i < mid
          · exact h₁ i him hsi
          · have := h i hi (by omega)
            rwa [if_neg (by omega)] at this
        · intro h i hi hmi
          rw [if_neg (by omega)]
          exact h i hi (by omega)
      simp only [if_pos h₁, andThen, hiff]
      split_ifs
      · simp only [outcome, Option.some.injEq, Prod.mk.injEq, true_and]
        funext i
        split_ifs <;> first | rfl | omega
      · rfl
    · have h₂ : ¬ ∀ i < e, s ≤ i → k i = pos := fun h => h₁ fun i hi => h i (by omega)
      simp only [if_neg h₁, if_neg h₂, andThen, outcome]
  head_eq _ _ _ := rfl
  head_layer _ _ := rfl
  forward ids pos k := by
    simp only [positionModel, andThen, Nat.zero_le, true_implies, true_and]
    split_ifs <;> rfl

/-- The messages of a turn of two passes over two hops, with the bytes CBOR gives them. -/
private def sampleSession (i : Nat) : SessionId := ⟨Vector.replicate 32 (UInt8.ofNat i)⟩

private def sampleCfg : ChainCfg UInt16 :=
  { peers := [1, 2], splits := [1, 2], protoVer := 1, modelCid := "m", maxSeq := 2048,
    wireDtype := .fp16 }

private def sampleForward (i seq : Nat) (phase : Phase) : Msg :=
  .forwardHidden (carry (sampleSession i) seq phase none ⟨.fp16, ⟨1, 1, 1⟩, [0, 0x3c]⟩)

private def sampleMessages : List Msg :=
  .hello ⟨Vector.replicate 32 0⟩ 1 [.q4km, .fp16] ::
    (List.range 2).flatMap fun i =>
      [sampleCfg.sessionInit (sampleCfg.layers 3 i) (sampleSession i),
        .sessionAck (sampleSession i) (Vector.replicate 32 0), sampleForward i 1 .prefill,
        sampleForward i 1 .decode, sampleForward i 2 .decode]

private def sampleCodec : Codec where
  encode m := if m ∈ sampleMessages then .ok (Cbor.msg (fun _ => []) m) else .error "unsupported"
  decode b :=
    match sampleMessages.find? fun m => Cbor.msg (fun _ => []) m = b with
    | some m => .ok m
    | none => .error "unsupported"

private theorem sampleCodec_roundTrips : sampleCodec.RoundTrips := by
  have hself : ∀ m ∈ sampleMessages,
      sampleMessages.find? (fun m' => Cbor.msg (fun _ => []) m' = Cbor.msg (fun _ => []) m) =
        some m := by decide +kernel
  intro m b henc
  simp only [sampleCodec] at henc ⊢
  split_ifs at henc with hm
  rw [← Except.ok.inj henc, hself m hm]

private theorem sampleCodec_fits : ∀ m ∈ sampleMessages, sampleCodec.Fits m := by
  have hlen : ∀ m ∈ sampleMessages, (Cbor.msg (fun _ => []) m).length ≤ maxFrameBytes := by
    decide +kernel
  exact fun m hm => ⟨_, if_pos hm, hlen m hm⟩

private def samplePeers : Peers UInt16 ℚ (Nat → Nat) where
  servers a :=
    { host := { Host.new "p" 0 with
        control := (ControlState.new "p" 0).upsertAnnouncing ("m", a, a + 1) "m" }
      files :=
        { disk := ∅, fileExists := fun _ => false, stitchSubset := fun _ _ _ _ => .error "no file"
          load := fun _ => .error "no file" }
      cache := AList.singleton ("m", a, a + 1) 0
      slices := [⟨positionModel, fun _ => 9, 0⟩] }
  sockets := []
  ids := sampleSession
  drawn := 0
  writes := 0

private theorem samplePeers_servers (a : UInt16) : samplePeers.servers a =
    serverHolding positionModel (fun _ => 9) ("m", a, a + 1) := rfl

private theorem samplePeers_wellFormed (a : UInt16) : WellFormed (samplePeers.servers a) :=
  samplePeers_servers a ▸ wellFormed_serverHolding

private theorem samplePeers_ready {a : UInt16} {layers : LayerRange}
    (h : keyOf "m" layers = ("m", a, a + 1)) :
    Ready positionModel "m" layers (samplePeers.servers a) :=
  samplePeers_servers a ▸ ready_serverHolding h

private instance : SamplerLib Unit ℚ where
  seedFromU64 _ := ()
  genUnit _ := (0, ())
  sortUnstableBy _ ids := ids

private def sampleTok : Tok where
  encode _ := .ok [7]
  decode ids := .ok (String.ofList (ids.map fun _ => 'a'))
  eosIds := [9]

private def sampleSampling : SamplingCfg ℚ ℚ :=
  { temperature := 1, topP := none, repeatPenalty := 1, repeatCtx := 64, seed := 7,
    maxNewTokens := 1 }

private theorem sampleSent {i seq : Nat} {phase : Phase}
    (h : sampleForward i seq phase ∈ sampleMessages) :
    Sent sampleCodec .fp16 (sampleSession i) seq phase none
      (⟨[1], [1, 1, 1]⟩ : Hidden ℚ) ⟨[1], [1, 1, 1]⟩ :=
  ⟨1, 1, 1, ⟨.fp16, ⟨1, 1, 1⟩, [0, 0x3c]⟩, rfl, by decide +kernel, by decide +kernel, rfl,
    sampleCodec_fits _ h⟩

private theorem samplePass {seq pos : Nat} {phase : Phase} {ids : List UInt32} {k k' : Nat → Nat}
    (h : GeneratePass Unit UInt16 positionModel sampleTok sampleSampling (fun _ => .ok ()) "hi" k
      seq phase ids pos k') :
    PassSent sampleCodec positionModel sampleCfg 3 sampleSession seq phase ids pos k' := by
  have hbounds : ids.length = 1 ∧ (seq = 1 ∧ phase = .prefill ∨ seq = 2 ∧ phase = .decode) := by
    rcases h.bounds with ⟨hseq, hphase, hids⟩ | ⟨hlo, hhi, hphase, hlen⟩
    · exact ⟨by rw [← Except.ok.inj hids]; rfl, .inl ⟨hseq, hphase⟩⟩
    · have hmax : sampleSampling.maxNewTokens = 1 := rfl
      exact ⟨hlen, .inr ⟨by omega, hphase⟩⟩
  intro x k₁ hembed r session hleg y k₂
  have hx : x = ⟨[1], [1, 1, 1]⟩ := by
    rw [← Except.ok.inj (Prod.mk.inj hembed).1, hbounds.1]
    rfl
  have hy : ∀ s e, positionModel.forwardRange x pos s e k₁ = (.ok y, k₂) → y = x := by
    intro s e hrun
    simp only [positionModel] at hrun
    split_ifs at hrun
    · exact (Except.ok.inj (Prod.mk.inj hrun).1).symm
    · cases (Prod.mk.inj hrun).1
  obtain ⟨i, hi, hsession⟩ : ∃ i < 2, session = sampleSession i := by
    obtain ⟨i, hi, heq⟩ := List.mem_map.mp hleg
    exact ⟨i, List.mem_range.mp hi, (Prod.mk.inj heq).2.symm⟩
  rw [hsession]
  have hmem : ∀ i < 2, sampleForward i 1 .prefill ∈ sampleMessages ∧
      sampleForward i 1 .decode ∈ sampleMessages ∧ sampleForward i 2 .decode ∈ sampleMessages := by
    decide +kernel
  obtain ⟨h₁, h₂, h₃⟩ := hmem i hi
  constructor
  · intro hrun
    rw [hy _ _ hrun, hx]
    rcases hbounds.2 with ⟨rfl, rfl⟩ | ⟨rfl, rfl⟩
    · exact sampleSent h₁
    · exact sampleSent h₃
  · intro hrun
    rw [hy _ _ hrun, hx]
    rcases hbounds.2 with ⟨rfl, rfl⟩ | ⟨rfl, rfl⟩
    · exact sampleSent h₂
    · exact sampleSent h₃

/-- Two hops, each of one layer; every read brings one byte. -/
theorem runTurn_refines_generate_two_hops :
    let net : Net UInt16 Nat (Peers UInt16 ℚ (Nat → Nat)) :=
      peersNet sampleCodec fun _ bs => bs.map fun b => [b]
    let onToken : OnToken := fun _ => .ok ()
    ∃ chain w' r r', Chain.connect net sampleCodec sampleCfg 3 samplePeers = (.ok chain, w') ∧
      generate (R := Unit) positionModel sampleTok sampleSampling onToken "hi" (fun _ => 5) =
        some r ∧
      runTurn (R := Unit) net sampleCodec positionModel sampleTok sampleSampling onToken chain "hi"
        (fun _ => 3) w' = some r' ∧ SameTurn r r' := by
  refine runTurn_refines_generate positionModel_contract sampleCodec_roundTrips cuts_bytes
    (by decide) rfl samplePeers_wellFormed (fun i addr hi => ?_)
    ⟨sampleCodec_fits _ (by decide +kernel), fun i hi => sampleCodec_fits _ ?_,
      fun i hi => sampleCodec_fits _ ?_⟩ _ _ _ _ _ _
    fun seq phase ids pos k' h => ?_
  · match i, hi with
    | 0, hi =>
        obtain rfl : 1 = addr := Option.some.inj hi
        exact samplePeers_ready rfl
    | 1, hi =>
        obtain rfl : 2 = addr := Option.some.inj hi
        exact samplePeers_ready rfl
  · have hall : ∀ i < 2, sampleCfg.sessionInit (sampleCfg.layers 3 i) (sampleSession (0 + i)) ∈
        sampleMessages := by decide +kernel
    exact hall i hi
  · have hall : ∀ i < 2, Msg.sessionAck (sampleSession (0 + i)) (Vector.replicate 32 0) ∈
        sampleMessages := by decide +kernel
    exact hall i hi
  · have := samplePass h
    simpa only [samplePeers, Nat.zero_add] using this

end Example

end IntelNav.System
