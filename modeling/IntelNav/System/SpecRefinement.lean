import IntelNav.System.Speculation

/-! A speculative turn and a plain one over the same honest peers: both say the target's greedy
continuation of the prompt, up to the token that ends the turn. -/

set_option autoImplicit false
set_option relaxedAutoImplicit false

namespace IntelNav.System

open IntelNav.App IntelNav.Core IntelNav.Decoding IntelNav.Ggml IntelNav.Runtime IntelNav.Stream
open IntelNav.Transition IntelNav.Wire

variable {Addr R D E F J K : Type} [F32 F]

section Greedy

variable [F64 D F] [SamplerLib R F] {g : RowModel F E}

omit [F64 D F] [SamplerLib R F] in
private theorem foldl_argmax_lt {n : Nat} {xs : List (F × Nat)} (hxs : ∀ x ∈ xs, x.2 < n)
    {best : Nat × F} (hbest : best.1 < n) :
    (xs.foldl (fun (best : Nat × F) (xi : F × Nat) =>
      if F32.lt best.2 xi.1 then (xi.2, xi.1) else best) best).1 < n := by
  induction xs generalizing best with
  | nil => exact hbest
  | cons x xs ih =>
      rw [List.foldl_cons]
      refine ih (fun y hy => hxs y (List.mem_cons_of_mem x hy)) ?_
      split
      · exact hxs x List.mem_cons_self
      · exact hbest

omit [F64 D F] [SamplerLib R F] in
private theorem argmaxFold_lt {xs : List F} (hne : 0 < xs.length) : argmaxFold xs < xs.length :=
  foldl_argmax_lt (fun x hx => by
    have hlt := List.snd_lt_of_mem_zipIdx hx
    omega) hne

private theorem sample_logits {s : Sampler R D} (htemp : s.temperature = F64.ofInt F 0)
    (cfg : SamplerCfg F) (hpenalty : F32.lt (F32.ofInt 1) cfg.repeatPenalty = false)
    (rows : List (List F)) (ctx : List UInt32) :
    s.sample (g.logits rows).data ctx cfg = some (g.best rows, s) := by
  have hlen := g.length_head (rows.getLastD [])
  have hpos : 0 < (g.head (rows.getLastD [])).length := by
    rw [hlen]
    exact g.vocab_pos
  have hne : (g.head (rows.getLastD [])).isEmpty = false :=
    List.isEmpty_eq_false_iff.mpr (List.length_pos_iff.mp hpos)
  have hlt := argmaxFold_lt hpos
  rw [hlen] at hlt
  simp only [Sampler.sample, RowModel.logits, hne, hpenalty, htemp, F64.zero_le_zero, argmax,
    RowModel.best, Nat.mod_eq_of_lt hlt, Bool.false_and, Bool.false_eq_true, if_false, if_true]

end Greedy

def said (t : Turn R D) : Said := ⟨t.tokens, t.decoder, t.nGen, t.calls⟩

omit [F32 F] in
private theorem emit_eq (tok : Tok) (onToken : OnToken) (t : Turn R D) :
    t.emit (A := Addr) tok onToken =
      ((said t).say tok onToken t.next).map fun s =>
        { t with tokens := s.tokens, decoder := s.decoder, nGen := s.nGen, calls := s.calls } := by
  simp only [Turn.emit, Said.say, said]
  cases t.decoder.push tok t.next with
  | error e => rfl
  | ok r =>
      obtain ⟨_ | txt, decoder⟩ := r
      · rfl
      · dsimp only
        cases onToken (t.calls ++ [txt]) <;> rfl

def driven {Conn W : Type} (d : Drive K Addr Conn W) : Target K Addr Conn W :=
  ⟨d.kv, d.chain, d.world⟩

private theorem feed_of_pass {Conn W : Type} {net : Net Addr Conn W} {cd : Codec}
    {m : Pipelined F K}
    {d : Drive K Addr Conn W} {ids : List UInt32} {phase : Phase} {logits : Hidden F}
    {t : Target K Addr Conn W}
    (h : (driven d).pass net cd m m.head none phase ids d.indexPos = (.ok logits, t)) :
    d.feed net cd m ids phase =
      (.ok logits, ⟨t.kv, t.chain, t.world, d.indexPos + ids.length⟩) := by
  simp only [Target.pass, driven] at h
  simp only [Drive.feed, Chain.step]
  cases hfront : frontForward m ids d.indexPos d.chain.frontEnd.toNat d.kv with
  | mk r kv =>
  cases r with
  | error e =>
      simp only [hfront] at h
      cases (Prod.mk.inj h).1
  | ok front =>
  simp only [hfront] at h ⊢
  cases hstep : d.chain.stepWithTruncate net cd front phase none d.world with
  | mk r rest =>
  obtain ⟨chain, world⟩ := rest
  cases r with
  | error e =>
      simp only [hstep] at h
      cases (Prod.mk.inj h).1
  | ok tail =>
  simp only [hstep] at h ⊢
  cases hhead : m.head tail kv with
  | mk r kv' =>
  simp only [hhead] at h ⊢
  cases r with
  | error e => cases (Prod.mk.inj h).1
  | ok logits' =>
      obtain ⟨hlogits, rfl⟩ := Prod.mk.inj h
      obtain rfl := Except.ok.inj hlogits
      rfl

section Plain

variable [F64 D F] [SamplerLib R F] [DecidableEq Addr] {cd : Codec}
  {cut : Nat → List UInt8 → List (List UInt8)} {m : Pipelined F K} {layer : K → Nat → List E}
  {g : RowModel F E} {room : Nat} {cfg : ChainCfg Addr} {nBlocks : UInt16}
  {session : Nat → SessionId} {scfg : SamplingCfg D F} {n : Nat} {hs : List (Hop Addr K)}
  {t : Turn R D} {d : Drive K Addr Nat (Peers Addr F K)}

/-- At the head of the loop the chain holds the tokens said, and the next one is picked. -/
structure PlainHead (m : Pipelined F K) (layer : K → Nat → List E) (g : RowModel F E) (room : Nat)
    (cfg : ChainCfg Addr) (nBlocks : UInt16) (session : Nat → SessionId) (n : Nat)
    (hs : List (Hop Addr K)) (t : Turn R D) (d : Drive K Addr Nat (Peers Addr F K)) : Prop where
  temperature : t.sampler.temperature = F64.ofInt F 0
  next_eq : t.next = targetNext g cfg nBlocks t.tokens
  pos_eq : d.indexPos = t.tokens.length
  target : TargetHolds m layer g room cfg nBlocks session n t.tokens [] (driven d) hs

omit [DecidableEq Addr] in
private theorem pick_logits (hpenalty : F32.lt (F32.ofInt 1) scfg.repeatPenalty = false)
    (htemp : t.sampler.temperature = F64.ofInt F 0) (rows : List (List F)) :
    t.pick (A := Addr) scfg (g.logits rows) = .ok { t with next := g.best rows } := by
  simp only [Turn.pick, sample_logits htemp ⟨scfg.repeatPenalty, scfg.repeatCtx⟩ hpenalty]

private theorem plainHead_round (hm : Computes m layer g room) (ht : Unfailing m layer g room)
    (hcd : cd.RoundTrips) (hcut : Cuts cut) (hvalid : cfg.validate nBlocks = .ok ())
    (hblocks : g.blocks = nBlocks.toNat) (tok : Tok) (onToken : OnToken) {seqs : Nat}
    (hdelivers : ∀ i < cfg.peers.length,
      Delivers cd cfg.wireDtype F g.width room seqs (session i))
    (hpenalty : F32.lt (F32.ofInt 1) scfg.repeatPenalty = false)
    (h : PlainHead m layer g room cfg nBlocks session n hs t d)
    (hroom : t.tokens.length + 1 ≤ room) (hseqs : n + 1 ≤ seqs)
    (hgo : t.nGen < scfg.maxNewTokens) (heos : tok.isEos t.next = false) :
    match (said t).say (A := Addr) tok onToken t.next with
    | .error e => runTurnRound (peersNet cd cut) cd m tok scfg onToken (t, d) = .return (.failed e)
    | .ok s => ∃ t' d' hs', said t' = s ∧
        PlainHead m layer g room cfg nBlocks session (n + 1) hs' t' d' ∧
        runTurnRound (peersNet cd cut) cd m tok scfg onToken (t, d) = .again (t', d') := by
  have hstay : ¬((tok.isEos t.next || decide (t.nGen ≥ scfg.maxNewTokens)) = true) := by
    simp [heos, hgo]
  simp only [runTurnRound, if_neg hstay, emit_eq]
  cases hsay : (said t).say (A := Addr) tok onToken t.next with
  | error e => rfl
  | ok s =>
  obtain ⟨htokens, hnGen⟩ := say_tokens hsay
  have htokens : s.tokens = t.tokens ++ [t.next] := htokens
  have hkeep : Keeps none t.tokens [] := rfl
  have hfits : (t.tokens ++ [t.next]).length ≤ room := by
    rwa [List.length_append]
  obtain ⟨logits, target, hpass⟩ := pass_total hm ht hcd hcut hvalid hblocks hdelivers h.target
    hkeep (List.cons_ne_nil t.next []) hfits hseqs .decode ht.head
  obtain ⟨rfl, hs', hholds⟩ := pass_head hm hcd hcut hvalid hblocks h.target hkeep
    (List.cons_ne_nil t.next []) hpass
  rw [← h.pos_eq] at hpass
  let t₁ : Turn R D :=
    { t with tokens := s.tokens, decoder := s.decoder, nGen := s.nGen, calls := s.calls }
  let rows := targetRows g cfg nBlocks (t.tokens ++ [t.next])
  have hpick : t₁.pick (A := Addr) scfg (g.logits rows) = .ok { t₁ with next := g.best rows } :=
    pick_logits hpenalty (show t₁.sampler.temperature = F64.ofInt F 0 from h.temperature) rows
  simp only [Except.map, feed_of_pass hpass]
  refine ⟨{ t₁ with next := g.best rows }, _, hs', rfl, ⟨h.temperature, ?_, ?_, ?_⟩, by rw [hpick]⟩
  · change g.best rows = targetNext g cfg nBlocks s.tokens
    rw [htokens]
    rfl
  · change d.indexPos + [t.next].length = s.tokens.length
    rw [htokens, h.pos_eq, List.length_append]
  · change TargetHolds m layer g room cfg nBlocks session (n + 1) s.tokens [] target hs'
    rwa [htokens]

/-- From the head of its loop a plain turn says the greedy continuation up to the token that ends
it. -/
private theorem plain_loop (hm : Computes m layer g room) (ht : Unfailing m layer g room)
    (hcd : cd.RoundTrips) (hcut : Cuts cut) (hvalid : cfg.validate nBlocks = .ok ())
    (hblocks : g.blocks = nBlocks.toNat) (tok : Tok) (onToken : OnToken) {seqs : Nat}
    (hdelivers : ∀ i < cfg.peers.length,
      Delivers cd cfg.wireDtype F g.width room seqs (session i))
    (hpenalty : F32.lt (F32.ofInt 1) scfg.repeatPenalty = false) {left : Nat}
    (h : PlainHead m layer g room cfg nBlocks session n hs t d)
    (hleft : t.nGen + left = scfg.maxNewTokens) (hroom : t.tokens.length + left ≤ room)
    (hseqs : n + left ≤ seqs) {fuel : Nat} (hfuel : left < fuel) :
    loop (runTurnRound (peersNet cd cut) cd m tok scfg onToken) fuel (t, d) =
      some (saidResult ((said t).sayUntilEos (A := Addr) tok onToken
        (greedy (targetNext g cfg nBlocks) left t.tokens))) := by
  induction fuel generalizing left n hs t d with
  | zero => omega
  | succ fuel ih =>
      rw [loop]
      cases left with
      | zero =>
          have hstop : (tok.isEos t.next || decide (t.nGen ≥ scfg.maxNewTokens)) = true := by
            simp only [Bool.or_eq_true, decide_eq_true_eq]
            omega
          simp only [runTurnRound, if_pos hstop]
          rfl
      | succ left =>
          have hgo : t.nGen < scfg.maxNewTokens := by omega
          rw [greedy, ← h.next_eq, Said.sayUntilEos]
          cases heos : tok.isEos t.next with
          | true =>
              simp only [runTurnRound, heos, Bool.true_or, if_true]
              rfl
          | false =>
              have hround := plainHead_round hm ht hcd hcut hvalid hblocks tok onToken hdelivers
                hpenalty h (by omega) (by omega) hgo heos
              simp only [Bool.false_eq_true, if_false]
              cases hsay : (said t).say (A := Addr) tok onToken t.next with
              | error e =>
                  rw [hsay] at hround
                  simp only [hround]
                  rfl
              | ok s =>
                  rw [hsay] at hround
                  obtain ⟨t', d', hs', rfl, h', hround⟩ := hround
                  obtain ⟨htokens, hnGen⟩ := say_tokens hsay
                  have htokens : t'.tokens = t.tokens ++ [t.next] := htokens
                  have hnGen : t'.nGen = t.nGen + 1 := hnGen
                  have hlen : t'.tokens.length = t.tokens.length + 1 := by
                    rw [htokens, List.length_append, List.length_singleton]
                  simp only [hround]
                  rw [ih h' (show t'.nGen + left = scfg.maxNewTokens by omega) (by omega)
                    (by omega) (by omega), htokens]

private theorem runTurn_said (hm : Computes m layer g room) (ht : Unfailing m layer g room)
    (hcd : cd.RoundTrips) (hcut : Cuts cut) (hvalid : cfg.validate nBlocks = .ok ())
    (hblocks : g.blocks = nBlocks.toNat) (tok : Tok) (onToken : OnToken) {seqs : Nat}
    (hdelivers : ∀ i < cfg.peers.length,
      Delivers cd cfg.wireDtype F g.width room seqs (session i))
    (htemp : scfg.temperature = F64.ofInt F 0)
    (hpenalty : F32.lt (F32.ofInt 1) scfg.repeatPenalty = false) {kv : K} {chain : Chain Addr Nat}
    {w : Peers Addr F K}
    (hholds : TargetHolds m layer g room cfg nBlocks session 0 [] [] ⟨m.resetCache kv, chain, w⟩ hs)
    {text : String} {ids : List UInt32} (htext : tok.encode text = .ok ids) (hne : ids ≠ [])
    (hroom : ids.length + scfg.maxNewTokens ≤ room) (hseqs : 1 + scfg.maxNewTokens ≤ seqs) :
    runTurn (R := R) (peersNet cd cut) cd m tok scfg onToken chain text kv w =
      some (saidResult (Said.sayUntilEos (A := Addr) tok onToken
        (greedy (targetNext g cfg nBlocks) scfg.maxNewTokens ids) ⟨ids, .new, 0, []⟩)) := by
  have hkeep : Keeps none [] [] := rfl
  have hlen : ([] ++ ids).length ≤ room := by
    rw [List.nil_append]
    omega
  obtain ⟨logits, target, hpass⟩ := pass_total hm ht hcd hcut hvalid hblocks hdelivers hholds
    hkeep hne hlen (by omega) .prefill ht.head
  obtain ⟨rfl, hs', hholds'⟩ := pass_head hm hcd hcut hvalid hblocks hholds hkeep hne hpass
  rw [List.nil_append] at hholds' hpass
  let d : Drive K Addr Nat (Peers Addr F K) := ⟨m.resetCache kv, chain, w, 0⟩
  let t : Turn R D :=
    { tokens := ids, sampler := Sampler.new F scfg.seed scfg.temperature scfg.topP,
      decoder := .new, next := 0, nGen := 0, calls := [] }
  have hfeed : d.feed (peersNet cd cut) cd m ids .prefill =
      (.ok (g.logits (targetRows g cfg nBlocks ids)),
        ⟨target.kv, target.chain, target.world, 0 + ids.length⟩) := feed_of_pass hpass
  have hpick : t.pick (A := Addr) scfg (g.logits (targetRows g cfg nBlocks ids)) =
      .ok { t with next := targetNext g cfg nBlocks ids } :=
    pick_logits hpenalty (show t.sampler.temperature = F64.ofInt F 0 from htemp) _
  have hempty : ids.isEmpty = false := List.isEmpty_eq_false_iff.mpr hne
  have hstart : runTurnStart (A := Addr) (R := R) (peersNet cd cut) cd m tok scfg chain text kv w =
      .ok ({ t with next := targetNext g cfg nBlocks ids },
        ⟨target.kv, target.chain, target.world, 0 + ids.length⟩) := by
    simp only [runTurnStart, Turn.start, htext, hempty, Bool.false_eq_true, if_false]
    rw [hfeed]
    dsimp only
    rw [hpick]
  simp only [runTurn, hstart]
  exact plain_loop hm ht hcd hcut hvalid hblocks tok onToken hdelivers hpenalty
    ⟨htemp, rfl, Nat.zero_add _, hholds'⟩ (Nat.zero_add _) hroom hseqs (Nat.lt_succ_self _)

end Plain

section Speculative

variable [DecidableEq Addr] {cd : Codec} {cut : Nat → List UInt8 → List (List UInt8)}
  {m : Pipelined F K} {layer : K → Nat → List E} {g : RowModel F E} {room : Nat}
  {md : Pipelined F J} {layerD : J → Nat → List E} {gd : RowModel F E} {roomD : Nat}
  {cfg : ChainCfg Addr} {nBlocks : UInt16} {session : Nat → SessionId} {prompt : List UInt32}
  {spec : SpecCfg} {n : Nat} {hs : List (Hop Addr K)}
  {s : SpecTurn F K J Addr Nat (Peers Addr F K)}

omit [F32 F] [DecidableEq Addr] in
private theorem sayAll_greedy {tok : Tok} {onToken : OnToken} (next : List UInt32 → UInt32)
    (k maxNewTokens : Nat) (s : Said) :
    (s.sayAll (A := Addr) tok maxNewTokens onToken (greedy next maxNewTokens s.tokens)).map
        Prod.snd =
      match s.sayAll (A := Addr) tok maxNewTokens onToken (greedy next k s.tokens) with
      | .ok (false, s') => (s'.sayAll (A := Addr) tok maxNewTokens onToken
          (greedy next maxNewTokens s'.tokens)).map Prod.snd
      | .ok (true, s') => .ok s'
      | .error e => .error e := by
  have hlong : (s.sayAll (A := Addr) tok maxNewTokens onToken
      (greedy next maxNewTokens s.tokens)).map Prod.snd =
      (s.sayAll (A := Addr) tok maxNewTokens onToken
        (greedy next (k + maxNewTokens) s.tokens)).map Prod.snd := by
    rw [sayAll_take, take_greedy (Nat.sub_le _ _), sayAll_take (greedy next (k + _) _),
      take_greedy (by omega)]
  rw [hlong, greedy_add, sayAll_append]
  cases hsay : s.sayAll (A := Addr) tok maxNewTokens onToken (greedy next k s.tokens) with
  | error e => rfl
  | ok r =>
      obtain ⟨stop, s'⟩ := r
      cases stop with
      | true => rfl
      | false =>
          dsimp only
          rw [(sayAll_tokens hsay).1]

/-- From the head of its loop a speculative turn says the greedy continuation up to the token that
ends it, and that token too. -/
private theorem spec_loop (hm : Computes m layer g room) (ht : Unfailing m layer g room)
    (hmd : Computes md layerD gd roomD) (htd : Unfailing md layerD gd roomD) (hcd : cd.RoundTrips)
    (hcut : Cuts cut) (hvalid : cfg.validate nBlocks = .ok ()) (hblocks : g.blocks = nBlocks.toNat)
    (tok : Tok) (scfg : SamplingCfg D F) (onToken : OnToken)
    (hdelivers : ∀ i < cfg.peers.length, Delivers cd cfg.wireDtype F g.width room
      (2 * scfg.maxNewTokens + 1) (session i)) (hk : 2 ≤ spec.k)
    (hroom : prompt.length + scfg.maxNewTokens + spec.k ≤ room)
    (hroomD : prompt.length + scfg.maxNewTokens + spec.k ≤ roomD)
    (h : LoopHead m layer g room layerD gd roomD cfg nBlocks session prompt spec.k n hs s)
    (hn : n ≤ 2 * s.said.nGen + 1) {fuel : Nat} (hfuel : scfg.maxNewTokens - s.said.nGen < fuel) :
    ∃ r, loop (specRound (peersNet cd cut) cd m md tok scfg spec onToken) fuel s = some r ∧
      SameOutput r (saidResult ((s.said.sayAll (A := Addr) tok scfg.maxNewTokens onToken
        (greedy (targetNext g cfg nBlocks) scfg.maxNewTokens s.said.tokens)).map Prod.snd)) := by
  induction fuel generalizing n hs s with
  | zero => omega
  | succ fuel ih =>
      rw [loop]
      by_cases hgo : s.said.nGen < scfg.maxNewTokens
      · have hround := specRound_ok hm ht hmd htd hcd hcut hvalid hblocks tok scfg onToken hdelivers
          hk hroom hroomD h hn hgo
        dsimp only at hround
        generalize agreed (targetNext g cfg nBlocks) s.said.tokens s.drafts = j at hround
        rw [sayAll_greedy (targetNext g cfg nBlocks) (j + 1)]
        cases hsay : s.said.sayAll (A := Addr) tok scfg.maxNewTokens onToken
            (greedy (targetNext g cfg nBlocks) (j + 1) s.said.tokens) with
        | error e =>
            rw [hsay] at hround
            simp only [hround]
            exact ⟨_, rfl, rfl, rfl⟩
        | ok r =>
        obtain ⟨stop, said⟩ := r
        rw [hsay] at hround
        cases stop with
        | true =>
            simp only [hround]
            exact ⟨_, rfl, rfl, rfl⟩
        | false =>
            obtain ⟨s', rfl, hround⟩ := hround
            obtain ⟨hs', h'⟩ := loopHead_round hm hmd hcd hcut hvalid hblocks hk h hround
            have hnGen := (sayAll_tokens hsay).2
            rw [length_greedy] at hnGen
            simp only [hround]
            exact ih h' (by omega) (by omega)
      · have hstop : s.said.nGen ≥ scfg.maxNewTokens := Nat.not_lt.mp hgo
        simp only [specRound, if_pos hstop]
        rw [sayAll_take, Nat.sub_eq_zero_of_le hstop, List.take_zero]
        exact ⟨_, rfl, rfl, rfl⟩

private theorem runTurnSpec_said [F64 D F] (hm : Computes m layer g room)
    (ht : Unfailing m layer g room)
    (hmd : Computes md layerD gd roomD) (htd : Unfailing md layerD gd roomD) (hcd : cd.RoundTrips)
    (hcut : Cuts cut) (hvalid : cfg.validate nBlocks = .ok ()) (hblocks : g.blocks = nBlocks.toNat)
    (tok : Tok) {scfg : SamplingCfg D F} (onToken : OnToken)
    (hdelivers : ∀ i < cfg.peers.length, Delivers cd cfg.wireDtype F g.width room
      (2 * scfg.maxNewTokens + 1) (session i)) (hk : 2 ≤ spec.k)
    (htemp : scfg.temperature = F64.ofInt F 0)
    (hpenalty : F32.lt (F32.ofInt 1) scfg.repeatPenalty = false) {kv : K} (kd : J)
    {chain : Chain Addr Nat} {w : Peers Addr F K}
    (hholds : TargetHolds m layer g room cfg nBlocks session 0 [] [] ⟨m.resetCache kv, chain, w⟩ hs)
    {text : String} (htext : tok.encode text = .ok prompt) (hne : prompt ≠ [])
    (hroom : prompt.length + scfg.maxNewTokens + spec.k ≤ room)
    (hroomD : prompt.length + scfg.maxNewTokens + spec.k ≤ roomD) :
    ∃ r, runTurnSpec (peersNet cd cut) cd m md tok scfg spec onToken chain text kv w kd = some r ∧
      SameOutput r (saidResult ((Said.sayAll (A := Addr) tok scfg.maxNewTokens onToken
        (greedy (targetNext g cfg nBlocks) scfg.maxNewTokens prompt)
        ⟨prompt, .new, 0, []⟩).map Prod.snd)) := by
  have hcheck : checkSpec (A := Addr) scfg spec = .ok () := by
    simp only [checkSpec, htemp, F64.zero_eq_zero, hpenalty, Nat.not_lt.mpr hk, Bool.not_true,
      Bool.false_eq_true, if_false]
  obtain ⟨s₀, hstart, hsaid⟩ := specStart_ok hm ht hmd htd hcd hcut hvalid hblocks hdelivers
    (by omega) kd hholds hcheck htext hne (by omega) (by omega)
  obtain ⟨-, ids, hs₀, hids, hhead⟩ :=
    loopHead_start hm hmd hcd hcut hvalid hblocks hholds hstart
  rw [htext] at hids
  obtain rfl := Except.ok.inj hids
  obtain ⟨r, hloop, hout⟩ := spec_loop hm ht hmd htd hcd hcut hvalid hblocks tok scfg onToken
    hdelivers hk hroom hroomD hhead (by simp [hsaid]) (Nat.lt_succ_of_le (Nat.sub_le _ _))
  rw [hsaid] at hout
  exact ⟨r, by simp only [runTurnSpec, hstart, hloop], hout⟩

end Speculative

section Both

variable [F64 D F] [SamplerLib R F] [DecidableEq Addr] {cd : Codec}
  {cut : Nat → List UInt8 → List (List UInt8)} {m : Pipelined F K} {layer : K → Nat → List E}
  {g : RowModel F E} {room : Nat} {md : Pipelined F J} {layerD : J → Nat → List E}
  {gd : RowModel F E} {roomD : Nat} {cfg : ChainCfg Addr} {nBlocks : UInt16} {spec : SpecCfg}
  {scfg : SamplingCfg D F} {w : Peers Addr F K} {text : String} {ids : List UInt32}

variable (R) in
private theorem turns_said (hm : Computes m layer g room) (ht : Unfailing m layer g room)
    (hmd : Computes md layerD gd roomD) (htd : Unfailing md layerD gd roomD) (hcd : cd.RoundTrips)
    (hcut : Cuts cut) (hvalid : cfg.validate nBlocks = .ok ())
    (hblocks : m.blockCount = nBlocks.toNat) (hwf : ∀ a, WellFormed (w.servers a))
    (hready : ∀ i addr, cfg.peers[i]? = some addr →
      Ready m cfg.modelCid (cfg.layers nBlocks i) (w.servers addr))
    (hfits : HandshakeFits cd cfg nBlocks fun i => w.ids (w.drawn + i))
    (hdelivers : ∀ i < cfg.peers.length, Delivers cd cfg.wireDtype F g.width room
      (2 * scfg.maxNewTokens + 1) (w.ids (w.drawn + i)))
    (htemp : scfg.temperature = F64.ofInt F 0)
    (hpenalty : F32.lt (F32.ofInt 1) scfg.repeatPenalty = false) (hk : 2 ≤ spec.k) (tok : Tok)
    (onToken : OnToken) (htext : tok.encode text = .ok ids) (hne : ids ≠ [])
    (hroom : ids.length + scfg.maxNewTokens + spec.k ≤ room)
    (hroomD : ids.length + scfg.maxNewTokens + spec.k ≤ roomD) (kv kv' : K) (kd : J) :
    ∃ chain w' r, Chain.connect (peersNet cd cut) cd cfg nBlocks w = (.ok chain, w') ∧
      runTurnSpec (peersNet cd cut) cd m md tok scfg spec onToken chain text kv w' kd = some r ∧
      SameOutput r (saidResult ((Said.sayAll (A := Addr) tok scfg.maxNewTokens onToken
        (greedy (targetNext g cfg nBlocks) scfg.maxNewTokens ids) ⟨ids, .new, 0, []⟩).map
          Prod.snd)) ∧
      runTurn (R := R) (peersNet cd cut) cd m tok scfg onToken chain text kv' w' =
        some (saidResult (Said.sayUntilEos (A := Addr) tok onToken
          (greedy (targetNext g cfg nBlocks) scfg.maxNewTokens ids) ⟨ids, .new, 0, []⟩)) := by
  have hblocks : g.blocks = nBlocks.toNat := hm.blockCount.symm.trans hblocks
  obtain ⟨chain, w', hs, hconnect, hholds⟩ :=
    connect_holds hm hcd hcut hvalid hwf hready hfits kv
  obtain ⟨chain', w₁, hs', hconnect', hholds'⟩ :=
    connect_holds hm hcd hcut hvalid hwf hready hfits kv'
  rw [hconnect] at hconnect'
  obtain ⟨hchain, rfl⟩ := Prod.mk.inj hconnect'
  obtain rfl := Except.ok.inj hchain
  obtain ⟨r, hspec, hout⟩ := runTurnSpec_said hm ht hmd htd hcd hcut hvalid hblocks tok onToken
    hdelivers hk htemp hpenalty kd hholds htext hne hroom hroomD
  exact ⟨chain, w', r, hconnect, hspec, hout, runTurn_said hm ht hcd hcut hvalid hblocks tok onToken
    hdelivers htemp hpenalty hholds' htext hne (by omega) (by omega)⟩

omit [F32 F] [F64 D F] in
private theorem sameOutput_inj {A : Type} {r : SpecResult A D J} {r₁ r₂ : TurnResult A}
    (h₁ : SameOutput r r₁) (h₂ : SameOutput r r₂) : r₁ = r₂ := by
  obtain ⟨hcalls₁, hcount₁⟩ := h₁
  obtain ⟨hcalls₂, hcount₂⟩ := h₂
  obtain ⟨count₁, calls₁⟩ := r₁
  obtain ⟨count₂, calls₂⟩ := r₂
  obtain rfl : calls₁ = calls₂ := hcalls₁.symm.trans hcalls₂
  have hcount := hcount₁.symm.trans hcount₂
  cases count₁ with
  | error e₁ =>
      cases count₂ with
      | error e₂ => rw [SpecError.turn.inj (Except.error.inj hcount)]
      | ok n₂ => cases hcount
  | ok n₁ =>
      cases count₂ with
      | error e₂ => cases hcount
      | ok n₂ => rw [Except.ok.inj hcount]

/-- A speculative turn and a plain one have the same output exactly when no token among those asked
for ends the turn, or when saying one before it fails. -/
theorem runTurnSpec_sameOutput_iff (hm : Computes m layer g room) (ht : Unfailing m layer g room)
    (hmd : Computes md layerD gd roomD) (htd : Unfailing md layerD gd roomD) (hcd : cd.RoundTrips)
    (hcut : Cuts cut) (hvalid : cfg.validate nBlocks = .ok ())
    (hblocks : m.blockCount = nBlocks.toNat) (hwf : ∀ a, WellFormed (w.servers a))
    (hready : ∀ i addr, cfg.peers[i]? = some addr →
      Ready m cfg.modelCid (cfg.layers nBlocks i) (w.servers addr))
    (hfits : HandshakeFits cd cfg nBlocks fun i => w.ids (w.drawn + i))
    (hdelivers : ∀ i < cfg.peers.length, Delivers cd cfg.wireDtype F g.width room
      (2 * scfg.maxNewTokens + 1) (w.ids (w.drawn + i)))
    (htemp : scfg.temperature = F64.ofInt F 0)
    (hpenalty : F32.lt (F32.ofInt 1) scfg.repeatPenalty = false) (hk : 2 ≤ spec.k) (tok : Tok)
    (onToken : OnToken) (htext : tok.encode text = .ok ids) (hne : ids ≠ [])
    (hroom : ids.length + scfg.maxNewTokens + spec.k ≤ room)
    (hroomD : ids.length + scfg.maxNewTokens + spec.k ≤ roomD) (kv kv' : K) (kd : J) :
    ∃ chain w' r r', Chain.connect (peersNet cd cut) cd cfg nBlocks w = (.ok chain, w') ∧
      runTurnSpec (peersNet cd cut) cd m md tok scfg spec onToken chain text kv w' kd = some r ∧
      runTurn (R := R) (peersNet cd cut) cd m tok scfg onToken chain text kv' w' = some r' ∧
      (SameOutput r r' ↔
        (∀ id ∈ greedy (targetNext g cfg nBlocks) scfg.maxNewTokens ids, tok.isEos id = false) ∨
          ∃ e, Said.sayUntilEos (A := Addr) tok onToken
            (greedy (targetNext g cfg nBlocks) scfg.maxNewTokens ids) ⟨ids, .new, 0, []⟩ =
              .error e) := by
  obtain ⟨chain, w', r, hconnect, hspec, hout, hplain⟩ := turns_said R hm ht hmd htd hcd hcut hvalid
    hblocks hwf hready hfits hdelivers htemp hpenalty hk tok onToken htext hne hroom hroomD kv kv'
    kd
  refine ⟨chain, w', r, _, hconnect, hspec, hplain, ?_⟩
  have hlen : (⟨ids, .new, 0, []⟩ : Said).nGen +
      (greedy (targetNext g cfg nBlocks) scfg.maxNewTokens ids).length ≤ scfg.maxNewTokens := by
    rw [length_greedy, Nat.zero_add]
  rw [← saidResult_eq_iff hlen]
  constructor
  · intro hsame
    exact sameOutput_inj hout hsame
  · intro heq
    rwa [← heq]

end Both

section Example

private instance : SamplerLib Nat ℚ where
  seedFromU64 seed := seed.toNat
  genUnit rng := (0, rng)
  sortUnstableBy _ ids := ids

private theorem constantRows_computes (first second : ℚ) :
    Computes ((constantRows first second).pipelined 8) (fun k i => k i) (constantRows first second)
      8 :=
  (constantRows first second).computes_pipelined (by decide)

private theorem constantRows_unfailing (first second : ℚ) :
    Unfailing ((constantRows first second).pipelined 8) (fun k i => k i) (constantRows first second)
      8 :=
  (constantRows first second).unfailing_pipelined 8

private theorem oneHop_delivered (i : Nat) : Delivers (Cbor.chainCodec fun _ => [])
    oneHopCfg.wireDtype ℚ (constantRows 0 1).width 8 (2 * oneHopSampling.maxNewTokens + 1)
    (oneHopPeers.ids (oneHopPeers.drawn + i)) := oneHop_delivers i

/-- When the first token the target predicts ends the turn, only the speculative turn says it. -/
theorem runTurnSpec_says_eos :
    let cd := Cbor.chainCodec fun _ => []
    let m := (constantRows 0 1).pipelined 8
    let md := (constantRows 1 0).pipelined 8
    let tok := oneHopTok [1]
    ∃ chain w' r r', Chain.connect (oneHopNet cd) cd oneHopCfg 2 oneHopPeers = (.ok chain, w') ∧
      runTurnSpec (oneHopNet cd) cd m md tok oneHopSampling ⟨2⟩ (fun _ => .ok ()) chain "hi"
        (fun _ => [3]) w' (fun _ => [4]) = some r ∧
      runTurn (R := Nat) (oneHopNet cd) cd m tok oneHopSampling (fun _ => .ok ()) chain "hi"
        (fun _ => [6]) w' = some r' ∧
      r.calls = ["a"] ∧ r'.calls = [] ∧ ¬SameOutput r r' := by
  obtain ⟨chain, w', r, hconnect, hspec, ⟨hcalls, hcount⟩, hplain⟩ :=
    turns_said Nat (constantRows_computes 0 1) (constantRows_unfailing 0 1)
      (constantRows_computes 1 0) (constantRows_unfailing 1 0) (Cbor.chainCodec_roundTrips _)
      cuts_bytes (by decide) rfl (fun _ => wellFormed_serverHolding) oneHop_ready oneHop_fits
      (fun i _ => oneHop_delivered i) rfl rfl (show 2 ≤ (⟨2⟩ : SpecCfg).k from le_rfl)
      (oneHopTok [1]) (fun _ => .ok ()) (show (oneHopTok [1]).encode "hi" = .ok [7] from rfl)
      (by decide) (by decide) (by decide) (fun _ => [3]) (fun _ => [6]) (fun _ => [4])
  have hspoken : r.calls = ["a"] := hcalls
  refine ⟨chain, w', r, _, hconnect, hspec, hplain, hspoken, rfl, fun hsame => ?_⟩
  have hempty := hsame.1
  rw [hspoken] at hempty
  cases hempty

/-- When no token ends the turn, both say the same two tokens. -/
theorem runTurnSpec_sameOutput_one_hop :
    let cd := Cbor.chainCodec fun _ => []
    let m := (constantRows 0 1).pipelined 8
    let md := (constantRows 1 0).pipelined 8
    let tok := oneHopTok [9]
    ∃ chain w' r r', Chain.connect (oneHopNet cd) cd oneHopCfg 2 oneHopPeers = (.ok chain, w') ∧
      runTurnSpec (oneHopNet cd) cd m md tok oneHopSampling ⟨2⟩ (fun _ => .ok ()) chain "hi"
        (fun _ => [3]) w' (fun _ => [4]) = some r ∧
      runTurn (R := Nat) (oneHopNet cd) cd m tok oneHopSampling (fun _ => .ok ()) chain "hi"
        (fun _ => [6]) w' = some r' ∧ SameOutput r r' := by
  obtain ⟨chain, w', r, r', hconnect, hspec, hplain, hiff⟩ :=
    runTurnSpec_sameOutput_iff (R := Nat) (constantRows_computes 0 1) (constantRows_unfailing 0 1)
      (constantRows_computes 1 0) (constantRows_unfailing 1 0) (Cbor.chainCodec_roundTrips _)
      cuts_bytes (by decide) rfl (fun _ => wellFormed_serverHolding) oneHop_ready oneHop_fits
      (fun i _ => oneHop_delivered i) rfl rfl (show 2 ≤ (⟨2⟩ : SpecCfg).k from le_rfl)
      (oneHopTok [9]) (fun _ => .ok ()) (show (oneHopTok [9]).encode "hi" = .ok [7] from rfl)
      (by decide) (by decide) (by decide) (fun _ => [3]) (fun _ => [6]) (fun _ => [4])
  have hgreedy : ∀ id ∈ greedy (targetNext (constantRows 0 1) oneHopCfg 2)
      oneHopSampling.maxNewTokens [7], (oneHopTok [9]).isEos id = false := by
    intro id hid
    have hone : id = 1 := List.eq_of_mem_replicate (show id ∈ List.replicate 2 1 from hid)
    rw [hone]
    rfl
  exact ⟨chain, w', r, r', hconnect, hspec, hplain, hiff.mpr (.inl hgreedy)⟩

end Example

end IntelNav.System
