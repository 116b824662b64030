import IntelNav.Runtime.Generate

/-! Speculative decoding (`crates/runtime/src/spec.rs`): a local draft model proposes tokens, and
the target checks them in one batched pass over the chain.

The draft's advance runs beside the target's commit and touches nothing of it; here it comes after,
and an error of the commit wins. -/

set_option autoImplicit false
set_option relaxedAutoImplicit false

namespace IntelNav.Runtime

open IntelNav.Core IntelNav.Ggml IntelNav.Transition IntelNav.Wire

variable {D F K J A Conn W : Type} [F32 F]

structure SpecCfg where
  k : Nat

/-- Why a speculative turn ended early; `draftTask` is a panic of the draft's task. -/
inductive SpecError (A D : Type)
  | k (got : Nat)
  | temperature (got : D)
  | repeatPenalty
  | turn (e : TurnError A)
  | hidden (e : HiddenError)
  | draft (msg : String)
  | draftTask

/-- What the turn says: the tokens with the prompt, how many it made, their text and the calls. -/
structure Said where
  tokens : List UInt32
  decoder : IncrementalDecoder
  nGen : Nat
  calls : List String

def Said.say (tok : Tok) (onToken : OnToken) (id : UInt32) (s : Said) :
    Except (TurnError A × List String) Said :=
  match s.decoder.push tok id with
  | .error e => .error (.decode e, s.calls)
  | .ok (none, decoder) =>
      .ok { s with tokens := s.tokens ++ [id], nGen := s.nGen + 1, decoder }
  | .ok (some txt, decoder) =>
      let calls := s.calls ++ [txt]
      match onToken calls with
      | .error e => .error (.callback e, calls)
      | .ok () => .ok { tokens := s.tokens ++ [id], nGen := s.nGen + 1, decoder, calls }

/-- The loop over the tokens of a round; `true` when the turn stops in it. -/
def Said.sayAll (tok : Tok) (maxNewTokens : Nat) (onToken : OnToken) :
    List UInt32 → Said → Except (TurnError A × List String) (Bool × Said)
  | [], s => .ok (false, s)
  | id :: ids, s =>
      if s.nGen ≥ maxNewTokens then .ok (true, s)
      else
        match s.say tok onToken id with
        | .error e => .error e
        | .ok s => if tok.isEos id then .ok (true, s) else sayAll tok maxNewTokens onToken ids s

/-- What the target drives: the front slice's caches, the chain and the sockets. -/
structure Target (K A Conn W : Type) where
  kv : K
  chain : Chain A Conn
  world : W

section Target

variable (net : Net A Conn W) (cd : Codec) (m : Pipelined F K)

/-- Front slice, chain and one of the heads on some tokens at a position. -/
def Target.pass (head : Hidden F → K → Except String (Hidden F) × K) (keep : Option UInt32)
    (phase : Phase) (ids : List UInt32) (pos : Nat) (t : Target K A Conn W) :
    Except (TurnError A) (Hidden F) × Target K A Conn W :=
  match frontForward m ids pos t.chain.frontEnd.toNat t.kv with
  | (.error e, kv) => (.error (.model e), { t with kv })
  | (.ok front, kv) =>
      match t.chain.stepWithTruncate net cd front phase keep t.world with
      | (.error e, chain, world) => (.error (.chain e), ⟨kv, chain, world⟩)
      | (.ok tail, chain, world) =>
          match head tail kv with
          | (.error e, kv) => (.error (.model e), ⟨kv, chain, world⟩)
          | (.ok logits, kv) => (.ok logits, ⟨kv, chain, world⟩)

/-- The target's half of the end of a round: cut the front slice's caches (`truncate_front_kv`) and
the peers' to `newPos`, and feed the last committed token. -/
def Target.commit (newPos : Nat) (last : UInt32) (t : Target K A Conn W) :
    Except (TurnError A) (Hidden F) × Target K A Conn W :=
  match m.truncateKvTo newPos t.kv with
  | (.error e, kv) => (.error (.model e), { t with kv })
  | (.ok (), kv) =>
      Target.pass net cd m m.head (some (UInt32.ofNat newPos)) .decode [last] newPos { t with kv }

end Target

section Draft

variable (md : Pipelined F J)

/-- The loop of `propose_k_drafts` from `i` on; the last draft is not fed. -/
def proposeFrom (targetPos : Nat) :
    Nat → Nat → Hidden F → J → Except (SpecError A D) (List UInt32) × J
  | _, 0, _, kv => (.ok [], kv)
  | i, n + 1, cur, kv =>
      match cur.argmaxLast with
      | .error e => (.error (.hidden e), kv)
      | .ok d =>
          if n = 0 then (.ok [d], kv)
          else
            match md.forward [d] (targetPos + i) kv with
            | (.error e, kv) => (.error (.draft e), kv)
            | (.ok cur, kv) =>
                match proposeFrom targetPos (i + 1) n cur kv with
                | (.error e, kv) => (.error e, kv)
                | (.ok ds, kv) => (.ok (d :: ds), kv)

/-- `propose_k_drafts`: `k` tokens of the draft, from its logits for position `targetPos` on. -/
def proposeKDrafts (start : Hidden F) (k targetPos : Nat) (kv : J) :
    Except (SpecError A D) (List UInt32) × J :=
  proposeFrom md targetPos 0 k start kv

/-- `advance_and_propose`: bring the draft to what the target committed, and propose again. -/
def advanceAndPropose (j k : Nat) (draftsPrev : List UInt32) (last : UInt32) (targetPosOld : Nat)
    (kv : J) : Except (SpecError A D) (List UInt32) × J :=
  if j = k then
    match draftsPrev[k - 1]? with
    | none => (.error .draftTask, kv)
    | some d =>
        match md.forward [d, last] (targetPosOld + k - 1) kv with
        | (.error e, kv) => (.error (.draft e), kv)
        | (.ok cur, kv) => proposeKDrafts md cur k (targetPosOld + k + 1) kv
  else
    match md.truncateKvTo (targetPosOld + j) kv with
    | (.error e, kv) => (.error (.draft e), kv)
    | (.ok (), kv) =>
        match md.forward [last] (targetPosOld + j) kv with
        | (.error e, kv) => (.error (.draft e), kv)
        | (.ok cur, kv) => proposeKDrafts md cur k (targetPosOld + j + 1) kv

end Draft

/-- The target's prediction for draft `i`, given the one for the first. -/
def predAt (pending verify : Hidden F) (i : Nat) : Except HiddenError (Hidden F) :=
  if i = 0 then .ok pending else verify.selectPosition (i - 1)

/-- The loop that counts the drafts that match the target's predictions, from draft `i` on. -/
def matchFrom (pending verify : Hidden F) : Nat → List UInt32 → Except HiddenError Nat
  | _, [] => .ok 0
  | i, d :: ds => do
      let pred ← predAt pending verify i
      let best ← pred.argmaxLast
      if best = d then return (← matchFrom pending verify (i + 1) ds) + 1 else return 0

/-- Steps 2 and 3 of a round: how many drafts are accepted, the tokens to commit, and the last of
them, a free one when all drafts are accepted. -/
def settle (k : Nat) (pending verify : Hidden F) (drafts : List UInt32) :
    Except HiddenError (Nat × List UInt32 × UInt32) := do
  let j ← matchFrom pending verify 0 drafts
  if j = k then
    let bonus ← (← verify.selectPosition (k - 1)).argmaxLast
    return (j, drafts ++ [bonus], bonus)
  else
    let resampled ← (← predAt pending verify j).argmaxLast
    return (j, drafts.take j ++ [resampled], resampled)

/-- The variables of the loop of `run_turn_spec`. -/
structure SpecTurn (F K J A Conn W : Type) where
  said : Said
  pending : Hidden F
  pos : Nat
  drafts : List UInt32
  target : Target K A Conn W
  draft : J

/-- What a speculative turn returns, and the calls of `on_token` it made. -/
structure SpecResult (A D J : Type) where
  result : Except (SpecError A D) (Nat × J)
  calls : List String

section Turn

variable (net : Net A Conn W) (cd : Codec) (m : Pipelined F K) (md : Pipelined F J) (tok : Tok)
  (cfg : SamplingCfg D F) (spec : SpecCfg) (onToken : OnToken)

def SpecTurn.verify (s : SpecTurn F K J A Conn W) :
    Except (TurnError A) (Hidden F) × Target K A Conn W :=
  s.target.pass net cd m m.headAll none .decode s.drafts s.pos

/-- Step 4 of a round: the target's commit, and the draft's advance. -/
def SpecTurn.advance (s : SpecTurn F K J A Conn W) (target : Target K A Conn W) (said : Said)
    (j : Nat) (last : UInt32) : Except (SpecError A D) (SpecTurn F K J A Conn W) :=
  match target.commit net cd m (s.pos + j) last with
  | (.error e, _) => .error (.turn e)
  | (.ok pending, target) =>
      match advanceAndPropose md j spec.k s.drafts last s.pos s.draft with
      | (.error e, _) => .error e
      | (.ok drafts, draft) =>
          .ok { said, pending, pos := s.pos + j + 1, drafts, target, draft }

/-- One round of the loop of `run_turn_spec`. -/
def specRound (s : SpecTurn F K J A Conn W) :
    Round (SpecTurn F K J A Conn W) (SpecResult A D J) :=
  if s.said.nGen ≥ cfg.maxNewTokens then .return ⟨.ok (s.said.nGen, s.draft), s.said.calls⟩
  else
    match s.verify net cd m with
    | (.error e, _) => .return ⟨.error (.turn e), s.said.calls⟩
    | (.ok verify, target) =>
        match settle spec.k s.pending verify s.drafts with
        | .error e => .return ⟨.error (.hidden e), s.said.calls⟩
        | .ok (j, emitted, last) =>
            match s.said.sayAll tok cfg.maxNewTokens onToken emitted with
            | .error (e, calls) => .return ⟨.error (.turn e), calls⟩
            | .ok (true, said) => .return ⟨.ok (said.nGen, s.draft), said.calls⟩
            | .ok (false, said) =>
                match s.advance net cd m md spec target said j last with
                | .error e => .return ⟨.error e, said.calls⟩
                | .ok s => .again s

/-- What `run_turn_spec` requires of its configuration. -/
def checkSpec [F64 D F] : Except (SpecError A D) Unit :=
  if spec.k < 2 then .error (.k spec.k)
  else if !F64.eq F cfg.temperature (F64.ofInt F 0) then .error (.temperature cfg.temperature)
  else if F32.lt (F32.ofInt 1) cfg.repeatPenalty then .error .repeatPenalty
  else .ok ()

/-- Both models read the prompt, and the draft makes its first proposals. -/
def specPrefill (chain : Chain A Conn) (tokens : List UInt32) (kv : K) (w : W) (kd : J) :
    Except (SpecError A D) (SpecTurn F K J A Conn W) :=
  match Target.pass net cd m m.head none .prefill tokens 0 ⟨kv, chain, w⟩ with
  | (.error e, _) => .error (.turn e)
  | (.ok pending, target) =>
      match md.forward tokens 0 kd with
      | (.error e, _) => .error (.draft e)
      | (.ok start, kd) =>
          match proposeKDrafts md start spec.k tokens.length kd with
          | (.error e, _) => .error e
          | (.ok drafts, draft) =>
              .ok
                { said := ⟨tokens, .new, 0, []⟩, pending, pos := tokens.length, drafts, target,
                  draft }

def specStart [F64 D F] (chain : Chain A Conn) (prompt : String) (kv : K) (w : W) (kd : J) :
    Except (SpecError A D) (SpecTurn F K J A Conn W) :=
  match checkSpec cfg spec with
  | .error e => .error e
  | .ok () =>
      match tok.encode prompt with
      | .error e => .error (.turn (.encode e))
      | .ok tokens =>
          if tokens.isEmpty then .error (.turn .emptyPrompt)
          else specPrefill net cd m md spec chain tokens (m.resetCache kv) w (md.resetCache kd)

/-- `run_turn_spec` over a live chain; every full round commits at least one token. -/
def runTurnSpec [F64 D F] (chain : Chain A Conn) (prompt : String) (kv : K) (w : W) (kd : J) :
    Option (SpecResult A D J) :=
  match specStart net cd m md tok cfg spec chain prompt kv w kd with
  | .error e => some ⟨.error e, []⟩
  | .ok s => loop (specRound net cd m md tok cfg spec onToken) (cfg.maxNewTokens + 1) s

end Turn

end IntelNav.Runtime
