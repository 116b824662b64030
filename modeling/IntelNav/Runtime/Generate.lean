import IntelNav.Runtime.Chain
import IntelNav.Runtime.GgmlBackend
import IntelNav.Runtime.Sample
import IntelNav.Runtime.Tokenizer
import IntelNav.Transition.Loop

/-! The two autoregressive loops: `generate` over a whole model (`crates/runtime/src/generate.rs`)
and `run_turn` over a chain (`crates/runtime/src/chain.rs`). -/

set_option autoImplicit false
set_option relaxedAutoImplicit false

namespace IntelNav.Runtime

open IntelNav.Core IntelNav.Ggml IntelNav.Transition IntelNav.Wire

variable {R D F K A Conn W : Type} [F32 F] [F64 D F] [SamplerLib R F]

structure SamplingCfg (D F : Type) where
  temperature : D
  topP : Option D
  repeatPenalty : F
  repeatCtx : Nat
  seed : UInt64
  maxNewTokens : Nat

inductive TurnError (A : Type)
  | encode (msg : String)
  | emptyPrompt
  | model (msg : String)
  | chain (e : ChainError A)
  | emptyLogits
  | decode (e : DecodeError)
  | callback (msg : String)
  deriving DecidableEq

/-- What a turn returns, and the calls of `on_token` it made. -/
structure TurnResult (A : Type) where
  count : Except (TurnError A) Nat
  calls : List String

/-- The callback: given all calls so far, the last of them this one, whether it goes on. -/
abbrev OnToken := List String → Except String Unit

structure Turn (R D : Type) where
  tokens : List UInt32
  sampler : Sampler R D
  decoder : IncrementalDecoder
  next : UInt32
  nGen : Nat
  calls : List String

/-- The first half of a round: push `next`, decode it, and emit the text. -/
def Turn.emit (tok : Tok) (onToken : OnToken) (t : Turn R D) :
    Except (TurnError A × List String) (Turn R D) :=
  match t.decoder.push tok t.next with
  | .error e => .error (.decode e, t.calls)
  | .ok (none, decoder) =>
      .ok { t with tokens := t.tokens ++ [t.next], nGen := t.nGen + 1, decoder }
  | .ok (some txt, decoder) =>
      let calls := t.calls ++ [txt]
      match onToken calls with
      | .error e => .error (.callback e, calls)
      | .ok () =>
          .ok { t with tokens := t.tokens ++ [t.next], nGen := t.nGen + 1, decoder, calls }

def Turn.pick (cfg : SamplingCfg D F) (logits : Hidden F) (t : Turn R D) :
    Except (TurnError A × List String) (Turn R D) :=
  match t.sampler.sample logits.data t.tokens ⟨cfg.repeatPenalty, cfg.repeatCtx⟩ with
  | none => .error (.emptyLogits, t.calls)
  | some (next, sampler) => .ok { t with next, sampler }

def Turn.start (tok : Tok) (cfg : SamplingCfg D F) (prompt : String) :
    Except (TurnError A) (Turn R D) :=
  match tok.encode prompt with
  | .error e => .error (.encode e)
  | .ok tokens =>
      if tokens.isEmpty then .error .emptyPrompt
      else
        .ok
          { tokens, sampler := Sampler.new F cfg.seed cfg.temperature cfg.topP, decoder := .new,
            next := 0, nGen := 0, calls := [] }

def TurnResult.failed (e : TurnError A × List String) : TurnResult A := ⟨.error e.1, e.2⟩

section Generate

variable (m : Pipelined F K) (tok : Tok) (cfg : SamplingCfg D F) (onToken : OnToken)

/-- One round of the loop of `generate`. -/
def generateRound (s : Turn R D × K) : Round (Turn R D × K) (TurnResult A) :=
  let (t, k) := s
  if tok.isEos t.next || t.nGen ≥ cfg.maxNewTokens then .return ⟨.ok t.nGen, t.calls⟩
  else
    let next := t.next
    match t.emit tok onToken with
    | .error e => .return (.failed e)
    | .ok t =>
        match m.forward [next] (t.tokens.length - 1) k with
        | (.error e, _) => .return (.failed (.model e, t.calls))
        | (.ok logits, k) =>
            match t.pick cfg logits with
            | .error e => .return (.failed e)
            | .ok t => .again (t, k)

/-- The state before the first round: the prompt has been fed and the first token sampled. -/
def generateStart (prompt : String) (k : K) : Except (TurnResult A) (Turn R D × K) :=
  let k := m.resetCache k
  match Turn.start tok cfg prompt with
  | .error e => .error ⟨.error e, []⟩
  | .ok t =>
      match m.forward t.tokens 0 k with
      | (.error e, _) => .error (.failed (.model e, []))
      | (.ok logits, k) =>
          match t.pick cfg logits with
          | .error e => .error (.failed e)
          | .ok t => .ok (t, k)

/-- `generate`; the loop makes at most `max_new_tokens` full rounds. -/
def generate (prompt : String) (k : K) : Option (TurnResult A) :=
  match generateStart (R := R) m tok cfg prompt k with
  | .error r => some r
  | .ok s => loop (generateRound m tok cfg onToken) (cfg.maxNewTokens + 1) s

end Generate

/-- `front_forward`: embed the tokens and run the driver's layers. -/
def frontForward (m : Pipelined F K) (tokens : List UInt32) (indexPos frontEnd : Nat) (k : K) :
    Except String (Hidden F) × K :=
  match m.embed tokens k with
  | (.error e, k) => (.error e, k)
  | (.ok x, k) => m.forwardRange x indexPos 0 frontEnd k

section RunTurn

variable (net : Net A Conn W) (cd : Codec) (m : Pipelined F K) (tok : Tok)
  (cfg : SamplingCfg D F) (onToken : OnToken)

/-- What `run_turn` drives: the model's caches, the chain, the sockets, and the position. -/
structure Drive (K A Conn W : Type) where
  kv : K
  chain : Chain A Conn
  world : W
  indexPos : Nat

/-- Front slice, chain and head on some tokens: the logits, and the state after. -/
def Drive.feed (d : Drive K A Conn W) (tokens : List UInt32) (phase : Phase) :
    Except (TurnError A) (Hidden F) × Drive K A Conn W :=
  match frontForward m tokens d.indexPos d.chain.frontEnd.toNat d.kv with
  | (.error e, kv) => (.error (.model e), { d with kv })
  | (.ok front, kv) =>
      match d.chain.step net cd front phase d.world with
      | (.error e, chain, world) => (.error (.chain e), { d with kv, chain, world })
      | (.ok tail, chain, world) =>
          match m.head tail kv with
          | (.error e, kv) => (.error (.model e), { d with kv, chain, world })
          | (.ok logits, kv) =>
              (.ok logits, { kv, chain, world, indexPos := d.indexPos + tokens.length })

/-- One round of the loop of `run_turn`. -/
def runTurnRound (s : Turn R D × Drive K A Conn W) :
    Round (Turn R D × Drive K A Conn W) (TurnResult A) :=
  let (t, d) := s
  if tok.isEos t.next || t.nGen ≥ cfg.maxNewTokens then .return ⟨.ok t.nGen, t.calls⟩
  else
    let next := t.next
    match t.emit tok onToken with
    | .error e => .return (.failed e)
    | .ok t =>
        match d.feed net cd m [next] .decode with
        | (.error e, _) => .return (.failed (e, t.calls))
        | (.ok logits, d) =>
            match t.pick cfg logits with
            | .error e => .return (.failed e)
            | .ok t => .again (t, d)

/-- The state before the first round: the prompt has gone through the chain. -/
def runTurnStart (chain : Chain A Conn) (prompt : String) (k : K) (w : W) :
    Except (TurnResult A) (Turn R D × Drive K A Conn W) :=
  let k := m.resetCache k
  match Turn.start tok cfg prompt with
  | .error e => .error ⟨.error e, []⟩
  | .ok t =>
      match Drive.feed net cd m ⟨k, chain, w, 0⟩ t.tokens .prefill with
      | (.error e, _) => .error (.failed (e, []))
      | (.ok logits, d) =>
          match t.pick cfg logits with
          | .error e => .error (.failed e)
          | .ok t => .ok (t, d)

/-- `run_turn` over a live chain. -/
def runTurn (chain : Chain A Conn) (prompt : String) (k : K) (w : W) :
    Option (TurnResult A) :=
  match runTurnStart (R := R) net cd m tok cfg chain prompt k w with
  | .error r => some r
  | .ok s => loop (runTurnRound net cd m tok cfg onToken) (cfg.maxNewTokens + 1) s

end RunTurn

end IntelNav.Runtime
