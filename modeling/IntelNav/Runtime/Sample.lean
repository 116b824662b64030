import IntelNav.Core.Floats
import IntelNav.Ggml.Hidden

/-! The logits sampler (`crates/runtime/src/sample.rs`).

The random generator and the unstable sort are parameters. -/

set_option autoImplicit false
set_option relaxedAutoImplicit false

namespace IntelNav.Runtime

open IntelNav.Core IntelNav.Ggml

/-- `StdRng` with the draws the sampler makes, and `sort_unstable_by`. -/
class SamplerLib (R F : Type) where
  seedFromU64 : UInt64 → R
  genUnit : R → F × R
  sortUnstableBy : (UInt32 → UInt32 → Ordering) → List UInt32 → List UInt32

/-- Stateful sampler: the random generator and its configuration. -/
structure Sampler (R D : Type) where
  temperature : D
  topP : Option D
  rng : R

structure SamplerCfg (F : Type) where
  repeatPenalty : F
  repeatCtx : Nat

variable {R D F : Type} [F32 F] [F64 D F] [SamplerLib R F]

def Sampler.new (F : Type) {R D : Type} [SamplerLib R F] (seed : UInt64) (temperature : D)
    (topP : Option D) : Sampler R D :=
  { temperature, topP, rng := SamplerLib.seedFromU64 F seed }

def argmax (logits : List F) : UInt32 := UInt32.ofNat (argmaxFold logits)

/-- Divide the logit of every token of the context window by the penalty, or multiply a negative
one. -/
def applyRepeatPenalty (logits : List F) (ctx : List UInt32) (repeatCtx : Nat) (penalty : F) :
    List F :=
  (ctx.drop (ctx.length - repeatCtx)).foldl (fun logits tok =>
    logits.modify tok.toNat fun v =>
      if F32.ge v (F32.ofInt 0) then F32.div v penalty else F32.mul v penalty) logits

def sumF (xs : List F) : F := xs.foldl F32.add (F32.ofInt 0)

def softmaxTemperature (logits : List F) (t : F) : List F :=
  let scale := F32.div (F32.ofInt 1) t
  let max := logits.foldl F32.max F32.negInfinity
  let exps := logits.map fun x => F32.exp (F32.mul (F32.sub x max) scale)
  let sum := sumF exps
  if F32.lt (F32.ofInt 0) sum then exps.map fun e => F32.div e sum else exps

/-- The loop that walks the probabilities until their sum passes `r`; the last index otherwise. -/
def firstPast (r : F) : F → List (UInt32 × F) → Option UInt32
  | _, [] => none
  | acc, (i, p) :: rest =>
      let acc := F32.add acc p
      if F32.lt r acc then some i else firstPast r acc rest

def sampleMultinomial (probs : List F) (rng : R) : UInt32 × R :=
  let (r, rng) := SamplerLib.genUnit (F := F) rng
  ((firstPast r (F32.ofInt 0) (probs.zipIdx.map fun (p, i) => (UInt32.ofNat i, p))).getD
    (UInt32.ofNat (probs.length - 1)), rng)

/-- The length of the smallest prefix whose cumulative mass reaches `topP`. -/
def nucleus (topP : F) : F → List F → Nat
  | _, [] => 0
  | cum, p :: rest =>
      let cum := F32.add cum p
      if F32.ge cum topP then 1 else nucleus topP cum rest + 1

/-- The indices are `0..probs.len() as u32`; where that leaves none, the source panics on
`idx[0]`. -/
def sampleTopP (probs : List F) (topP : F) (rng : R) : UInt32 × R :=
  let prob (i : UInt32) : F := probs.getD i.toNat (F32.ofInt 0)
  let idx := SamplerLib.sortUnstableBy R F
    (fun a b =>
      if F32.lt (prob b) (prob a) then .lt else if F32.lt (prob a) (prob b) then .gt else .eq)
    ((List.range (UInt32.ofNat probs.length).toNat).map UInt32.ofNat)
  let kept := idx.take (nucleus topP (F32.ofInt 0) (idx.map prob))
  let mass := sumF (kept.map prob)
  if F32.ge (F32.ofInt 0) mass then (idx.headD 0, rng)
  else
    let (u, rng) := SamplerLib.genUnit (F := F) rng
    ((firstPast (F32.mul u mass) (F32.ofInt 0) (kept.map fun i => (i, prob i))).getD
      (kept.getLastD 0), rng)

/-- Sample one token id; `none` for empty logits. -/
def Sampler.sample (s : Sampler R D) (logits : List F) (ctx : List UInt32) (cfg : SamplerCfg F) :
    Option (UInt32 × Sampler R D) :=
  if logits.isEmpty then none
  else
    let view :=
      if F32.lt (F32.ofInt 1) cfg.repeatPenalty && !ctx.isEmpty then
        applyRepeatPenalty logits ctx cfg.repeatCtx cfg.repeatPenalty
      else logits
    if F64.le F s.temperature (F64.ofInt F 0) then some (argmax view, s)
    else
      let probs := softmaxTemperature view (F64.toF32 s.temperature)
      let (tok, rng) :=
        match s.topP with
        | some p =>
            if F64.lt F (F64.ofInt F 0) p && F64.lt F p (F64.ofInt F 1) then
              sampleTopP probs (F64.toF32 p) s.rng
            else sampleMultinomial probs s.rng
        | none => sampleMultinomial probs s.rng
      some (tok, { s with rng })

end IntelNav.Runtime
