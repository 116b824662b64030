import IntelNav.Runtime.Generate

/-! What the loops rely on in a model: layer ranges compose, and each layer has its own KV cache
(`crates/runtime/src/pipeline.rs`). -/

set_option autoImplicit false
set_option relaxedAutoImplicit false

namespace IntelNav.Runtime

open IntelNav.Core IntelNav.Ggml IntelNav.Transition

variable {F K L : Type}

/-- The hidden state a call returns and what it leaves in the cache of each layer. -/
def outcome (layer : K → Nat → L) : Except String (Hidden F) × K → Option (Hidden F × (Nat → L))
  | (.ok y, k) => some (y, layer k)
  | (.error _, _) => none

def andThen (r : Except String (Hidden F) × K)
    (next : Hidden F → K → Except String (Hidden F) × K) : Except String (Hidden F) × K :=
  match r with
  | (.ok y, k) => next y k
  | (.error e, k) => (.error e, k)

/-- The contract of `Pipelined`, for a model whose context holds one KV cache for each layer. -/
structure Contract (m : Pipelined F K) (layer : K → Nat → L) : Prop where
  resetCache : ∀ k k', layer (m.resetCache k) = layer (m.resetCache k')
  embed_eq : ∀ ids k k', (m.embed ids k).1 = (m.embed ids k').1
  embed_layer : ∀ ids k, layer (m.embed ids k).2 = layer k
  embed_shape : ∀ ids k x, (m.embed ids k).1 = .ok x → ∃ h, x.shape = [1, ids.length, h]
  range_eq : ∀ x pos s e k k', (∀ i, s ≤ i → i < e → layer k i = layer k' i) →
    (m.forwardRange x pos s e k).1 = (m.forwardRange x pos s e k').1
  range_layer : ∀ x pos s e k k', (∀ i, s ≤ i → i < e → layer k i = layer k' i) →
    ∀ i, s ≤ i → i < e →
      layer (m.forwardRange x pos s e k).2 i = layer (m.forwardRange x pos s e k').2 i
  range_frame : ∀ x pos s e k i, i < s ∨ e ≤ i →
    layer (m.forwardRange x pos s e k).2 i = layer k i
  range_shape : ∀ x pos s e k y, (m.forwardRange x pos s e k).1 = .ok y → y.shape = x.shape
  range_split : ∀ x pos s mid e k, s ≤ mid → mid ≤ e →
    outcome layer (m.forwardRange x pos s e k) =
      outcome layer (andThen (m.forwardRange x pos s mid k) fun y k => m.forwardRange y pos mid e k)
  head_eq : ∀ x k k', (m.head x k).1 = (m.head x k').1
  head_layer : ∀ x k, layer (m.head x k).2 = layer k
  forward : ∀ ids pos k, outcome layer (m.forward ids pos k) =
    outcome layer (andThen (andThen (m.embed ids k) fun x k =>
      m.forwardRange x pos 0 m.blockCount k) m.head)

theorem outcome_eq_some {layer : K → Nat → L} {r : Except String (Hidden F) × K}
    {y : Hidden F} {v : Nat → L} :
    outcome layer r = some (y, v) ↔ ∃ k, r = (.ok y, k) ∧ layer k = v := by
  obtain ⟨e | z, k⟩ := r
  · simp [outcome]
  · simp only [outcome, Option.some.injEq, Prod.mk.injEq, Except.ok.injEq]
    exact ⟨fun ⟨hy, hv⟩ => ⟨k, ⟨hy, rfl⟩, hv⟩, fun ⟨k', ⟨hy, hk⟩, hv⟩ => ⟨hy, hk ▸ hv⟩⟩

theorem outcome_eq_none (layer : K → Nat → L) {r : Except String (Hidden F) × K} :
    outcome layer r = none ↔ ∃ e k, r = (.error e, k) := by
  obtain ⟨e | z, k⟩ := r <;> simp [outcome]

namespace Contract

variable {m : Pipelined F K} {layer : K → Nat → L} (hm : Contract m layer)
include hm

theorem range_error {x : Hidden F} {pos s mid e : Nat} {k k₁ : K} {msg : String} (hs : s ≤ mid)
    (he : mid ≤ e) (h : m.forwardRange x pos s mid k = (.error msg, k₁)) :
    ∃ msg k₂, m.forwardRange x pos s e k = (.error msg, k₂) := by
  rw [← outcome_eq_none layer, hm.range_split x pos s mid e k hs he, h]
  rfl

theorem range_ok {x y : Hidden F} {pos s mid e : Nat} {k k₁ : K} (hs : s ≤ mid) (he : mid ≤ e)
    (h : m.forwardRange x pos s mid k = (.ok y, k₁)) :
    outcome layer (m.forwardRange x pos s e k) =
      outcome layer (m.forwardRange y pos mid e k₁) := by
  rw [hm.range_split x pos s mid e k hs he, h]
  rfl

/-- Two contexts that agree on a range have the same outcome on it. -/
theorem range_agree {x y : Hidden F} {pos s e : Nat} {k k' k₁ : K}
    (hagree : ∀ i, s ≤ i → i < e → layer k i = layer k' i)
    (h : m.forwardRange x pos s e k = (.ok y, k₁)) :
    ∃ k₂, m.forwardRange x pos s e k' = (.ok y, k₂) ∧
      ∀ i, s ≤ i → i < e → layer k₁ i = layer k₂ i := by
  have heq := hm.range_eq x pos s e k k' hagree
  have hlayer := hm.range_layer x pos s e k k' hagree
  rw [h] at heq hlayer
  exact ⟨(m.forwardRange x pos s e k').2, Prod.ext heq.symm rfl, hlayer⟩

theorem range_agree_error {x : Hidden F} {pos s e : Nat} {k k' k₁ : K} {msg : String}
    (hagree : ∀ i, s ≤ i → i < e → layer k i = layer k' i)
    (h : m.forwardRange x pos s e k = (.error msg, k₁)) :
    ∃ k₂, m.forwardRange x pos s e k' = (.error msg, k₂) := by
  have heq := hm.range_eq x pos s e k k' hagree
  rw [h] at heq
  exact ⟨(m.forwardRange x pos s e k').2, Prod.ext heq.symm rfl⟩

end Contract

section Total

variable {R D Addr Conn W : Type} [F32 F] [F64 D F] [SamplerLib R F]

theorem Turn.emit_nGen {tok : Tok} {onToken : OnToken} {t t' : Turn R D}
    (h : t.emit (A := Addr) tok onToken = .ok t') :
    t'.nGen = t.nGen + 1 ∧ t'.tokens = t.tokens ++ [t.next] := by
  rw [emit] at h
  split at h
  · cases h
  · obtain rfl := Except.ok.inj h
    exact ⟨rfl, rfl⟩
  · dsimp only at h
    split at h
    · cases h
    · obtain rfl := Except.ok.inj h
      exact ⟨rfl, rfl⟩

theorem Turn.pick_eq {cfg : SamplingCfg D F} {logits : Hidden F} {t t' : Turn R D}
    (h : t.pick (A := Addr) cfg logits = .ok t') :
    t'.nGen = t.nGen ∧ t'.tokens = t.tokens ∧ t'.calls = t.calls := by
  rw [pick] at h
  split at h
  · cases h
  · obtain rfl := Except.ok.inj h
    exact ⟨rfl, rfl, rfl⟩

/-- A full round of `generate` makes one token of the budget. -/
private theorem generateRound_again {m : Pipelined F K} {tok : Tok} {cfg : SamplingCfg D F}
    {onToken : OnToken} {s s' : Turn R D × K}
    (h : generateRound (A := Addr) m tok cfg onToken s = .again s') :
    s.1.nGen < cfg.maxNewTokens ∧ s'.1.nGen = s.1.nGen + 1 := by
  obtain ⟨t, k⟩ := s
  simp only [generateRound] at h
  split at h
  · cases h
  rename_i hgo
  obtain ⟨-, hlt⟩ : tok.isEos t.next = false ∧ t.nGen < cfg.maxNewTokens := by simpa using hgo
  split at h
  · cases h
  rename_i t₁ hemit
  split at h
  · cases h
  split at h
  · cases h
  rename_i t₂ hpick
  obtain rfl := Round.again.inj h
  exact ⟨hlt, (Turn.pick_eq hpick).1.trans (Turn.emit_nGen hemit).1⟩

/-- Before round `n` of `generate`, `n` tokens have been made. -/
theorem nGen_stateAt {m : Pipelined F K} {tok : Tok} {cfg : SamplingCfg D F} {onToken : OnToken}
    {n : Nat} {s s' : Turn R D × K}
    (h : stateAt (generateRound (A := Addr) m tok cfg onToken) n s = some s') :
    s'.1.nGen = s.1.nGen + n := by
  induction n generalizing s with
  | zero =>
      obtain rfl : s = s' := Option.some.inj h
      rfl
  | succ n ih =>
      rw [stateAt] at h
      cases hround : generateRound (A := Addr) m tok cfg onToken s with
      | again s₁ =>
          rw [hround] at h
          rw [ih h, (generateRound_again hround).2]
          omega
      | «return» r =>
          rw [hround] at h
          cases h

/-- `generate` returns. -/
theorem generate_isSome (m : Pipelined F K) (tok : Tok) (cfg : SamplingCfg D F) (onToken : OnToken)
    (prompt : String) (k : K) :
    (generate (R := R) (A := Addr) m tok cfg onToken prompt k).isSome := by
  rw [generate]
  split
  · rfl
  · exact loop_isSome (fun s => cfg.maxNewTokens - s.1.nGen)
      (fun s s' h => by
        obtain ⟨hlt, heq⟩ := generateRound_again h
        omega) _ _ (by omega)

end Total

end IntelNav.Runtime
