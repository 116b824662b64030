import IntelNav.Runtime.Contract

/-! What `generate` makes of a prompt, whatever the context of the model held before. -/

set_option autoImplicit false
set_option relaxedAutoImplicit false

namespace IntelNav.Runtime

open IntelNav.Core IntelNav.Ggml IntelNav.Transition

/-- A forward pass reads of the context only what `view` shows, and a reset makes all contexts look
the same. -/
structure Forgets {F K V : Type} (m : Pipelined F K) (view : K → V) : Prop where
  resetCache : ∀ k k', view (m.resetCache k) = view (m.resetCache k')
  forward : ∀ ids pos k k', view k = view k' → (m.forward ids pos k).1 = (m.forward ids pos k').1 ∧
    view (m.forward ids pos k).2 = view (m.forward ids pos k').2

variable {R D F K V A : Type} [F32 F] [F64 D F] [SamplerLib R F]
variable {m : Pipelined F K} {view : K → V}

def Alike (view : K → V) (s s' : Turn R D × K) : Prop := s.1 = s'.1 ∧ view s.2 = view s'.2

private theorem generateRound_alike (hm : Forgets m view) (tok : Tok) (cfg : SamplingCfg D F)
    (onToken : OnToken) {s s' : Turn R D × K} (h : Alike view s s') :
    Answers (Alike view) Eq (generateRound (A := A) m tok cfg onToken s)
      (generateRound m tok cfg onToken s') := by
  obtain ⟨t, k⟩ := s
  obtain ⟨t', k'⟩ := s'
  obtain ⟨rfl, hview⟩ : t = t' ∧ view k = view k' := h
  unfold generateRound
  dsimp only
  split
  · rfl
  cases t.emit (A := A) tok onToken with
  | error e => rfl
  | ok t₁ =>
      dsimp only
      obtain ⟨hresult, hafter⟩ := hm.forward [t.next] (t₁.tokens.length - 1) k k' hview
      generalize m.forward [t.next] (t₁.tokens.length - 1) k = r at hresult hafter
      generalize m.forward [t.next] (t₁.tokens.length - 1) k' = r' at hresult hafter
      obtain ⟨logits, k₁⟩ := r
      obtain ⟨logits', k₁'⟩ := r'
      obtain rfl : logits = logits' := hresult
      cases logits with
      | error e => rfl
      | ok logits =>
          dsimp only
          cases t₁.pick (A := A) cfg logits with
          | error e => rfl
          | ok t₂ => exact ⟨rfl, hafter⟩

/-- `generate` starts alike from all contexts. -/
private theorem generateStart_alike (hm : Forgets m view) (tok : Tok) (cfg : SamplingCfg D F)
    (prompt : String) (k k' : K) :
    (∃ s s', generateStart (R := R) (A := A) m tok cfg prompt k = .ok s ∧
      generateStart (A := A) m tok cfg prompt k' = .ok s' ∧ Alike view s s') ∨
    ∃ r, generateStart (R := R) (A := A) m tok cfg prompt k = .error r ∧
      generateStart (R := R) m tok cfg prompt k' = .error r := by
  unfold generateStart
  dsimp only
  cases Turn.start (R := R) (A := A) tok cfg prompt with
  | error e => exact .inr ⟨_, rfl, rfl⟩
  | ok t =>
      dsimp only
      obtain ⟨hresult, hafter⟩ := hm.forward t.tokens 0 _ _ (hm.resetCache k k')
      generalize m.forward t.tokens 0 (m.resetCache k) = r at hresult hafter
      generalize m.forward t.tokens 0 (m.resetCache k') = r' at hresult hafter
      obtain ⟨logits, k₁⟩ := r
      obtain ⟨logits', k₁'⟩ := r'
      obtain rfl : logits = logits' := hresult
      cases logits with
      | error e => exact .inr ⟨_, rfl, rfl⟩
      | ok logits =>
          dsimp only
          cases t.pick (A := A) cfg logits with
          | error e => exact .inr ⟨_, rfl, rfl⟩
          | ok t₁ => exact .inl ⟨_, _, rfl, rfl, rfl, hafter⟩

/-- What `generate` makes of a prompt does not depend on what the context held. -/
theorem generate_fresh (hm : Forgets m view) (tok : Tok) (cfg : SamplingCfg D F)
    (onToken : OnToken) (prompt : String) (k k' : K) :
    generate (R := R) (A := A) m tok cfg onToken prompt k =
      generate (R := R) m tok cfg onToken prompt k' := by
  unfold generate
  rcases generateStart_alike (R := R) (A := A) hm tok cfg prompt k k' with
    ⟨s, s', hs, hs', halike⟩ | ⟨r, hr, hr'⟩
  · rw [hs, hs']
    rcases loop_related (generateRound (A := A) m tok cfg onToken) (generateRound m tok cfg onToken)
      (fun _ _ _ h => generateRound_alike hm tok cfg onToken h) (cfg.maxNewTokens + 1) 0 s s' halike
      with ⟨hnone, hnone'⟩ | ⟨r, r', hr, hr', heq⟩
    · exact hnone.trans hnone'.symm
    · exact hr.trans (heq ▸ hr'.symm)
  · rw [hr, hr']

end IntelNav.Runtime
