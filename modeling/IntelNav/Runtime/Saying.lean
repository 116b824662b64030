import IntelNav.Runtime.Rows
import IntelNav.Runtime.Spec

/-! What turns say: a plain turn stops before a token that ends it, a speculative one after it. -/

set_option autoImplicit false
set_option relaxedAutoImplicit false

namespace IntelNav.Runtime

open IntelNav.Core IntelNav.Ggml

variable {A : Type} {tok : Tok} {onToken : OnToken} {maxNewTokens : Nat}

theorem say_tokens {id : UInt32} {s s' : Said} (h : s.say (A := A) tok onToken id = .ok s') :
    s'.tokens = s.tokens ++ [id] ∧ s'.nGen = s.nGen + 1 := by
  rw [Said.say] at h
  split at h
  · cases h
  · obtain rfl := Except.ok.inj h
    exact ⟨rfl, rfl⟩
  · dsimp only at h
    split at h
    · cases h
    · obtain rfl := Except.ok.inj h
      exact ⟨rfl, rfl⟩

theorem sayAll_tokens {ids : List UInt32} {s s' : Said}
    (h : s.sayAll (A := A) tok maxNewTokens onToken ids = .ok (false, s')) :
    s'.tokens = s.tokens ++ ids ∧ s'.nGen = s.nGen + ids.length := by
  induction ids generalizing s with
  | nil =>
      obtain ⟨-, rfl⟩ := Prod.mk.inj (Except.ok.inj h)
      exact ⟨(List.append_nil _).symm, rfl⟩
  | cons id ids ih =>
      rw [Said.sayAll] at h
      split at h
      · cases (Prod.mk.inj (Except.ok.inj h)).1
      cases hsay : s.say (A := A) tok onToken id with
      | error e => simp [hsay] at h
      | ok s₁ =>
          rw [hsay] at h
          dsimp only at h
          split at h
          · cases (Prod.mk.inj (Except.ok.inj h)).1
          obtain ⟨htokens, hnGen⟩ := ih h
          obtain ⟨htokens₁, hnGen₁⟩ := say_tokens hsay
          refine ⟨?_, ?_⟩
          · rw [htokens, htokens₁, List.append_assoc, List.singleton_append]
          · rw [hnGen, hnGen₁, List.length_cons]
            omega

theorem sayAll_le {ids : List UInt32} {s s' : Said} {stop : Bool}
    (hs : s.nGen ≤ maxNewTokens)
    (h : s.sayAll (A := A) tok maxNewTokens onToken ids = .ok (stop, s')) :
    s'.nGen ≤ maxNewTokens := by
  induction ids generalizing s with
  | nil =>
      obtain ⟨-, rfl⟩ := Prod.mk.inj (Except.ok.inj h)
      exact hs
  | cons id ids ih =>
      rw [Said.sayAll] at h
      split at h
      · obtain ⟨-, rfl⟩ := Prod.mk.inj (Except.ok.inj h)
        exact hs
      rename_i hgo
      cases hsay : s.say (A := A) tok onToken id with
      | error e => simp [hsay] at h
      | ok s₁ =>
          have hle : s₁.nGen ≤ maxNewTokens := by
            rw [(say_tokens hsay).2]
            omega
          rw [hsay] at h
          dsimp only at h
          split at h
          · obtain ⟨-, rfl⟩ := Prod.mk.inj (Except.ok.inj h)
            exact hle
          · exact ih hle h

theorem sayAll_append (ids ids' : List UInt32) (s : Said) :
    s.sayAll (A := A) tok maxNewTokens onToken (ids ++ ids') =
      match s.sayAll (A := A) tok maxNewTokens onToken ids with
      | .ok (false, s) => s.sayAll tok maxNewTokens onToken ids'
      | r => r := by
  induction ids generalizing s with
  | nil => rfl
  | cons id ids ih =>
      rw [List.cons_append, Said.sayAll, Said.sayAll]
      split
      · rfl
      cases s.say (A := A) tok onToken id with
      | error e => rfl
      | ok s =>
          dsimp only
          split
          · rfl
          · exact ih s

theorem sayAll_take (ids : List UInt32) (s : Said) :
    (s.sayAll (A := A) tok maxNewTokens onToken ids).map Prod.snd =
      (s.sayAll (A := A) tok maxNewTokens onToken (ids.take (maxNewTokens - s.nGen))).map
        Prod.snd := by
  induction ids generalizing s with
  | nil => rw [List.take_nil]
  | cons id ids ih =>
      by_cases hgo : s.nGen ≥ maxNewTokens
      · rw [Nat.sub_eq_zero_of_le hgo, List.take_zero]
        simp only [Said.sayAll, if_pos hgo]
        rfl
      obtain ⟨n, hn⟩ := Nat.exists_eq_add_of_lt (Nat.not_le.mp hgo)
      rw [hn, show s.nGen + n + 1 - s.nGen = n + 1 by omega, List.take_succ_cons, Said.sayAll,
        Said.sayAll, ← hn, if_neg hgo, if_neg hgo]
      cases hsay : s.say (A := A) tok onToken id with
      | error e => rfl
      | ok s₁ =>
          have hnGen := (say_tokens hsay).2
          dsimp only
          split
          · rfl
          · rw [ih s₁, show maxNewTokens - s₁.nGen = n by omega]

def Said.sayUntilEos (tok : Tok) (onToken : OnToken) :
    List UInt32 → Said → Except (TurnError A × List String) Said
  | [], s => .ok s
  | id :: ids, s =>
      if tok.isEos id then .ok s
      else
        match s.say tok onToken id with
        | .error e => .error e
        | .ok s => sayUntilEos tok onToken ids s

/-- What a turn returns that has said all it says, or could not say it. -/
def saidResult : Except (TurnError A × List String) Said → TurnResult A
  | .ok s => ⟨.ok s.nGen, s.calls⟩
  | .error e => .failed e

/-- A speculative turn says exactly what a plain one says when no token ends the turn, or when the
plain one fails before. -/
theorem saidResult_eq_iff {ids : List UInt32} {s : Said} (h : s.nGen + ids.length ≤ maxNewTokens) :
    saidResult ((s.sayAll (A := A) tok maxNewTokens onToken ids).map Prod.snd) =
        saidResult (s.sayUntilEos (A := A) tok onToken ids) ↔
      (∀ id ∈ ids, tok.isEos id = false) ∨
        ∃ e, s.sayUntilEos (A := A) tok onToken ids = .error e := by
  induction ids generalizing s with
  | nil => simp [Said.sayAll, Said.sayUntilEos, Except.map]
  | cons id ids ih =>
      rw [List.length_cons] at h
      rw [Said.sayAll, if_neg (show ¬s.nGen ≥ maxNewTokens by omega), Said.sayUntilEos]
      cases hsay : s.say (A := A) tok onToken id with
      | error e =>
          cases heos : tok.isEos id with
          | true => simp [heos, Except.map, saidResult, TurnResult.failed]
          | false => simp [Except.map]
      | ok s₁ =>
          have hnGen := (say_tokens hsay).2
          cases heos : tok.isEos id with
          | true => simp [heos, Except.map, saidResult, hnGen]
          | false =>
              have hnext := ih (s := s₁) (by omega)
              simpa [heos] using hnext

/-- Two turns made the same calls, and returned the same count or the same error. -/
def SameOutput {D J : Type} (r : SpecResult A D J) (r' : TurnResult A) : Prop :=
  r.calls = r'.calls ∧ r.result.map Prod.fst = r'.count.mapError SpecError.turn

end IntelNav.Runtime
