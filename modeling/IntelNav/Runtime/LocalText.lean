import IntelNav.Runtime.Contract
import IntelNav.Runtime.Nucleus
import IntelNav.Runtime.SpecRounds
import IntelNav.Runtime.TextStream

/-! The text that `generate` streams: that of tokens which are each sampled from the logits of the
whole text before it. -/

set_option autoImplicit false
set_option relaxedAutoImplicit false

namespace IntelNav.Runtime

open IntelNav.Core IntelNav.Decoding IntelNav.Ggml IntelNav.Transition

variable {R D F E K A : Type} [F32 F] [F64 D F] [SamplerLib R F]

/-- The logits after some tokens, with nothing kept from one token to the next. -/
def RowModel.after (g : RowModel F E) (ts : List UInt32) : Hidden F := g.logits (g.rowsOf ts)

/-- Up to `n` tokens after `ts`, each sampled from the logits of all before it. -/
def sampled (g : RowModel F E) (cfg : SamplerCfg F) :
    Nat → Sampler R D → List UInt32 → List UInt32
  | 0, _, _ => []
  | n + 1, s, ts =>
      match s.sample (g.after ts).data ts cfg with
      | none => []
      | some (id, s) => id :: sampled g cfg n s (ts ++ [id])

def Tok.untilEos (tok : Tok) (ids : List UInt32) : List UInt32 := ids.takeWhile (!tok.isEos ·)

section Forward

variable {m : Pipelined F K} {layer : K → Nat → List E} {g : RowModel F E} {room : Nat}

omit [F32 F] in
/-- A forward pass over caches that hold `ts` gives the logits after all tokens so far. -/
private theorem forward_after (hm : Computes m layer g room) (hu : Unfailing m layer g room)
    {ts ids : List UInt32} (hne : ids ≠ []) {k : K} (hk : HoldsTokens layer g room k ts)
    (hroom : ts.length + ids.length ≤ room) :
    ∃ k', m.forward ids ts.length k = (.ok (g.after (ts ++ ids)), k') ∧
      HoldsTokens layer g room k' (ts ++ ids) := by
  have hlength : ∀ i < g.blocks, (layer k i).length = ts.length := by
    intro i hi
    rw [hk.cached i hi, RowModel.length_cached, RowModel.embedAll, List.length_map]
  obtain ⟨y, k', hrun⟩ := hu.forward ids ts.length k hne hroom hlength
  obtain ⟨rfl, hk'⟩ := hm.forward_holds hk hrun
  exact ⟨k', hrun, hk'⟩

end Forward

private theorem Sampler.sample_isSome (s : Sampler R D) {logits : List F} (hne : logits ≠ [])
    (ctx : List UInt32) (cfg : SamplerCfg F) : ∃ r, s.sample logits ctx cfg = some r := by
  rw [Sampler.sample, if_neg (by simpa using hne)]
  dsimp only
  split
  · exact ⟨_, rfl⟩
  · exact ⟨_, rfl⟩

omit [F32 F] [F64 D F] [SamplerLib R F] in
private theorem Turn.emit_ok {tok : Tok} {t : Turn R D} {chunk : Option String}
    {d : IncrementalDecoder} (h : t.decoder.push tok t.next = .ok (chunk, d)) :
    t.emit (A := A) tok (fun _ => .ok ()) = .ok { t with
      tokens := t.tokens ++ [t.next]
      nGen := t.nGen + 1
      decoder := d
      calls := t.calls ++ chunk.toList } := by
  rw [Turn.emit, h]
  cases chunk with
  | none => simp
  | some txt => rfl

private theorem pushAll_next {tok : Tok} {seen : List UInt32} {id : UInt32} {calls : List String}
    {d : IncrementalDecoder} (h : IncrementalDecoder.pushAll tok seen = .ok (String.join calls, d))
    {text : String} {d' : IncrementalDecoder}
    (hnext : IncrementalDecoder.pushAll tok (seen ++ [id]) = .ok (text, d')) :
    ∃ chunk, d.push tok id = .ok (chunk, d') ∧ text = String.join (calls ++ chunk.toList) := by
  rw [pushAll_concat, h] at hnext
  change IncrementalDecoder.next tok (String.join calls, d) id = _ at hnext
  unfold IncrementalDecoder.next at hnext
  cases hpush : d.push tok id with
  | error e =>
      rw [hpush] at hnext
      cases hnext
  | ok r =>
      obtain ⟨chunk, d₁⟩ := r
      rw [hpush] at hnext
      obtain ⟨rfl, rfl⟩ := Prod.mk.inj (Except.ok.inj hnext)
      refine ⟨chunk, rfl, ?_⟩
      rw [String.join_append]
      cases chunk <;> simp

section Loop

variable {m : Pipelined F K} {layer : K → Nat → List E} {g : RowModel F E} {room : Nat} {tok : Tok}
  {cfg : SamplingCfg D F} {seen : List UInt32} {s : Sampler R D} {t : Turn R D} {k : K}

/-- At the head of the loop the caches hold the text so far, the next token is sampled from its
logits, and the calls made are its text. -/
structure LocalHead (layer : K → Nat → List E) (g : RowModel F E) (room : Nat) (tok : Tok)
    (cfg : SamplingCfg D F) (seen : List UInt32) (s : Sampler R D) (t : Turn R D)
    (k : K) : Prop where
  next_eq : s.sample (g.after t.tokens).data t.tokens ⟨cfg.repeatPenalty, cfg.repeatCtx⟩ =
    some (t.next, t.sampler)
  holds : HoldsTokens layer g room k t.tokens
  text : IncrementalDecoder.pushAll tok seen = .ok (String.join t.calls, t.decoder)

omit [F32 F] [F64 D F] [SamplerLib R F] in
private theorem RowModel.after_ne_nil (g : RowModel F E) (ts : List UInt32) :
    (g.after ts).data ≠ [] := by
  intro h
  have hlength := g.length_head ((g.rowsOf ts).getLastD [])
  rw [show g.head ((g.rowsOf ts).getLastD []) = [] from h] at hlength
  exact g.vocab_pos.ne hlength

private theorem localHead_round (hm : Computes m layer g room) (hu : Unfailing m layer g room)
    (h : LocalHead layer g room tok cfg seen s t k) (hgo : t.nGen < cfg.maxNewTokens)
    (heos : tok.isEos t.next = false) (hroom : t.tokens.length + 1 ≤ room)
    (hpush : ∃ text d, IncrementalDecoder.pushAll tok (seen ++ [t.next]) = .ok (text, d)) :
    ∃ t' k', generateRound (A := A) m tok cfg (fun _ => .ok ()) (t, k) = .again (t', k') ∧
      LocalHead layer g room tok cfg (seen ++ [t.next]) t.sampler t' k' ∧
      t'.tokens = t.tokens ++ [t.next] ∧ t'.nGen = t.nGen + 1 := by
  obtain ⟨text, d, hpush⟩ := hpush
  obtain ⟨chunk, hchunk, rfl⟩ := pushAll_next h.text hpush
  obtain ⟨k', hforward, hk'⟩ :=
    forward_after hm hu (List.cons_ne_nil t.next []) h.holds hroom
  obtain ⟨⟨next, sampler⟩, hsample⟩ := t.sampler.sample_isSome
    (g.after_ne_nil (t.tokens ++ [t.next])) (t.tokens ++ [t.next])
    ⟨cfg.repeatPenalty, cfg.repeatCtx⟩
  have hstay : ¬(tok.isEos t.next || t.nGen ≥ cfg.maxNewTokens) = true := by
    simp [heos, hgo]
  have hpos : (t.tokens ++ [t.next]).length - 1 = t.tokens.length := by
    rw [List.length_append, List.length_singleton, Nat.add_sub_cancel]
  let t₁ : Turn R D :=
    { tokens := t.tokens ++ [t.next], sampler := sampler, decoder := d, next := next,
      nGen := t.nGen + 1, calls := t.calls ++ chunk.toList }
  refine ⟨t₁, k', ?_, ⟨hsample, hk', hpush⟩, rfl, rfl⟩
  simp only [generateRound, if_neg hstay, Turn.emit_ok hchunk, hpos, hforward, Turn.pick, hsample]
  rfl

/-- From the head of its loop a turn says what is sampled up to the token that ends it. -/
private theorem loop_says (hm : Computes m layer g room) (hu : Unfailing m layer g room)
    {left : Nat}
    (h : LocalHead layer g room tok cfg seen s t k) (hleft : t.nGen + left = cfg.maxNewTokens)
    (hroom : t.tokens.length + left ≤ room)
    (hpush : ∀ said, said <+: tok.untilEos
        (sampled g ⟨cfg.repeatPenalty, cfg.repeatCtx⟩ left s t.tokens) →
      ∃ text d, IncrementalDecoder.pushAll tok (seen ++ said) = .ok (text, d))
    {fuel : Nat} (hfuel : left < fuel) :
    let said := tok.untilEos (sampled g ⟨cfg.repeatPenalty, cfg.repeatCtx⟩ left s t.tokens)
    ∃ calls d, loop (generateRound (A := A) m tok cfg (fun _ => .ok ())) fuel (t, k) =
        some ⟨.ok (t.nGen + said.length), calls⟩ ∧
      IncrementalDecoder.pushAll tok (seen ++ said) = .ok (String.join calls, d) := by
  induction fuel generalizing left seen s t k with
  | zero => omega
  | succ fuel ih =>
      cases left with
      | zero =>
          have hstop : (tok.isEos t.next || decide (t.nGen ≥ cfg.maxNewTokens)) = true := by
            simp only [Bool.or_eq_true, decide_eq_true_eq]
            omega
          refine ⟨t.calls, t.decoder, ?_, by simpa [sampled, Tok.untilEos] using h.text⟩
          rw [loop]
          simp only [generateRound, if_pos hstop]
          rfl
      | succ left =>
          have hsampled : sampled g ⟨cfg.repeatPenalty, cfg.repeatCtx⟩ (left + 1) s t.tokens =
              t.next :: sampled g ⟨cfg.repeatPenalty, cfg.repeatCtx⟩ left t.sampler
                (t.tokens ++ [t.next]) := by
            rw [sampled, h.next_eq]
          rw [hsampled] at hpush ⊢
          cases heos : tok.isEos t.next with
          | true =>
              have hnone : tok.untilEos (t.next :: sampled g ⟨cfg.repeatPenalty, cfg.repeatCtx⟩ left
                  t.sampler (t.tokens ++ [t.next])) = [] := by
                rw [Tok.untilEos, List.takeWhile_cons_of_neg (by simp [heos])]
              rw [hnone]
              refine ⟨t.calls, t.decoder, ?_, by simpa using h.text⟩
              rw [loop]
              simp only [generateRound, heos, Bool.true_or, if_true]
              rfl
          | false =>
              have hsome : tok.untilEos (t.next :: sampled g ⟨cfg.repeatPenalty, cfg.repeatCtx⟩ left
                  t.sampler (t.tokens ++ [t.next])) =
                  t.next :: tok.untilEos (sampled g ⟨cfg.repeatPenalty, cfg.repeatCtx⟩ left
                    t.sampler (t.tokens ++ [t.next])) := by
                rw [Tok.untilEos, List.takeWhile_cons_of_pos (by simp [heos])]
                rfl
              rw [hsome] at hpush ⊢
              obtain ⟨t', k', hround, h', htokens, hnGen⟩ := localHead_round (A := A) hm hu h
                (by omega) heos (by omega)
                (hpush [t.next] (List.cons_prefix_cons.mpr ⟨rfl, List.nil_prefix⟩))
              rw [← htokens] at hpush ⊢
              have hlength : t'.tokens.length = t.tokens.length + 1 := by
                rw [htokens, List.length_append, List.length_singleton]
              have hleft' : t'.nGen + left = cfg.maxNewTokens := by omega
              obtain ⟨calls, d, hloop, htext⟩ := ih h' hleft' (by omega)
                (fun said hsaid => by
                  have hprefix := hpush (t.next :: said) (List.cons_prefix_cons.mpr ⟨rfl, hsaid⟩)
                  rwa [List.append_cons] at hprefix) (by omega)
              refine ⟨calls, d, ?_, by rwa [List.append_cons]⟩
              rw [loop, hround]
              dsimp only
              rw [hloop, hnGen, List.length_cons, Nat.add_assoc, Nat.add_comm 1]

/-- What `generate` streams of a prompt is the text of the tokens sampled after it, up to the first
that ends the turn and no more than asked for; whatever the caches held before. -/
theorem generate_text (hm : Computes m layer g room) (hu : Unfailing m layer g room)
    {bytes : UInt32 → List UInt8} (hbyte : ByteLevel tok bytes) {prompt : String}
    {ids : List UInt32} (hids : tok.encode prompt = .ok ids) (hne : ids ≠ [])
    (hroom : ids.length + cfg.maxNewTokens ≤ room)
    (hharmless : SplitsHarmless bytes (tok.untilEos
      (sampled g ⟨cfg.repeatPenalty, cfg.repeatCtx⟩ cfg.maxNewTokens
        (Sampler.new F cfg.seed cfg.temperature cfg.topP : Sampler R D) ids))) (k : K) :
    let said := tok.untilEos (sampled g ⟨cfg.repeatPenalty, cfg.repeatCtx⟩ cfg.maxNewTokens
      (Sampler.new F cfg.seed cfg.temperature cfg.topP : Sampler R D) ids)
    ∃ calls, generate (R := R) (A := A) m tok cfg (fun _ => .ok ()) prompt k =
        some ⟨.ok said.length, calls⟩ ∧
      (ValidUtf8 (said.flatMap bytes) → tok.decode said = .ok (String.join calls)) := by
  intro said
  have hdecoded : TextIsDecoded tok bytes said := (textIsDecoded_iff hbyte said).mpr hharmless
  have hreset : HoldsTokens layer g room (m.resetCache k) [] :=
    ⟨fun i _ => by rw [hm.resetCache, RowModel.embedAll, List.map_nil, RowModel.cached_nil],
      Nat.zero_le room⟩
  obtain ⟨k', hforward, hk'⟩ := forward_after hm hu hne hreset (by simpa using by omega)
  rw [List.nil_append] at hforward hk'
  obtain ⟨⟨next, sampler⟩, hsample⟩ :=
    (Sampler.new F cfg.seed cfg.temperature cfg.topP : Sampler R D).sample_isSome
      (g.after_ne_nil ids) ids ⟨cfg.repeatPenalty, cfg.repeatCtx⟩
  let t : Turn R D :=
    { tokens := ids, sampler := sampler, decoder := .new, next := next, nGen := 0, calls := [] }
  have hstart : generateStart (R := R) (A := A) m tok cfg prompt k = .ok (t, k') := by
    have hempty : ids.isEmpty = false := List.isEmpty_eq_false_iff.mpr hne
    simp only [generateStart, Turn.start, hids, hempty, Bool.false_eq_true, if_false]
    rw [show m.forward ids 0 (m.resetCache k) = _ from hforward]
    simp only [Turn.pick, hsample]
    rfl
  have hhead : LocalHead layer g room tok cfg [] (Sampler.new F cfg.seed cfg.temperature cfg.topP) t
      k' := ⟨hsample, hk', rfl⟩
  obtain ⟨calls, d, hloop, htext⟩ := loop_says (A := A) hm hu hhead (Nat.zero_add _) hroom
    (fun pre hpre => by
      obtain ⟨text, d, hpush, -⟩ := hdecoded pre hpre
      exact ⟨text, d, hpush⟩) (Nat.lt_succ_self _)
  refine ⟨calls, ?_, fun hvalid => ?_⟩
  · rw [generate, hstart]
    dsimp only
    rw [hloop, show t.nGen + said.length = said.length from Nat.zero_add _]
  · obtain ⟨text, d', hpush, hdecode⟩ := hdecoded said (List.prefix_refl said)
    obtain ⟨rfl, -⟩ := Prod.mk.inj (Except.ok.inj (hpush.symm.trans htext))
    exact hdecode hvalid

end Loop

def countingRows : RowModel ℚ ℚ where
  blocks := 1
  width := 1
  vocab := 3
  embed t := [t.toNat]
  block _ _ r := (r.headD 0, r)
  head r := [0, 1, 2].map fun i => if i = r.headD 0 + 1 then 1 else 0
  width_pos := Nat.one_pos
  vocab_pos := Nat.succ_pos 2
  length_embed _ := rfl
  length_block _ _ _ h := h
  length_head _ := rfl

def letterOf (id : UInt32) : List UInt8 := [0x61 + id.toUInt8]

def countingTok : Tok where
  encode _ := .ok [0]
  decode ids := .ok (String.ofList (Text.lossy (ids.flatMap letterOf)))
  eosIds := [2]

def countingCfg : SamplingCfg ℚ ℚ where
  temperature := 0
  topP := none
  repeatPenalty := 1
  repeatCtx := 64
  seed := 0
  maxNewTokens := 4

private theorem counting_said : countingTok.untilEos (sampled countingRows
    ⟨countingCfg.repeatPenalty, countingCfg.repeatCtx⟩ countingCfg.maxNewTokens
    (Sampler.new ℚ countingCfg.seed countingCfg.temperature countingCfg.topP : Sampler UnitDraw ℚ)
    [0]) = [1] := by
  decide +kernel

theorem generate_text_counting :
    ∃ calls, generate (R := UnitDraw) (A := Empty)
    (countingRows.pipelined 8) countingTok countingCfg
        (fun _ => .ok ()) "a" (fun _ => [9]) = some ⟨.ok 1, calls⟩ ∧
      countingTok.decode [1] = .ok (String.join calls) := by
  have hharmless : SplitsHarmless letterOf [1] := by
    intro seen later x rest hseen hlater htail
    have htails : ∀ ids ∈ [1].inits, (scanned letterOf ids).tail = [] := by decide +kernel
    exact absurd (htails seen ((List.mem_inits _ _).mpr (hseen.trans hlater))) htail
  have hvalid : ValidUtf8 ([1].flatMap letterOf) := ⟨['b'], by decide +kernel⟩
  obtain ⟨calls, hcalls, htext⟩ := generate_text (R := UnitDraw) (A := Empty)
    (countingRows.computes_pipelined (by decide)) (countingRows.unfailing_pipelined 8)
    (fun _ => rfl) rfl (List.cons_ne_nil 0 []) (by decide) (counting_said ▸ hharmless)
    (fun _ => [9])
  rw [counting_said] at hcalls htext
  exact ⟨calls, hcalls, htext hvalid⟩

end IntelNav.Runtime
