import IntelNav.Ggml.Hidden
import IntelNav.Cache.Positions

/-! The contract every model backend has to meet (`crates/runtime/src/pipeline.rs`), and the backend
over libllama (`crates/runtime/src/ggml_backend.rs`), for the calls a forward listener makes. -/

set_option autoImplicit false
set_option relaxedAutoImplicit false

namespace IntelNav.Runtime

open IntelNav.Cache IntelNav.Ggml

/-- A loaded model: the calls of `Forwarding` and `Pipelined`, each a function of the inference
context `K` (the KV caches) and its arguments, returning the context it leaves. -/
structure Pipelined (F K : Type) where
  blockCount : Nat
  resetCache : K → K
  forward : List UInt32 → Nat → K → Except String (Hidden F) × K
  embed : List UInt32 → K → Except String (Hidden F) × K
  forwardRange : Hidden F → Nat → Nat → Nat → K → Except String (Hidden F) × K
  head : Hidden F → K → Except String (Hidden F) × K
  headAll : Hidden F → K → Except String (Hidden F) × K
  truncateKvTo : Nat → K → Except String Unit × K

def Pipelined.Clears {F K : Type} (m : Pipelined F K) : Prop :=
  ∀ k k', m.resetCache k = m.resetCache k'

/-- The model of a stitched file: its block `i` is block `start + i` of the original. -/
def Pipelined.stitched {F K : Type} (m : Pipelined F K) (start stop : Nat) : Pipelined F K :=
  { m with
    blockCount := stop - start
    forwardRange := fun x pos s e k => m.forwardRange x pos (start + s) (start + e) k }

variable {F E : Type}

/-- A `usize` or a `u32` as `i32`. -/
def asI32 (n : Nat) : Int := Int.bmod n 4294967296

/-- Addition of two `i32`, which wraps. -/
def addI32 (a b : Int) : Int := Int.bmod (a + b) 4294967296

/-- An `i32` as `usize`. -/
def asUsize (i : Int) : Nat := (i % usizeMod).toNat

/-- A context of libllama: `decode_layers` gives the cache entry and the hidden state of each row of
its batch, or fails, from the cells it finds. -/
structure Llama (F E : Type) where
  nEmbd : Int32
  nCtx : Int32
  decodeLayers (cells : List (Int × E)) (batch : List (Int × List F)) (start stop : Int) :
    Except String (Vector (E × List F) batch.length)

/-- The positions `fill_embeddings` and `fill_tokens` give a batch. -/
def batchPositions (nTokens : Nat) (posStart : Int) : List Int :=
  (List.range nTokens).map fun i => addI32 posStart (asI32 i)

/-- `fill_embeddings`: the rows of a batch with their positions. -/
def fillEmbeddings (embd : List F) (nTokens nEmbd : Nat) (posStart : Int) :
    List (Int × List F) :=
  (batchPositions nTokens posStart).zip ((List.range nTokens).map (rowSlice embd nEmbd))

namespace Llama

variable (L : Llama F E)

/-- `check_hidden`: a state of shape `[1, seq, n_embd]`; returns `seq`. -/
def checkHidden (x : Hidden F) : Except String Nat :=
  match x.shape with
  | [b, seq, h] =>
      if b ≠ 1 then .error s!"ggml adapter: only batch=1 supported, got {b}"
      else if seq = 0 ∨ seq > asUsize L.nCtx.toInt then
        .error s!"ggml adapter: seq_len {seq} out of bounds (0, {asUsize L.nCtx.toInt}] (n_ctx)"
      else if asI32 h ≠ L.nEmbd.toInt then
        .error s!"ggml adapter: hidden dim mismatch (input {h}, model {L.nEmbd})"
      else if seq * h ≥ usizeMod then .error s!"ggml adapter: seq*hidden overflow ({seq} * {h})"
      else if x.data.length ≠ seq * h then
        .error s!"ggml adapter: data len {x.data.length} != seq*hidden {seq * h} (shape {x.shape})"
      else .ok seq
  | shape => .error s!"ggml adapter: expected rank-3 Hidden [1, seq, hidden], got shape {shape}"

/-- `forward_range`: the batch at `index_pos` through the layers, its entries into the cache. -/
def forwardRange (x : Hidden F) (indexPos start stop : Nat) (kv : PositionCache E) :
    Except String (Hidden F) × PositionCache E :=
  match L.checkHidden x with
  | .error e => (.error e, kv)
  | .ok seq =>
      -- The capacity of a batch is an `i32`, asserted to be positive.
      if asI32 seq ≤ 0 ∨ L.nEmbd.toInt ≤ 0 then (.error "batch capacity must be > 0", kv)
      else
        let batch := fillEmbeddings x.data seq (asUsize L.nEmbd.toInt) (asI32 indexPos)
        match L.decodeLayers kv.cells batch (asI32 start) (asI32 stop) with
        | .error e => (.error s!"decode_layers([{start}, {stop})): {e}", kv)
        | .ok rows =>
            let kv := kv.write ((batch.map Prod.fst).zip (rows.toList.map Prod.fst))
            match Hidden.new (rows.toList.flatMap Prod.snd) [1, seq, asUsize L.nEmbd.toInt] with
            | .error _ => (.error "data len does not match the shape", kv)
            | .ok out => (.ok out, kv)

/-- `truncate_kv_to`: `kv_seq_rm(0, keep as i32, -1)`. -/
def truncateKvTo (keep : Nat) (kv : PositionCache E) : Except String Unit × PositionCache E :=
  (.ok (), kv.dropFrom (asI32 keep))

/-- `GgmlBackend` on one context: the calls that a forward listener makes; the others are those of
`base`. -/
def backend (base : Pipelined F (PositionCache E)) : Pipelined F (PositionCache E) :=
  { base with
    resetCache := fun kv => kv.dropFrom (-1)
    forwardRange := L.forwardRange
    truncateKvTo := truncateKvTo }

end Llama

theorem asI32_of_lt {n : Nat} (h : n < 2 ^ 31) : asI32 n = n := by
  refine Int.bmod_eq_of_le ?_ ?_
  · omega
  · omega

private theorem addI32_of_lt {m n : Nat} (h : m + n < 2 ^ 31) : addI32 m n = (m + n : Nat) := by
  refine (Int.bmod_eq_of_le (m := 4294967296) ?_ ?_).trans (Int.natCast_add m n).symm
  · omega
  · omega

private theorem addI32_lt (a b : Int) : addI32 a b < 2 ^ 31 := by
  unfold addI32
  have hdef := Int.bmod_def (a + b) 4294967296
  split_ifs at hdef
  · omega
  · omega

private theorem positions_fillEmbeddings (embd : List F) (nTokens nEmbd : Nat) (posStart : Int) :
    (fillEmbeddings embd nTokens nEmbd posStart).map Prod.fst =
      batchPositions nTokens posStart := by
  rw [fillEmbeddings, List.map_fst_zip (by simp [batchPositions])]

/-- The positions of a batch that ends at `2 ^ 31` at most are those that follow `indexPos`. -/
theorem batchPositions_of_le {nTokens indexPos : Nat} (h : indexPos + nTokens ≤ 2 ^ 31) :
    batchPositions nTokens (asI32 indexPos) =
      (List.range nTokens).map fun i => ((indexPos + i : Nat) : Int) := by
  refine List.map_congr_left fun i hi => ?_
  have hi := List.mem_range.mp hi
  rw [asI32_of_lt (by omega), asI32_of_lt (by omega)]
  exact addI32_of_lt (by omega)

/-- No position of a batch is `2 ^ 31` or above. -/
theorem lt_of_mem_batchPositions {nTokens : Nat} {posStart p : Int}
    (h : p ∈ batchPositions nTokens posStart) : p < 2 ^ 31 := by
  obtain ⟨i, -, rfl⟩ := List.mem_map.mp h
  exact addI32_lt _ _

namespace Llama

variable {L : Llama F E}

/-- What `forward_range` does when it succeeds: the entries of one batch at `index_pos`. -/
theorem forwardRange_ok {x : Hidden F} {indexPos start stop : Nat} {kv kv' : PositionCache E}
    {out : Hidden F} (h : L.forwardRange x indexPos start stop kv = (.ok out, kv')) :
    ∃ b seq h' batch, x.shape = [b, seq, h'] ∧ 0 < seq ∧ kv' = kv.write batch ∧
      batch.map Prod.fst = batchPositions seq (asI32 indexPos) := by
  rw [forwardRange] at h
  cases hcheck : L.checkHidden x with
  | error e => simp [hcheck] at h
  | ok seq =>
      rw [hcheck] at h
      have hcap : ¬ (asI32 seq ≤ 0 ∨ L.nEmbd.toInt ≤ 0) := by
        intro hcap
        simp only [if_pos hcap, Prod.mk.injEq, reduceCtorEq, false_and] at h
      dsimp only at h
      rw [if_neg hcap] at h
      generalize hbatch : fillEmbeddings x.data seq (asUsize L.nEmbd.toInt) (asI32 indexPos) =
        batch at h
      cases hdec : L.decodeLayers kv.cells batch (asI32 start) (asI32 stop) with
      | error e => simp [hdec] at h
      | ok rows =>
          rw [hdec] at h
          dsimp only at h
          have hkv : kv' =
              kv.write ((batch.map Prod.fst).zip (rows.toList.map Prod.fst)) := by
            split at h
            · cases h
            · exact (Prod.mk.inj h).2.symm
          have hshape : ∃ b h', x.shape = [b, seq, h'] := by
            rw [checkHidden] at hcheck
            split at hcheck
            · rename_i b s h' hx
              split_ifs at hcheck
              obtain rfl := Except.ok.inj hcheck
              exact ⟨b, h', hx⟩
            · cases hcheck
          obtain ⟨b, h', hx⟩ := hshape
          refine ⟨b, seq, h', _, hx, ?_, hkv, ?_⟩
          · by_contra hzero
            obtain rfl : seq = 0 := by omega
            exact hcap (.inl (by decide))
          · rw [List.map_fst_zip (by simp), ← hbatch, positions_fillEmbeddings]

end Llama

end IntelNav.Runtime
