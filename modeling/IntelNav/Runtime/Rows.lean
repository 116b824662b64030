import IntelNav.Decoding.Causal
import IntelNav.Ggml.Payload
import IntelNav.Runtime.GgmlBackend

/-! Models as pure functions of rows: a batch is its rows one after another, and each block keeps
one cache entry for each row it has seen (`crates/runtime/src/pipeline.rs`). -/

set_option autoImplicit false
set_option relaxedAutoImplicit false

namespace IntelNav.Runtime

open IntelNav.Core IntelNav.Decoding IntelNav.Ggml IntelNav.Wire

variable {F E K : Type}

/-- Rows of width `w` as one state of batch size one. -/
def ofRows (w : Nat) (rows : List (List F)) : Hidden F := ⟨rows.flatten, [1, rows.length, w]⟩

/-- The functions a model computes: the embedding of a token, what each block keeps of a row and
makes of it, and the logits of a row. -/
structure RowModel (F E : Type) where
  blocks : Nat
  width : Nat
  vocab : Nat
  embed : UInt32 → List F
  block : Nat → List E → List F → E × List F
  head : List F → List F
  width_pos : 0 < width
  vocab_pos : 0 < vocab
  length_embed : ∀ t, (embed t).length = width
  length_block : ∀ i es r, r.length = width → (block i es r).2.length = width
  length_head : ∀ r, (head r).length = vocab

namespace RowModel

variable (g : RowModel F E)

/-- What the blocks from `s` to `e` make of some rows when their caches are `v`. -/
def run (s e : Nat) (v : Nat → List E) (rows : List (List F)) : List (List F) :=
  passAt (fun i => g.block (s + i)) (fun i => v (s + i)) (e - s) rows

/-- The cache of block `i` after the rows entered at block `s`. -/
def kept (s : Nat) (v : Nat → List E) (i : Nat) (rows : List (List F)) : List E :=
  filled (fun j => g.block (s + j)) (fun j => v (s + j)) (i - s) rows

/-- What the blocks from `s` to `e` make of rows that are the first ones. -/
def through (s e : Nat) (rows : List (List F)) : List (List F) := g.run s e (fun _ => []) rows

/-- The cache of block `i` when it holds the given rows, which entered at block `s`. -/
def cached (s : Nat) (rows : List (List F)) (i : Nat) : List E := g.kept s (fun _ => []) i rows

def embedAll (ids : List UInt32) : List (List F) := ids.map g.embed

variable {g}

theorem causal_through (s e : Nat) : Causal (g.through s e) := causal_passAt _ _

@[simp] theorem length_through (s e : Nat) (rows : List (List F)) :
    (g.through s e rows).length = rows.length := length_passAt _ _ _

@[simp] theorem length_cached (s i : Nat) (rows : List (List F)) :
    (g.cached s rows i).length = rows.length := by
  rw [cached, kept, length_filled, List.length_nil, Nat.zero_add]

@[simp] theorem through_nil (s e : Nat) : g.through s e [] = [] :=
  List.eq_nil_of_length_eq_zero (length_through s e [])

@[simp] theorem cached_nil (s i : Nat) : g.cached s [] i = [] :=
  List.eq_nil_of_length_eq_zero (length_cached s i [])

theorem width_embedAll {ids : List UInt32} : ∀ r ∈ g.embedAll ids, r.length = g.width := by
  intro r hr
  obtain ⟨t, -, rfl⟩ := List.mem_map.mp hr
  exact g.length_embed t

private theorem width_run {s e : Nat} {v : Nat → List E} {rows : List (List F)}
    (hrows : ∀ r ∈ rows, r.length = g.width) : ∀ r ∈ g.run s e v rows, r.length = g.width :=
  forall_mem_passAt (fun i => g.length_block (s + i)) _ _ hrows

theorem width_through {s e : Nat} {rows : List (List F)}
    (hrows : ∀ r ∈ rows, r.length = g.width) : ∀ r ∈ g.through s e rows, r.length = g.width :=
  width_run hrows

theorem take_cached (s : Nat) (xs ys : List (List F)) (i : Nat) :
    (g.cached s (xs ++ ys) i).take xs.length = g.cached s xs i := by
  have h := filled_take (f := fun j => g.block (s + j)) (fun _ => []) (i - s) xs ys
  rwa [List.length_nil, Nat.zero_add] at h

theorem run_of_cached {s e : Nat} {v : Nat → List E} {xs : List (List F)}
    (hv : ∀ i, s ≤ i → i < e → v i = g.cached s xs i) (ys : List (List F)) :
    g.run s e v ys = later (g.through s e) xs ys := by
  have hlater : later (g.through s e) xs ys = _ := later_passAt _ (e - s) xs ys
  rw [hlater, run]
  refine passAt_congr (fun i hi => ?_) ys
  rw [hv (s + i) (Nat.le_add_right s i) (by omega), cached, kept, Nat.add_sub_cancel_left]

theorem kept_of_cached {s e : Nat} {v : Nat → List E} {xs : List (List F)}
    (hv : ∀ i, s ≤ i → i < e → v i = g.cached s xs i) {i : Nat} (hs : s ≤ i) (he : i < e)
    (ys : List (List F)) : g.kept s v i ys = g.cached s (xs ++ ys) i := by
  rw [cached, kept, kept, filled_append]
  refine filled_congr (fun j hj => ?_) ys
  rw [hv (s + j) (Nat.le_add_right s j) (by omega), cached, kept, Nat.add_sub_cancel_left]

end RowModel

section Logits

variable [F32 F] (g : RowModel F E)

def RowModel.logits (rows : List (List F)) : Hidden F :=
  ⟨g.head (rows.getLastD []), [1, g.vocab]⟩

def RowModel.allLogits (rows : List (List F)) : Hidden F := ofRows g.vocab (rows.map g.head)

def RowModel.best (rows : List (List F)) : UInt32 :=
  UInt32.ofNat (argmaxFold (g.head (rows.getLastD [])) % g.vocab)

variable {g}

theorem RowModel.argmaxLast_logits (rows : List (List F)) :
    (g.logits rows).argmaxLast = .ok (g.best rows) := by
  have hne : (g.head (rows.getLastD [])).isEmpty = false := by
    rw [List.isEmpty_eq_false_iff, ← List.length_pos_iff, g.length_head]
    exact g.vocab_pos
  simp only [Hidden.argmaxLast, logits, hne, Bool.false_eq_true, if_false]
  rfl

omit [F32 F] in
private theorem selectPosition_ofRows {rows : List (List F)} {w i : Nat}
    (hrows : ∀ r ∈ rows, r.length = w) (hi : i < rows.length) :
    (ofRows w rows).selectPosition i = .ok ⟨rows[i], [1, w]⟩ := by
  have hslice := rowSlice_flatten hrows i hi
  have hlen : rows[i].length = [1, w].prod := by
    simpa using hrows _ (List.getElem_mem hi)
  rw [rowSlice] at hslice
  simp [Hidden.selectPosition, ofRows, Nat.not_le.mpr hi, hslice, Hidden.new, hlen]

omit [F32 F] in
theorem RowModel.selectPosition_allLogits {G : List UInt32 → List (List F)} (hG : Causal G)
    (ts : List UInt32) {ds : List UInt32} {i : Nat} (hi : i < ds.length) :
    (g.allLogits (later G ts ds)).selectPosition i =
      .ok (g.logits (G (ts ++ ds.take (i + 1)))) := by
  have hlt : i < (later G ts ds).length := by rwa [hG.length_later]
  have hrows : ∀ r ∈ (later G ts ds).map g.head, r.length = g.vocab := by
    intro r hr
    obtain ⟨r', -, rfl⟩ := List.mem_map.mp hr
    exact g.length_head r'
  have hlast := hG.getElem?_later ts hi
  rw [List.getElem?_eq_getElem hlt] at hlast
  rw [allLogits, selectPosition_ofRows hrows (by simpa using hlt), List.getElem_map, logits,
    List.getLastD_eq_getLast?, ← hlast]
  rfl

end Logits

/-- The calls of a model, where they succeed, do what `g` says to contexts that hold one cache for
each block; a context has room for `room` positions, a `u32`. -/
structure Computes (m : Pipelined F K) (layer : K → Nat → List E) (g : RowModel F E)
    (room : Nat) : Prop where
  room_lt : room < 2 ^ 32
  blockCount : m.blockCount = g.blocks
  resetCache : ∀ k i, layer (m.resetCache k) i = []
  embed : ∀ ids k x k', m.embed ids k = (.ok x, k') →
    x = ofRows g.width (g.embedAll ids) ∧ layer k' = layer k
  forwardRange : ∀ rows pos s e k y k', s ≤ e → e ≤ g.blocks →
    (∀ r ∈ rows, r.length = g.width) → (∀ i, s ≤ i → i < e → (layer k i).length = pos) →
    m.forwardRange (ofRows g.width rows) pos s e k = (.ok y, k') →
      y = ofRows g.width (g.run s e (layer k) rows) ∧
      (∀ i, s ≤ i → i < e → layer k' i = g.kept s (layer k) i rows) ∧
      (∀ i, i < s ∨ e ≤ i → layer k' i = layer k i) ∧ pos + rows.length ≤ room
  head : ∀ rows k y k', (∀ r ∈ rows, r.length = g.width) →
    m.head (ofRows g.width rows) k = (.ok y, k') →
    (∃ r, rows.getLast? = some r ∧ y = ⟨g.head r, [1, g.vocab]⟩) ∧ layer k' = layer k
  headAll : ∀ rows k y k', (∀ r ∈ rows, r.length = g.width) →
    m.headAll (ofRows g.width rows) k = (.ok y, k') →
    y = ofRows g.vocab (rows.map g.head) ∧ layer k' = layer k
  forward : ∀ ids pos k y k', (∀ i < g.blocks, (layer k i).length = pos) →
    m.forward ids pos k = (.ok y, k') →
      (∃ r, (g.run 0 g.blocks (layer k) (g.embedAll ids)).getLast? = some r ∧
        y = ⟨g.head r, [1, g.vocab]⟩) ∧
      (∀ i < g.blocks, layer k' i = g.kept 0 (layer k) i (g.embedAll ids)) ∧
      pos + ids.length ≤ room
  truncateKvTo : ∀ n k k', n ≤ room → m.truncateKvTo n k = (.ok (), k') →
    ∀ i, layer k' i = (layer k i).take n

/-- No call of the model fails while the context has room. -/
structure Unfailing (m : Pipelined F K) (layer : K → Nat → List E) (g : RowModel F E) (room : Nat) :
    Prop where
  embed : ∀ ids k, ids ≠ [] → ids.length ≤ room → ∃ x k', m.embed ids k = (.ok x, k')
  forwardRange : ∀ rows pos s e k, rows ≠ [] → pos + rows.length ≤ room → s ≤ e → e ≤ g.blocks →
    (∀ r ∈ rows, r.length = g.width) → (∀ i, s ≤ i → i < e → (layer k i).length = pos) →
      ∃ y k', m.forwardRange (ofRows g.width rows) pos s e k = (.ok y, k')
  head : ∀ rows k, rows ≠ [] → rows.length ≤ room → (∀ r ∈ rows, r.length = g.width) →
    ∃ y k', m.head (ofRows g.width rows) k = (.ok y, k')
  headAll : ∀ rows k, rows ≠ [] → rows.length ≤ room → (∀ r ∈ rows, r.length = g.width) →
    ∃ y k', m.headAll (ofRows g.width rows) k = (.ok y, k')
  forward : ∀ ids pos k, ids ≠ [] → pos + ids.length ≤ room →
    (∀ i < g.blocks, (layer k i).length = pos) → ∃ y k', m.forward ids pos k = (.ok y, k')
  truncateKvTo : ∀ n k, n ≤ room → ∃ k', m.truncateKvTo n k = (.ok (), k')

namespace Computes

variable {m : Pipelined F K} {layer : K → Nat → List E} {g : RowModel F E} {room : Nat}

/-- A range goes on from caches that hold the rows `G` gives for `ts`. -/
theorem range_later (hm : Computes m layer g room) {G : List UInt32 → List (List F)}
    (hG : Causal G) (hwidth : ∀ ts, ∀ r ∈ G ts, r.length = g.width) {s e : Nat} (hs : s ≤ e)
    (he : e ≤ g.blocks) {ts ids : List UInt32} {k k' : K} {y : Hidden F}
    (hcached : ∀ i, s ≤ i → i < e → layer k i = g.cached s (G ts) i)
    (h : m.forwardRange (ofRows g.width (later G ts ids)) ts.length s e k = (.ok y, k')) :
    y = ofRows g.width (later (fun ts => g.through s e (G ts)) ts ids) ∧
      (∀ i, s ≤ i → i < e → layer k' i = g.cached s (G (ts ++ ids)) i) ∧
      (∀ i, i < s ∨ e ≤ i → layer k' i = layer k i) ∧ ts.length + ids.length ≤ room := by
  have hlater := Causal.forall_mem_later hwidth ts ids
  have hpos : ∀ i, s ≤ i → i < e → (layer k i).length = ts.length := fun i hi hi' => by
    rw [hcached i hi hi', RowModel.length_cached, hG.length_eq]
  obtain ⟨hy, hkept, hframe, hroom⟩ := hm.forwardRange _ _ _ _ _ _ _ hs he hlater hpos h
  refine ⟨?_, fun i hi hi' => ?_, hframe, ?_⟩
  · rw [hy, RowModel.run_of_cached hcached, hG.later_comp]
  · rw [hkept i hi hi', RowModel.kept_of_cached hcached hi hi', ← hG.append_later]
  · rwa [hG.length_later] at hroom

end Computes

def rowsIn (w : Nat) (x : Hidden F) : List (List F) :=
  (List.range (x.shape.getD 1 0)).map (rowSlice x.data w)

private theorem rowsIn_ofRows {w : Nat} {rows : List (List F)} (hrows : ∀ r ∈ rows, r.length = w) :
    rowsIn w (ofRows w rows) = rows := map_rowSlice_flatten hrows

/-- The model that computes `g`, its context the caches of its blocks. -/
def RowModel.pipelined (g : RowModel F E) (room : Nat) : Pipelined F (Nat → List E) where
  blockCount := g.blocks
  resetCache _ := fun _ => []
  embed ids k := (.ok (ofRows g.width (g.embedAll ids)), k)
  forwardRange x pos s e k :=
    let rows := rowsIn g.width x
    if pos + rows.length ≤ room then
      (.ok (ofRows g.width (g.run s e k rows)),
        fun i => if s ≤ i ∧ i < e then g.kept s k i rows else k i)
    else (.error "no room", k)
  head x k :=
    match (rowsIn g.width x).getLast? with
    | some r => (.ok ⟨g.head r, [1, g.vocab]⟩, k)
    | none => (.error "no rows", k)
  headAll x k := (.ok (ofRows g.vocab ((rowsIn g.width x).map g.head)), k)
  forward ids pos k :=
    match (g.run 0 g.blocks k (g.embedAll ids)).getLast? with
    | some r =>
        if pos + ids.length ≤ room then
          (.ok ⟨g.head r, [1, g.vocab]⟩,
            fun i => if i < g.blocks then g.kept 0 k i (g.embedAll ids) else k i)
        else (.error "no room", k)
    | none => (.error "no rows", k)
  truncateKvTo n k := (.ok (), fun i => (k i).take n)

theorem RowModel.computes_pipelined (g : RowModel F E) {room : Nat} (hroom : room < 2 ^ 32) :
    Computes (g.pipelined room) (fun k i => k i) g room where
  room_lt := hroom
  blockCount := rfl
  resetCache _ _ := rfl
  embed ids k x k' h := by
    obtain ⟨hx, rfl⟩ := Prod.mk.inj h
    exact ⟨(Except.ok.inj hx).symm, rfl⟩
  forwardRange rows pos s e k y k' hs he hrows hpos h := by
    simp only [pipelined, rowsIn_ofRows hrows] at h
    split at h
    · rename_i hle
      obtain ⟨hy, rfl⟩ := Prod.mk.inj h
      refine ⟨(Except.ok.inj hy).symm, fun i hi hi' => if_pos ⟨hi, hi'⟩, fun i hi => ?_, hle⟩
      exact if_neg fun hin => by omega
    · cases (Prod.mk.inj h).1
  head rows k y k' hrows h := by
    simp only [pipelined, rowsIn_ofRows hrows] at h
    split at h
    · rename_i r hr
      obtain ⟨hy, rfl⟩ := Prod.mk.inj h
      exact ⟨⟨r, hr, (Except.ok.inj hy).symm⟩, rfl⟩
    · cases (Prod.mk.inj h).1
  headAll rows k y k' hrows h := by
    simp only [pipelined, rowsIn_ofRows hrows] at h
    obtain ⟨hy, rfl⟩ := Prod.mk.inj h
    exact ⟨(Except.ok.inj hy).symm, rfl⟩
  forward ids pos k y k' hpos h := by
    simp only [pipelined] at h
    split at h
    · rename_i r hr
      split at h
      · rename_i hle
        obtain ⟨hy, rfl⟩ := Prod.mk.inj h
        exact ⟨⟨r, hr, (Except.ok.inj hy).symm⟩, fun i hi => if_pos hi, hle⟩
      · cases (Prod.mk.inj h).1
    · cases (Prod.mk.inj h).1
  truncateKvTo n k k' _ h := by
    obtain ⟨-, rfl⟩ := Prod.mk.inj h
    exact fun i => rfl

theorem RowModel.unfailing_pipelined (g : RowModel F E) (room : Nat) :
    Unfailing (g.pipelined room) (fun k i => k i) g room where
  embed _ _ _ _ := ⟨_, _, rfl⟩
  forwardRange rows pos s e k _ hle _ _ hrows _ := by
    refine ⟨ofRows g.width (g.run s e k rows),
      fun i => if s ≤ i ∧ i < e then g.kept s k i rows else k i, ?_⟩
    simp only [pipelined, rowsIn_ofRows hrows, if_pos hle]
  head rows k hne _ hrows := by
    obtain ⟨r, hr⟩ : ∃ r, rows.getLast? = some r := ⟨_, List.getLast?_eq_some_getLast hne⟩
    exact ⟨⟨g.head r, [1, g.vocab]⟩, k, by simp only [pipelined, rowsIn_ofRows hrows, hr]⟩
  headAll _ _ _ _ _ := ⟨_, _, rfl⟩
  forward ids pos k hne hle _ := by
    have hrun : g.run 0 g.blocks k (g.embedAll ids) ≠ [] := by
      rw [← List.length_pos_iff, run, length_passAt, embedAll, List.length_map]
      exact List.length_pos_iff.mpr hne
    obtain ⟨r, hr⟩ : ∃ r, (g.run 0 g.blocks k (g.embedAll ids)).getLast? = some r :=
      ⟨_, List.getLast?_eq_some_getLast hrun⟩
    exact ⟨⟨g.head r, [1, g.vocab]⟩,
      fun i => if i < g.blocks then g.kept 0 k i (g.embedAll ids) else k i, by
        simp only [pipelined, hr, if_pos hle]⟩
  truncateKvTo _ _ _ := ⟨_, rfl⟩

end IntelNav.Runtime
