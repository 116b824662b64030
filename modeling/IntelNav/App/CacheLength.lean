import IntelNav.App.Isolation
import IntelNav.Ggml.Payload
import IntelNav.Runtime.GgmlBackend

/-! The position a connection keeps for its session, next to what the caches of its slice hold. -/

set_option autoImplicit false
set_option relaxedAutoImplicit false

namespace IntelNav.App

open IntelNav.Cache IntelNav.Core IntelNav.Ggml IntelNav.Runtime IntelNav.Wire

variable {F E : Type}

def startPos (f : Forward) (indexPos : Nat) : Nat :=
  match f.kvTruncateTo with
  | some keep => keep.toNat
  | none => indexPos

/-- The forward cuts back to a length its session has reached, and ends at an `i32` position. -/
def Fits (f : Forward) (indexPos : Nat) : Prop :=
  startPos f indexPos ≤ indexPos ∧ startPos f indexPos + f.shape.seq.toNat ≤ 2 ^ 31

instance (f : Forward) (indexPos : Nat) : Decidable (Fits f indexPos) :=
  inferInstanceAs (Decidable (_ ∧ _))

def IsGgml (handle : Pipelined F (PositionCache E)) : Prop :=
  ∃ (L : Llama F E) (base : Pipelined F (PositionCache E)), handle = L.backend base

section Forwards

variable [F32 F]

/-- A forward that succeeds from `pos` on: its payload is decoded, and its layers are run. -/
private theorem forwardDecoded_ok {K : Type} {slice : LoadedSlice F K} {start stop : Nat}
    {f : Forward} {out : Hidden F} {kv₀ kv : K} {p pos : Nat}
    (h : (match decodeHidden (F := F) ⟨f.dtype, f.shape, f.payload⟩ with
      | .error e => (.error (.hidden e), kv₀, p)
      | .ok (shape, data) =>
          match Hidden.new data [shape.batch.toNat, shape.seq.toNat, shape.hidden.toNat] with
          | .error e => (.error (.hidden e), kv₀, p)
          | .ok hidden =>
              match slice.handle.forwardRange hidden p (start - slice.localOffset)
                (stop - slice.localOffset) kv₀ with
              | (.error e, kv) => (.error (.forward e), kv, p)
              | (.ok out, kv) => (.ok out, kv, p + shape.seq.toNat)) =
      ((.ok out, kv, pos) : Except ServeError (Hidden F) × K × Nat)) :
    ∃ hidden, hidden.shape =
        [f.shape.batch.toNat, f.shape.seq.toNat, f.shape.hidden.toNat] ∧
      slice.handle.forwardRange hidden p (start - slice.localOffset)
        (stop - slice.localOffset) kv₀ = (.ok out, kv) ∧ pos = p + f.shape.seq.toNat := by
  cases hdec : decodeHidden (F := F) ⟨f.dtype, f.shape, f.payload⟩ with
  | error e => simp [hdec] at h
  | ok decoded =>
      obtain ⟨shape, data⟩ := decoded
      obtain ⟨rfl, -⟩ := length_decodeHidden hdec
      rw [hdec] at h
      dsimp only at h
      cases hnew : Hidden.new data [f.shape.batch.toNat, f.shape.seq.toNat,
          f.shape.hidden.toNat] with
      | error e => simp [hnew] at h
      | ok hidden =>
          rw [hnew] at h
          dsimp only at h
          have hshape : hidden.shape =
              [f.shape.batch.toNat, f.shape.seq.toNat, f.shape.hidden.toNat] := by
            rw [Hidden.new] at hnew
            split_ifs at hnew
            obtain rfl := Except.ok.inj hnew
            rfl
          cases hfwd : slice.handle.forwardRange hidden p (start - slice.localOffset)
              (stop - slice.localOffset) kv₀ with
          | mk r kv' =>
              cases r with
              | error e => simp [hfwd] at h
              | ok out' =>
                  rw [hfwd] at h
                  obtain ⟨rfl, rfl, rfl⟩ : out' = out ∧ kv' = kv ∧
                      p + f.shape.seq.toNat = pos := by
                    simpa using h
                  exact ⟨hidden, hshape, hfwd, rfl⟩

/-- What a forward that succeeds has done: cut back, decoded its payload, run the layers. -/
private theorem forwardSlice_ok {K : Type} {slice : LoadedSlice F K} {indexPos start stop : Nat}
    {f : Forward} {out : Hidden F} {kv : K} {pos : Nat}
    (h : forwardSlice slice indexPos start stop f = (.ok out, kv, pos)) :
    ∃ kv₀ hidden,
      (f.kvTruncateTo = none ∧ kv₀ = slice.kv ∨
        ∃ keep, f.kvTruncateTo = some keep ∧
          slice.handle.truncateKvTo keep.toNat slice.kv = (.ok (), kv₀)) ∧
      hidden.shape = [f.shape.batch.toNat, f.shape.seq.toNat, f.shape.hidden.toNat] ∧
      slice.handle.forwardRange hidden (startPos f indexPos) (start - slice.localOffset)
        (stop - slice.localOffset) kv₀ = (.ok out, kv) ∧
      pos = startPos f indexPos + f.shape.seq.toNat := by
  cases htrunc : f.kvTruncateTo with
  | none =>
      simp only [forwardSlice, htrunc] at h
      obtain ⟨hidden, hshape, hrun, hpos⟩ := forwardDecoded_ok h
      exact ⟨slice.kv, hidden, .inl ⟨rfl, rfl⟩, hshape, by simpa only [startPos, htrunc] using hrun,
        by simpa only [startPos, htrunc] using hpos⟩
  | some keep =>
      obtain ⟨cut, hcut⟩ : ∃ cut, slice.handle.truncateKvTo = cut := ⟨_, rfl⟩
      simp only [forwardSlice, htrunc, hcut] at h
      cases hkv₀ : cut keep.toNat slice.kv with | mk r kv₀ => ?_
      rw [hkv₀] at h
      cases r with
      | error e => simp at h
      | ok u =>
          obtain ⟨hidden, hshape, hrun, hpos⟩ := forwardDecoded_ok h
          simp only [Except.isOk, Except.toBool, if_true] at hrun hpos
          exact ⟨kv₀, hidden, .inr ⟨keep, rfl, hcut ▸ hkv₀⟩, hshape,
            by simpa only [startPos, htrunc] using hrun,
            by simpa only [startPos, htrunc] using hpos⟩

private theorem forwardSlice_ggml {slice : LoadedSlice F (PositionCache E)}
    (hggml : IsGgml slice.handle)
    {indexPos start stop : Nat} {f : Forward} {out : Hidden F} {kv : PositionCache E} {pos : Nat}
    (h : forwardSlice slice indexPos start stop f = (.ok out, kv, pos)) :
    ∃ kv₀ batch,
      (f.kvTruncateTo = none ∧ kv₀ = slice.kv ∨
        ∃ keep, f.kvTruncateTo = some keep ∧ kv₀ = slice.kv.dropFrom (asI32 keep.toNat)) ∧
      kv = kv₀.write batch ∧ 0 < f.shape.seq.toNat ∧
      batch.map Prod.fst = batchPositions f.shape.seq.toNat (asI32 (startPos f indexPos)) ∧
      pos = startPos f indexPos + f.shape.seq.toNat := by
  obtain ⟨L, base, hhandle⟩ := hggml
  obtain ⟨kv₀, hidden, hcut, hshape, hrun, hpos⟩ := forwardSlice_ok h
  rw [hhandle] at hcut hrun
  obtain ⟨b, seq, h', batch, hx, hseq, hwrite, hbatch⟩ := Llama.forwardRange_ok hrun
  obtain ⟨-, rfl, -⟩ : f.shape.batch.toNat = b ∧ f.shape.seq.toNat = seq ∧
      f.shape.hidden.toNat = h' := by
    simpa [hshape] using hx
  refine ⟨kv₀, batch, ?_, hwrite, hseq, hbatch, hpos⟩
  rcases hcut with hnone | ⟨keep, hkeep, hcut⟩
  · exact .inl hnone
  · exact .inr ⟨keep, hkeep, (Prod.mk.inj hcut).2.symm⟩

/-- After a forward that succeeds, the cache holds the positions below the new one exactly when the
forward fits. -/
theorem forwardSlice_holds_iff {slice : LoadedSlice F (PositionCache E)}
    (hggml : IsGgml slice.handle) {indexPos start stop : Nat} {f : Forward} {out : Hidden F}
    {kv : PositionCache E} {pos : Nat} (hold : slice.kv.Holds indexPos)
    (hbound : indexPos ≤ 2 ^ 31)
    (h : forwardSlice slice indexPos start stop f = (.ok out, kv, pos)) :
    kv.Holds pos ↔ Fits f indexPos := by
  obtain ⟨kv₀, batch, hkv₀, rfl, hseq, hbatch, rfl⟩ := forwardSlice_ggml hggml h
  have hold₀ : startPos f indexPos ≤ indexPos → startPos f indexPos < 2 ^ 31 →
      kv₀.Holds (startPos f indexPos) := by
    intro hle hlt
    rcases hkv₀ with ⟨htrunc, rfl⟩ | ⟨keep, htrunc, rfl⟩
    · simpa only [startPos, htrunc] using hold
    · simp only [startPos, htrunc] at hle hlt ⊢
      rw [asI32_of_lt hlt]
      exact hold.dropFrom hle
  have hsub : ∀ p ∈ kv₀.positions, 0 ≤ p ∧ p < indexPos := by
    intro p hp
    rcases hkv₀ with ⟨-, rfl⟩ | ⟨keep, -, rfl⟩
    · exact (hold.covers p).mp hp
    · obtain ⟨e, he⟩ := PositionCache.mem_positions.mp hp
      exact (hold.covers p).mp
        (PositionCache.mem_positions.mpr ⟨e, (PositionCache.mem_cells_dropFrom.mp he).1⟩)
  constructor
  · intro hnew
    have hmem : ∀ p : Nat, p < startPos f indexPos + f.shape.seq.toNat →
        (p : Int) ∈ kv₀.positions ∨
          (p : Int) ∈ batchPositions f.shape.seq.toNat (asI32 (startPos f indexPos)) := by
      intro p hp
      have hin := (hnew.covers p).mpr ⟨by omega, by omega⟩
      rwa [PositionCache.positions_write, List.mem_append, hbatch] at hin
    have hend : startPos f indexPos + f.shape.seq.toNat ≤ 2 ^ 31 := by
      by_contra hlt
      rcases hmem (2 ^ 31) (by omega) with hin | hin
      · have := (hsub _ hin).2
        omega
      · have := lt_of_mem_batchPositions hin
        omega
    refine ⟨?_, hend⟩
    by_contra hlt
    rcases hmem indexPos (by omega) with hin | hin
    · have := (hsub _ hin).2
      omega
    · rw [batchPositions_of_le hend] at hin
      obtain ⟨i, -, hi⟩ := List.mem_map.mp hin
      omega
  · rintro ⟨hle, hfit⟩
    exact (hold₀ hle (by omega)).write (hbatch.trans (batchPositions_of_le hfit))

variable (cd : Codec)

private theorem forwardOn_next {K : Type} {slice : LoadedSlice F K} {c : Connection}
    {key : SliceKey} {f : Forward} {out : List Msg × Served} {kv : K} {pos : Nat}
    (h : forwardOn cd slice c key f = (out, kv, pos)) (hnext : out.2 = .next) :
    ∃ hidden, forwardSlice slice c.indexPos key.2.1.toNat key.2.2.toNat f =
      (.ok hidden, kv, pos) := by
  rw [forwardOn] at h
  cases hrun : forwardSlice slice c.indexPos key.2.1.toNat key.2.2.toNat f with
  | mk r rest =>
      obtain ⟨kv', pos'⟩ := rest
      rw [hrun] at h
      cases r with
      | error e =>
          obtain ⟨rfl, -⟩ := Prod.mk.inj h
          cases hnext
      | ok hidden =>
          have hrest : kv' = kv ∧ pos' = pos := by
            dsimp only at h
            split at h <;> exact Prod.mk.inj (Prod.mk.inj h).2
          obtain ⟨rfl, rfl⟩ := hrest
          exact ⟨hidden, rfl⟩

end Forwards

def LoadsGgml (files : SliceFiles F (PositionCache E)) : Prop :=
  ∀ path handle kv, files.load path = .ok (handle, kv) → IsGgml handle

/-- The slice that is loaded for a session is one of the ggml backend, with an empty cache after
the reset. -/
private theorem isGgml_loadKey {files : SliceFiles F (PositionCache E)} (hloads : LoadsGgml files)
    {key : SliceKey} {slice : LoadedSlice F (PositionCache E)} (h : files.loadKey key = .ok slice) :
    IsGgml slice.handle := by
  rw [SliceFiles.loadKey] at h
  split at h
  · cases h
  · split at h
    · cases h
    · rename_i handle kv hload
      obtain rfl := Except.ok.inj h
      exact hloads _ _ _ hload

private theorem holds_resetCache {handle : Pipelined F (PositionCache E)} (hggml : IsGgml handle)
    (kv : PositionCache E) : (handle.resetCache kv).Holds 0 := by
  obtain ⟨L, base, rfl⟩ := hggml
  exact kv.holds_dropFrom_of_neg (by decide)

private theorem getElem?_resetKv {K : Type} (s : Server F K) (n k : Nat) :
    (s.resetKv n).slices[k]? =
      if n = k then (s.slices[k]?).map fun slice =>
        { slice with kv := slice.handle.resetCache slice.kv }
      else s.slices[k]? := by
  split_ifs with hnk
  · subst hnk
    cases hslice : s.slices[n]? with
    | none => simp [Server.resetKv, hslice]
    | some slice => simp [Server.resetKv, hslice]
  · exact s.resetKv_of_ne n hnk

/-- A message does not bring connection `i` and another one together on a slice. -/
def Hub.LeavesAlone {K : Type} (h : Hub F K) (i j : Nat) (m : Msg) : Prop :=
  ∀ sid pub cid r n, m = .sessionInit sid pub cid r n → ∀ k c, k ≠ j → (i = j ∨ i = k) →
    h.conns k = some c → c.activeSlice ≠ some (cid, r.start, r.stop)

/-- A forward of connection `i` that reaches its slice fits. -/
def Hub.FitsAt {K : Type} (h : Hub F K) (i j : Nat) (m : Msg) : Prop :=
  match h.conns j, m with
  | some c, .forwardHidden f => j = i → c.reaches f = true → Fits f c.indexPos
  | _, _ => True

instance {K : Type} (h : Hub F K) (i j : Nat) (m : Msg) : Decidable (h.FitsAt i j m) := by
  unfold Hub.FitsAt
  split <;> infer_instance

/-- While connection `i` has a session, the caches of its slice hold the positions below its own. -/
def Hub.InStep (h : Hub F (PositionCache E)) (i : Nat) : Prop :=
  ∀ c, h.conns i = some c → c.sessionId.isSome →
    ∃ n slice, c.loaded = some n ∧ h.server.slices[n]? = some slice ∧ slice.kv.Holds c.indexPos

/-- The listener as it starts, its models loaded by the ggml backend with empty caches. -/
def Hub.listening (host : Host) (files : SliceFiles F (PositionCache E)) :
    Hub F (PositionCache E) :=
  .new { host, files, cache := ∅, slices := [] }

/-- What holds between the messages of a run in which connection `i` is alone and its forwards
fit. -/
private structure KeptAlone (i : Nat) (h : Hub F (PositionCache E)) : Prop where
  loads : LoadsGgml h.server.files
  ggml : ∀ slice ∈ h.server.slices, IsGgml slice.handle
  within : ∀ key n, h.server.cache.lookup key = some n → n < h.server.slices.length
  apart : ∀ key key' n, h.server.cache.lookup key = some n →
    h.server.cache.lookup key' = some n → key = key'
  placed : ∀ j c, h.conns j = some c →
    (c.sessionId.isSome → c.loaded.isSome) ∧
    ∀ n, c.loaded = some n →
      ∃ key, c.activeSlice = some key ∧ h.server.cache.lookup key = some n
  alone : ∀ c key, h.conns i = some c → c.activeSlice = some key → ∀ j, j ≠ i → ∀ c',
    h.conns j = some c' → c'.activeSlice ≠ some key
  inStep : ∀ c n, h.conns i = some c → c.loaded = some n → c.indexPos ≤ 2 ^ 31 ∧
    ∃ slice, h.server.slices[n]? = some slice ∧ slice.kv.Holds c.indexPos

private theorem kept_listening {host : Host} {files : SliceFiles F (PositionCache E)}
    (hloads : LoadsGgml files) (i : Nat) : KeptAlone i (.listening host files) where
  loads := hloads
  ggml _ hmem := by cases hmem
  within key n hlook := by simp [Hub.listening, Hub.new] at hlook
  apart key key' n hlook := by simp [Hub.listening, Hub.new] at hlook
  placed j c hc := by
    obtain rfl := Option.some.inj hc
    exact ⟨(fun h => by cases h), fun n h => by cases h⟩
  alone c key hc hactive := by
    obtain rfl := Option.some.inj hc
    cases hactive
  inStep c n hc hload := by
    obtain rfl := Option.some.inj hc
    cases hload

section Invariant

variable {i : Nat} {h : Hub F (PositionCache E)}

/-- A session is opened on slice `n`: the key finds it, its cache is empty, and everything else is
as before. -/
private structure Opens (s s' : Server F (PositionCache E)) (key : SliceKey) (n : Nat) : Prop where
  lookup : s'.cache.lookup key = some n
  others : ∀ k, k ≠ key → s'.cache.lookup k = s.cache.lookup k
  prior : ∀ m, s.cache.lookup key = some m → m = n
  own : ∀ k, s.cache.lookup k = some n → k = key
  slice : ∃ slice, s'.slices[n]? = some slice ∧ IsGgml slice.handle ∧ slice.kv.Holds 0
  rest : ∀ k, k ≠ n → s'.slices[k]? = s.slices[k]?

section Opened

variable {s s' : Server F (PositionCache E)} {key : SliceKey} {n : Nat}

private theorem Opens.found (hopens : Opens s s' key n) {k : SliceKey} {m : Nat}
    (hkm : s'.cache.lookup k = some m) :
    k = key ∧ m = n ∨ k ≠ key ∧ m ≠ n ∧ s.cache.lookup k = some m := by
  by_cases hkey : k = key
  · subst hkey
    exact .inl ⟨rfl, Option.some.inj (hkm.symm.trans hopens.lookup)⟩
  · rw [hopens.others k hkey] at hkm
    exact .inr ⟨hkey, fun hmn => hkey (hopens.own k (hmn ▸ hkm)), hkm⟩

private theorem Opens.keeps (hopens : Opens s s' key n) {k : SliceKey} {m : Nat}
    (hkm : s.cache.lookup k = some m) : s'.cache.lookup k = some m := by
  by_cases hkey : k = key
  · subst hkey
    rw [hopens.prior m hkm]
    exact hopens.lookup
  · rw [hopens.others k hkey]
    exact hkm

private theorem Opens.ggml (hopens : Opens s s' key n)
    (h : ∀ slice ∈ s.slices, IsGgml slice.handle) : ∀ slice ∈ s'.slices, IsGgml slice.handle := by
  obtain ⟨slice, hslice, hggml, -⟩ := hopens.slice
  intro x hx
  obtain ⟨k, hk⟩ := List.getElem?_of_mem hx
  by_cases hkn : k = n
  · subst hkn
    obtain rfl := Option.some.inj (hk.symm.trans hslice)
    exact hggml
  · rw [hopens.rest k hkn] at hk
    exact h x (List.mem_of_getElem? hk)

private theorem Opens.within (hopens : Opens s s' key n)
    (h : ∀ k m, s.cache.lookup k = some m → m < s.slices.length) (k : SliceKey) (m : Nat)
    (hkm : s'.cache.lookup k = some m) : m < s'.slices.length := by
  rcases hopens.found hkm with ⟨-, rfl⟩ | ⟨-, hmn, hkm⟩
  · obtain ⟨slice, hslice, -⟩ := hopens.slice
    exact (List.getElem?_eq_some_iff.mp hslice).1
  · have hsome := hopens.rest m hmn
    rw [List.getElem?_eq_getElem (h k m hkm)] at hsome
    exact (List.getElem?_eq_some_iff.mp hsome).1

private theorem Opens.apart (hopens : Opens s s' key n)
    (h : ∀ k k' m, s.cache.lookup k = some m → s.cache.lookup k' = some m → k = k')
    (k k' : SliceKey) (m : Nat) (hkm : s'.cache.lookup k = some m)
    (hkm' : s'.cache.lookup k' = some m) : k = k' := by
  rcases hopens.found hkm with ⟨rfl, rfl⟩ | ⟨-, hmn, hkm⟩
  · rcases hopens.found hkm' with ⟨rfl, -⟩ | ⟨-, hmn, -⟩
    · rfl
    · exact absurd rfl hmn
  · rcases hopens.found hkm' with ⟨-, rfl⟩ | ⟨-, -, hkm'⟩
    · exact absurd rfl hmn
    · exact h k k' m hkm hkm'

end Opened

private theorem KeptAlone.opens_cached (hk : KeptAlone i h) {s' : Server F (PositionCache E)}
    {key : SliceKey} {n : Nat} (hlook : h.server.cache.lookup key = some n)
    (hcache : s'.cache = h.server.cache) (hslices : s'.slices = (h.server.resetKv n).slices) :
    Opens h.server s' key n := by
  have hlt := hk.within key n hlook
  refine ⟨hcache ▸ hlook, fun k _ => by rw [hcache],
    fun m hm => Option.some.inj (hm.symm.trans hlook), fun k hk' => hk.apart k key n hk' hlook, ?_,
    fun k hne => ?_⟩
  · have hggml := hk.ggml _ (List.getElem_mem hlt)
    refine ⟨{ h.server.slices[n] with kv := h.server.slices[n].handle.resetCache _ }, ?_, hggml,
      holds_resetCache hggml h.server.slices[n].kv⟩
    rw [hslices, getElem?_resetKv, if_pos rfl, List.getElem?_eq_getElem hlt]
    rfl
  · rw [hslices, getElem?_resetKv, if_neg (Ne.symm hne)]

private theorem KeptAlone.opens_loaded (hk : KeptAlone i h) {s' s₁ : Server F (PositionCache E)}
    {key : SliceKey} {slice : LoadedSlice F (PositionCache E)}
    (hnone : h.server.cache.lookup key = none) (hload : h.server.files.loadKey key = .ok slice)
    (hcache : s'.cache = h.server.cache.insert key h.server.slices.length)
    (happend : s₁.slices = h.server.slices ++ [slice])
    (hslices : s'.slices = (s₁.resetKv h.server.slices.length).slices) :
    Opens h.server s' key h.server.slices.length := by
  have hggml := isGgml_loadKey hk.loads hload
  refine ⟨by rw [hcache, AList.lookup_insert],
    fun k hne => by rw [hcache, AList.lookup_insert_ne hne],
    (fun m hm => by cases hnone.symm.trans hm),
    fun k hlook => absurd (hk.within k _ hlook) (lt_irrefl _), ?_, fun k hne => ?_⟩
  · refine ⟨{ slice with kv := slice.handle.resetCache slice.kv }, ?_, hggml,
      holds_resetCache hggml slice.kv⟩
    rw [hslices, getElem?_resetKv, if_pos rfl, happend]
    simp
  · rw [hslices, getElem?_resetKv, if_neg (Ne.symm hne), happend]
    rcases Nat.lt_or_gt_of_ne hne with hlt | hgt
    · rw [List.getElem?_append_left hlt]
    · rw [List.getElem?_eq_none (by simp; omega), List.getElem?_eq_none (by omega)]

private theorem conns_after {K : Type} {h h' : Hub F K} {j : Nat} {served : Served}
    {c' : Connection}
    (hconns : h'.conns = Function.update h.conns j (if served = .next then some c' else none))
    {k : Nat} {d : Connection} (hd : h'.conns k = some d) :
    k = j ∧ served = .next ∧ d = c' ∨ k ≠ j ∧ h.conns k = some d := by
  rw [hconns] at hd
  by_cases hkj : k = j
  · subst hkj
    rw [Function.update_self] at hd
    split_ifs at hd with hnext
    exact .inl ⟨rfl, hnext, (Option.some.inj hd).symm⟩
  · rw [Function.update_of_ne hkj] at hd
    exact .inr ⟨hkj, hd⟩

private theorem KeptAlone.aside (hk : KeptAlone i h) {h' : Hub F (PositionCache E)} {j : Nat}
    {c c' : Connection} {served : Served} (hc : h.conns j = some c)
    (hfiles : h'.server.files = h.server.files) (hcache : h'.server.cache = h.server.cache)
    (hslices : h'.server.slices = h.server.slices) (hsame : served = .next → c' = c)
    (hconns : h'.conns = Function.update h.conns j (if served = .next then some c' else none)) :
    KeptAlone i h' := by
  have hold : ∀ k d, h'.conns k = some d → h.conns k = some d := by
    intro k d hd
    rcases conns_after hconns hd with ⟨rfl, hnext, rfl⟩ | ⟨-, hd⟩
    · rw [hsame hnext]
      exact hc
    · exact hd
  exact
    { loads := hfiles ▸ hk.loads
      ggml := hslices ▸ hk.ggml
      within := by simpa only [hcache, hslices] using hk.within
      apart := by simpa only [hcache] using hk.apart
      placed := fun k d hd => by simpa only [hcache] using hk.placed k d (hold k d hd)
      alone := fun d key hd hactive k hne d' hd' =>
        hk.alone d key (hold i d hd) hactive k hne d' (hold k d' hd')
      inStep := fun d n hd hload => by
        simpa only [hslices] using hk.inStep d n (hold i d hd) hload }

/-- A session request that leaves connection `i` alone on its slice. -/
private theorem KeptAlone.opens (hk : KeptAlone i h) {h' : Hub F (PositionCache E)} {j : Nat}
    {c : Connection} {served : Served} {sid : SessionId} {key : SliceKey} {n : Nat} {g : ChainGuard}
    (hfiles : h'.server.files = h.server.files) (hopens : Opens h.server h'.server key n)
    (halone : ∀ k d, k ≠ j → (i = j ∨ i = k) → h.conns k = some d → d.activeSlice ≠ some key)
    (hconns : h'.conns =
      Function.update h.conns j (if served = .next then some (c.opened sid key n g) else none)) :
    KeptAlone i h' := by
  refine ⟨hfiles ▸ hk.loads, hopens.ggml hk.ggml, hopens.within hk.within, hopens.apart hk.apart,
    fun k d hd => ?_, fun d key' hd hactive k hne d' hd' => ?_, fun d m hd hload => ?_⟩
  · rcases conns_after hconns hd with ⟨rfl, -, rfl⟩ | ⟨hkj, hd⟩
    · refine ⟨fun _ => rfl, fun m hm => ⟨key, rfl, ?_⟩⟩
      obtain rfl := Option.some.inj hm
      exact hopens.lookup
    · obtain ⟨hsession, hplaced⟩ := hk.placed k d hd
      refine ⟨hsession, fun m hm => ?_⟩
      obtain ⟨key', hactive, hkm⟩ := hplaced m hm
      exact ⟨key', hactive, hopens.keeps hkm⟩
  · rcases conns_after hconns hd with ⟨rfl, -, rfl⟩ | ⟨hij, hd⟩
    · obtain rfl := Option.some.inj hactive
      rcases conns_after hconns hd' with ⟨rfl, -, -⟩ | ⟨-, hd'⟩
      · exact absurd rfl hne
      · exact halone k d' hne (.inl rfl) hd'
    · rcases conns_after hconns hd' with ⟨rfl, -, rfl⟩ | ⟨-, hd'⟩
      · intro heq
        obtain rfl := Option.some.inj heq
        exact halone i d hij (.inr rfl) hd hactive
      · exact hk.alone d key' hd hactive k hne d' hd'
  · rcases conns_after hconns hd with ⟨rfl, -, rfl⟩ | ⟨hij, hd⟩
    · obtain rfl := Option.some.inj hload
      obtain ⟨slice, hslice, -, hempty⟩ := hopens.slice
      exact ⟨Nat.zero_le _, slice, hslice, hempty⟩
    · have hmn : m ≠ n := by
        rintro rfl
        obtain ⟨key', hactive, hkm⟩ := (hk.placed i d hd).2 m hload
        obtain rfl := hopens.own key' hkm
        exact halone i d hij (.inr rfl) hd hactive
      rw [hopens.rest m hmn]
      exact hk.inStep d m hd hload

end Invariant

section Runs

variable [F32 F] (cd : Codec)

def Hub.after {K : Type} (h : Hub F K) (es : List (Nat × Msg)) : Hub F K :=
  es.foldl (fun h e => (h.step cd e.1 e.2).2) h

/-- Connection `i` is alone on its slice throughout a run. -/
def Alone {K : Type} (i : Nat) (h : Hub F K) : List (Nat × Msg) → Prop
  | [] => True
  | (j, m) :: es => h.LeavesAlone i j m ∧ Alone i (h.step cd j m).2 es

/-- All forwards of connection `i` fit. -/
def AllFit {K : Type} (i : Nat) (h : Hub F K) : List (Nat × Msg) → Prop
  | [] => True
  | (j, m) :: es => h.FitsAt i j m ∧ AllFit i (h.step cd j m).2 es

instance decidableAllFit {K : Type} (i : Nat) :
    ∀ (h : Hub F K) (es : List (Nat × Msg)), Decidable (AllFit cd i h es)
  | _, [] => .isTrue trivial
  | h, (j, m) :: es =>
      have := decidableAllFit i (h.step cd j m).2 es
      inferInstanceAs (Decidable (_ ∧ _))

/-- A step of the hub: what the message has done to the listener, and the connection that is left
of it. -/
private theorem Hub.step_handled {K : Type} {h : Hub F K} {j : Nat} {c : Connection}
    (hc : h.conns j = some c) (hplaced : c.Placed) (m : Msg) :
    ∃ served s' c', Handled cd h.server c m served s' c' ∧
      (h.step cd j m).2.server.files = s'.files ∧ (h.step cd j m).2.server.cache = s'.cache ∧
      (h.step cd j m).2.server.slices = s'.slices ∧
      (h.step cd j m).2.conns =
        Function.update h.conns j (if served = .next then some c' else none) := by
  refine ⟨_, _, _, handleMessage_handled cd h.server hplaced m, ?_⟩
  simp only [Hub.step, hc]
  generalize handleMessage cd h.server c m = r
  obtain ⟨⟨sent, served⟩, s, c'⟩ := r
  cases served with
  | next => exact ⟨rfl, rfl, rfl, rfl⟩
  | done => exact ⟨by simp, by simp, by simp, by simp⟩
  | failed e => exact ⟨by simp, by simp, by simp, by simp⟩

variable {cd} {i : Nat} {h : Hub F (PositionCache E)}

/-- A forward: of connection `i`, when it fits, or of another connection. -/
private theorem KeptAlone.forward (hk : KeptAlone i h) {h' : Hub F (PositionCache E)} {j : Nat}
    {c : Connection} {f : Forward} {out : List Msg × Served} {kv : PositionCache E} {pos n : Nat}
    {key : SliceKey} {slice : LoadedSlice F (PositionCache E)} (hc : h.conns j = some c)
    (hload : c.loaded = some n) (hslice : h.server.slices[n]? = some slice)
    (hrun : forwardOn cd slice c key f = (out, kv, pos))
    (hfits : j = i → Fits f c.indexPos) (hfiles : h'.server.files = h.server.files)
    (hcache : h'.server.cache = h.server.cache)
    (hslices : h'.server.slices = (h.server.setKv n kv).slices)
    (hconns : h'.conns = Function.update h.conns j
      (if out.2 = .next then some { c with lastSeq := f.seq, indexPos := pos } else none)) :
    KeptAlone i h' := by
  have hget : ∀ (k : Nat) (x : LoadedSlice F (PositionCache E)), h'.server.slices[k]? = some x →
      ∃ y, h.server.slices[k]? = some y ∧ y.handle = x.handle := by
    intro k x hx
    rw [hslices, Server.getElem?_setKv] at hx
    split_ifs at hx
    · obtain ⟨y, hy, rfl⟩ := Option.map_eq_some_iff.mp hx
      exact ⟨y, hy, rfl⟩
    · exact ⟨x, hx, rfl⟩
  have hplaced : ∀ k d, h'.conns k = some d → ∃ d₀, h.conns k = some d₀ ∧
      d.loaded = d₀.loaded ∧ d.activeSlice = d₀.activeSlice ∧ d.sessionId = d₀.sessionId := by
    intro k d hd
    rcases conns_after hconns hd with ⟨rfl, -, rfl⟩ | ⟨-, hd⟩
    · exact ⟨c, hc, rfl, rfl, rfl⟩
    · exact ⟨d, hd, rfl, rfl, rfl⟩
  refine ⟨hfiles ▸ hk.loads, fun x hx => ?_, fun k m hkm =>
    ?_, by simpa only [hcache] using hk.apart,
    fun k d hd => ?_, fun d key' hd hact k hne d' hd' => ?_, fun d m hd hm => ?_⟩
  · obtain ⟨k, hk'⟩ := List.getElem?_of_mem hx
    obtain ⟨y, hy, hhandle⟩ := hget k x hk'
    exact hhandle ▸ hk.ggml y (List.mem_of_getElem? hy)
  · rw [hslices, Server.length_setKv]
    exact hk.within k m (hcache ▸ hkm)
  · obtain ⟨d₀, hd₀, hl, ha, hs⟩ := hplaced k d hd
    simpa only [hl, ha, hs, hcache] using hk.placed k d₀ hd₀
  · obtain ⟨d₀, hd₀, -, ha, -⟩ := hplaced i d hd
    obtain ⟨d₁, hd₁, -, ha', -⟩ := hplaced k d' hd'
    rw [ha']
    exact hk.alone d₀ key' hd₀ (ha ▸ hact) k hne d₁ hd₁
  · rcases conns_after hconns hd with ⟨rfl, hnext, rfl⟩ | ⟨hij, hd⟩
    · obtain rfl : n = m := Option.some.inj (hload.symm.trans hm)
      obtain ⟨hbound, slice', hslice', hholds⟩ := hk.inStep c n hc hload
      obtain rfl : slice' = slice := Option.some.inj (hslice'.symm.trans hslice)
      have hfit := hfits rfl
      have hggml := hk.ggml slice' (List.mem_of_getElem? hslice)
      obtain ⟨hidden, hfwd⟩ := forwardOn_next cd hrun hnext
      obtain ⟨-, -, -, -, -, hpos⟩ := forwardSlice_ok hfwd
      refine ⟨hpos ▸ hfit.2, { slice' with kv }, ?_, ?_⟩
      · rw [hslices, Server.getElem?_setKv_self, hslice]
        rfl
      · exact (forwardSlice_holds_iff hggml hholds hbound hfwd).mpr hfit
    · have hnm : n ≠ m := by
        rintro rfl
        obtain ⟨key', hact', hlook'⟩ := (hk.placed i d hd).2 n hm
        obtain ⟨key'', hact'', hlook''⟩ := (hk.placed j c hc).2 n hload
        obtain rfl := hk.apart key' key'' n hlook' hlook''
        exact hk.alone d key' hd hact' j (Ne.symm hij) c hc hact''
      rw [hslices, Server.getElem?_setKv, if_neg hnm]
      exact hk.inStep d m hd hm

/-- One message keeps a hub in which connection `i` is alone and fits. -/
private theorem KeptAlone.step (hk : KeptAlone i h) {j : Nat} {m : Msg}
    (halone : h.LeavesAlone i j m) (hfits : h.FitsAt i j m) : KeptAlone i (h.step cd j m).2 := by
  cases hc : h.conns j with
  | none =>
      have hstep : h.step cd j m = (none, h) := by simp only [Hub.step, hc]
      rw [hstep]
      exact hk
  | some c =>
      have hplaced : c.Placed := by
        intro hload
        obtain ⟨n, hn⟩ := Option.isSome_iff_exists.mp hload
        obtain ⟨key, hactive, -⟩ := (hk.placed j c hc).2 n hn
        simp [hactive]
      obtain ⟨served, s', c', hh, hfiles, hcache, hslices, hconns⟩ :=
        Hub.step_handled cd hc hplaced m
      cases hh with
      | aside files cache slices conn =>
          exact hk.aside hc (hfiles.trans files) (hcache.trans cache)
            (hslices.trans slices) conn hconns
      | @cached sid pub key maxSeq _ _ n g lookup files cache slices =>
          refine hk.opens (hfiles.trans files) ?_ (halone sid pub _ _ _ rfl) hconns
          exact hk.opens_cached lookup (hcache.trans cache) (hslices.trans slices)
      | @loaded sid pub key maxSeq _ _ s₁ slice g lookup load files cache append slices =>
          refine hk.opens (hfiles.trans files) ?_ (halone sid pub _ _ _ rfl) hconns
          exact hk.opens_loaded lookup load (hcache.trans cache) append (hslices.trans slices)
      | @forward f out kv pos n key slice reaches load active found run =>
          exact hk.forward hc load found run (fun hji => by
            simp only [Hub.FitsAt, hc] at hfits
            exact hfits hji reaches) hfiles hcache hslices hconns

/-- In every run of the listener in which a connection is alone on its slice and cuts back only to
lengths it has reached, the cache of the slice holds the positions of the session. -/
theorem position_is_cache_length (cd : Codec) (host : Host)
    (files : SliceFiles F (PositionCache E)) (hloads : LoadsGgml files) (i : Nat)
    (es : List (Nat × Msg)) (halone : Alone cd i (.listening host files) es)
    (hfits : AllFit cd i (.listening host files) es) :
    ((Hub.listening host files).after cd es).InStep i := by
  have hrun : ∀ (es : List (Nat × Msg)) (h : Hub F (PositionCache E)), KeptAlone i h →
      Alone cd i h es → AllFit cd i h es → KeptAlone i (h.after cd es) := by
    intro es
    induction es with
    | nil => exact fun h hk _ _ => hk
    | cons e es ih =>
        intro h hk ⟨ha, halone⟩ ⟨hf, hfits⟩
        exact ih _ (hk.step ha hf) halone hfits
  intro c hc hsession
  have hk := hrun es _ (kept_listening hloads i) halone hfits
  obtain ⟨n, hload⟩ := Option.isSome_iff_exists.mp ((hk.placed i c hc).1 hsession)
  obtain ⟨-, slice, hslice, hholds⟩ := hk.inStep c n hc hload
  exact ⟨n, slice, hload, hslice, hholds⟩

private theorem alone_of_only {K : Type} (cd : Codec) {i : Nat} (es : List (Nat × Msg))
    (h : Hub F K) (hidle : ∀ k c, k ≠ i → h.conns k = some c → c.activeSlice = none)
    (honly : ∀ e ∈ es, e.1 = i) : Alone cd i h es := by
  induction es generalizing h with
  | nil => trivial
  | cons e es ih =>
      obtain ⟨j, m⟩ := e
      obtain rfl : j = i := honly _ List.mem_cons_self
      refine ⟨fun sid pub cid r n _ k c hk _ hc => by simp [hidle k c hk hc],
        ih _ (fun k c hk hc => hidle k c hk ?_) fun e he => honly e (List.mem_cons_of_mem _ he)⟩
      rw [← hc, Hub.step]
      split
      · rfl
      · generalize handleMessage cd h.server _ m = r
        obtain ⟨⟨sent, served⟩, s, c'⟩ := r
        cases served <;> simp [Function.update_of_ne hk]

end Runs

/-- A context that keeps no numbers and returns the hidden states it is given. -/
def idleLlama : Llama ℚ Unit where
  nEmbd := 1
  nCtx := 2048
  decodeLayers _ batch _ _ := .ok (Vector.ofFn fun i => ((), batch[i].2))

def idleBase : Pipelined ℚ (PositionCache Unit) where
  blockCount := 4
  resetCache kv := kv
  forward _ _ kv := (.error "unused", kv)
  embed _ kv := (.error "unused", kv)
  forwardRange _ _ _ _ kv := (.error "unused", kv)
  head _ kv := (.error "unused", kv)
  headAll _ kv := (.error "unused", kv)
  truncateKvTo _ kv := (.error "unused", kv)

def pulledFiles : SliceFiles ℚ (PositionCache Unit) where
  disk := AList.singleton "m" ⟨some ⟨"m", "m", 4, "", [(0, 4)]⟩, none⟩
  fileExists _ := false
  stitchSubset _ _ _ _ := .ok "m/0_4.gguf"
  load _ := .ok (idleLlama.backend idleBase, .empty)

def pulledHost : Host :=
  { Host.new "p" 0 with control := (ControlState.new "p" 0).upsertAnnouncing ("m", 0, 4) "m" }

def plainCodec : Codec where
  encode m := .ok (Cbor.msg (fun _ => []) m)
  decode _ := .error "unused"

def sessionZero : SessionId := ⟨Vector.replicate 32 0⟩

def openZero : Nat × Msg :=
  (0, .sessionInit sessionZero (Vector.replicate 32 0) "m" ⟨0, 4⟩ 2048)

def forwardKeeping (seq : Nat) (keep : Option UInt32) : Nat × Msg :=
  (0, .forwardHidden
    { sessionId := sessionZero, seq, phase := .decode, dtype := .fp16, shape := ⟨1, 1, 1⟩,
      payload := [0, 0], kvDelta := none, kvTruncateTo := keep })

private theorem loadsGgml_pulledFiles : LoadsGgml pulledFiles := by
  intro path handle kv hload
  obtain ⟨rfl, rfl⟩ := Prod.mk.inj (Except.ok.inj hload)
  exact ⟨idleLlama, idleBase, rfl⟩

/-- Two tokens, the second rolled back and replaced. -/
theorem position_is_cache_length_rolled_back :
    ((Hub.listening pulledHost pulledFiles).after plainCodec
      [openZero, forwardKeeping 1 none, forwardKeeping 2 none, forwardKeeping 3 (some 1)]).InStep
        0 := by
  refine position_is_cache_length plainCodec pulledHost pulledFiles loadsGgml_pulledFiles 0 _
    (alone_of_only plainCodec _ _ ?_ ?_) ?_
  · intro k c _ hc
    obtain rfl := Option.some.inj hc
    rfl
  · simp [openZero, forwardKeeping]
  · decide +kernel

/-- A second session on a slice starts by cutting back to five positions, of which there are none:
the cache holds one position, and the session is at six. -/
theorem cut_beyond_the_end :
    let es := [openZero, forwardKeeping 1 none, openZero, forwardKeeping 1 (some 5)]
    Alone plainCodec 0 (.listening pulledHost pulledFiles) es ∧
      ¬ ((Hub.listening pulledHost pulledFiles).after plainCodec es).InStep 0 := by
  intro es
  constructor
  · refine alone_of_only plainCodec _ _ ?_ ?_
    · intro k c _ hc
      obtain rfl := Option.some.inj hc
      rfl
    · simp [es, openZero, forwardKeeping]
  · have hstate : (((Hub.listening pulledHost pulledFiles).after plainCodec es).conns 0).map
        (fun c => (c.sessionId.isSome, c.indexPos, c.loaded.bind fun n =>
          (((Hub.listening pulledHost pulledFiles).after plainCodec es).server.slices[n]?).map
            fun slice => slice.kv.positions)) = some (true, 6, some [5]) := by
      decide +kernel
    intro hstep
    obtain ⟨c, hc, hvals⟩ := Option.map_eq_some_iff.mp hstate
    simp only [Prod.mk.injEq] at hvals
    obtain ⟨hsession, hpos, hcells⟩ := hvals
    obtain ⟨n, slice, hload, hslice, hholds⟩ := hstep c hc hsession
    rw [hload, Option.bind_some, hslice, Option.map_some] at hcells
    refine PositionCache.not_holds_of_gap (p := 0) (by omega) ?_ hholds
    rw [Option.some.inj hcells]
    decide

end IntelNav.App
