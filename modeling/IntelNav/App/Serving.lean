import IntelNav.App.ForwardServer

/-! What one message does to the listener: to the slices it shares, and to the connection. -/

set_option autoImplicit false
set_option relaxedAutoImplicit false

namespace IntelNav.App

open IntelNav.Core IntelNav.Ggml IntelNav.Runtime IntelNav.Wire

variable {F K : Type}

/-- The host admits chains for `key`. -/
def Host.Announces (h : Host) (key : SliceKey) : Prop :=
  h.control.status key = some .announcing

namespace Server

variable {s : Server F K}

@[simp] theorem dropGuard_files (g : Option ChainGuard) : (s.dropGuard g).files = s.files := by
  cases g <;> rfl

@[simp] theorem dropGuard_cache (g : Option ChainGuard) : (s.dropGuard g).cache = s.cache := by
  cases g <;> rfl

@[simp] theorem dropGuard_slices (g : Option ChainGuard) : (s.dropGuard g).slices = s.slices := by
  cases g <;> rfl

@[simp] theorem dropGuard_control (g : Option ChainGuard) :
    (s.dropGuard g).host.control = s.host.control := by
  cases g with
  | none => rfl
  | some g =>
      simp only [dropGuard, Host.step]
      split_ifs <;> rfl

@[simp] theorem setKv_files (i : Nat) (kv : K) : (s.setKv i kv).files = s.files := rfl

@[simp] theorem setKv_cache (i : Nat) (kv : K) : (s.setKv i kv).cache = s.cache := rfl

@[simp] theorem setKv_host (i : Nat) (kv : K) : (s.setKv i kv).host = s.host := rfl

@[simp] theorem length_setKv (i : Nat) (kv : K) :
    (s.setKv i kv).slices.length = s.slices.length := by
  simp [setKv]

theorem getElem?_setKv (i j : Nat) (kv : K) :
    (s.setKv i kv).slices[j]? =
      if i = j then (s.slices[j]?).map fun slice => { slice with kv } else s.slices[j]? := by
  simp only [setKv, List.getElem?_modify]
  split_ifs <;> simp

@[simp] theorem getElem?_setKv_self (i : Nat) (kv : K) :
    (s.setKv i kv).slices[i]? = (s.slices[i]?).map fun slice => { slice with kv } := by
  rw [getElem?_setKv, if_pos rfl]

end Server

private theorem Host.acceptChain_announces {h : Host} {key : SliceKey} (ha : h.Announces key) :
    ∃ h', h.step (.acceptChain key) = some h' ∧ ∀ k, h'.Announces k ↔ h.Announces k := by
  obtain ⟨e, he, hstate⟩ : ∃ e, h.control.get key = some e ∧ e.state = .announcing := by
    simpa [Host.Announces, ControlState.status] using ha
  let e' : SliceEntry := { e with activeChains := saturatingSucc e.activeChains }
  have hacc : h.control.acceptChain key = some (h.control.set key e') :=
    acceptChain_eq_some.mpr ⟨e, he, hstate, rfl⟩
  have hstep : h.step (.acceptChain key) = some _ := congrArg (Option.map _) hacc
  refine ⟨_, hstep, fun k => ?_⟩
  simp only [Host.Announces, ControlState.status, ControlState.get_set]
  split_ifs with hk
  · subst hk
    simp [he, hstate, e']
  · rfl

/-- What loading the slice of a key gives: the model, its empty caches, and the layer offset. -/
def SliceFiles.loadKey (files : SliceFiles F K) (key : SliceKey) :
    Except String (LoadedSlice F K) :=
  match files.resolve key with
  | .error e => .error e
  | .ok (path, localOffset) =>
      match files.load path with
      | .error e => .error e
      | .ok (handle, kv) => .ok ⟨handle, kv, localOffset⟩

namespace Server

variable (s : Server F K) (key : SliceKey)

theorem prepareSlice_cached {i : Nat} (h : s.cache.lookup key = some i) :
    s.prepareSlice key = (.ok i, s) := by
  simp only [prepareSlice, h]

theorem prepareSlice_error {e : String} (h : s.cache.lookup key = none)
    (hload : s.files.loadKey key = .error e) : s.prepareSlice key = (.error e, s) := by
  cases hres : s.files.resolve key with
  | error e' =>
      simp only [SliceFiles.loadKey, hres] at hload
      simp only [prepareSlice, h, hres]
      exact congrArg (fun e => (Except.error e, s)) (Except.error.inj hload)
  | ok found =>
      cases hl : s.files.load found.1 with
      | error e' =>
          simp only [SliceFiles.loadKey, hres, hl] at hload
          simp only [prepareSlice, h, hres, hl]
          exact congrArg (fun e => (Except.error e, s)) (Except.error.inj hload)
      | ok loaded =>
          simp only [SliceFiles.loadKey, hres, hl] at hload
          cases hload

theorem prepareSlice_loaded {slice : LoadedSlice F K} (h : s.cache.lookup key = none)
    (hload : s.files.loadKey key = .ok slice) :
    s.prepareSlice key =
      (.ok s.slices.length,
        { s with
          cache := s.cache.insert key s.slices.length
          slices := s.slices ++ [slice] }) := by
  cases hres : s.files.resolve key with
  | error e =>
      simp only [SliceFiles.loadKey, hres] at hload
      cases hload
  | ok found =>
      cases hl : s.files.load found.1 with
      | error e =>
          simp only [SliceFiles.loadKey, hres, hl] at hload
          cases hload
      | ok loaded =>
          simp only [SliceFiles.loadKey, hres, hl] at hload
          obtain rfl := Except.ok.inj hload
          simp only [prepareSlice, h, hres, hl]

end Server

/-- Reset the caches of slice `i`. -/
def Server.resetKv (s : Server F K) (i : Nat) : Server F K :=
  match s.slices[i]? with
  | some slice => s.setKv i (slice.handle.resetCache slice.kv)
  | none => s

/-- The caches of slice `i` hold nothing since a reset. -/
def Server.ResetKv (s : Server F K) (i : Nat) : Prop :=
  ∀ slice, s.slices[i]? = some slice → ∃ k, slice.kv = slice.handle.resetCache k

namespace Server

variable (s : Server F K) (i : Nat)

theorem resetKv_resetKv : (s.resetKv i).ResetKv i := by
  intro slice hslice
  unfold resetKv at hslice
  split at hslice
  · rename_i old hold
    rw [getElem?_setKv_self, hold] at hslice
    obtain rfl := Option.some.inj hslice
    exact ⟨old.kv, rfl⟩
  · rename_i hnone
    rw [hnone] at hslice
    cases hslice

@[simp] theorem resetKv_files : (s.resetKv i).files = s.files := by
  unfold resetKv
  split <;> rfl

@[simp] theorem resetKv_cache : (s.resetKv i).cache = s.cache := by
  unfold resetKv
  split <;> rfl

@[simp] theorem resetKv_host : (s.resetKv i).host = s.host := by
  unfold resetKv
  split <;> rfl

@[simp] theorem length_resetKv : (s.resetKv i).slices.length = s.slices.length := by
  unfold resetKv
  split <;> simp

theorem resetKv_model (j : Nat) :
    ((s.resetKv i).slices[j]?).map (fun x => (x.handle, x.localOffset)) =
      (s.slices[j]?).map fun x => (x.handle, x.localOffset) := by
  unfold resetKv
  split
  · rw [getElem?_setKv]
    split_ifs <;> cases s.slices[j]? <;> rfl
  · rfl

theorem resetKv_of_ne {j : Nat} (h : i ≠ j) : (s.resetKv i).slices[j]? = s.slices[j]? := by
  unfold resetKv
  split
  · rw [getElem?_setKv, if_neg h]
  · rfl

private theorem resetKv_slices_congr (i : Nat) {s₁ s₂ : Server F K} (h : s₁.slices = s₂.slices) :
    (s₁.resetKv i).slices = (s₂.resetKv i).slices := by
  simp only [resetKv, h]
  cases s₂.slices[i]? with
  | none => exact h
  | some slice => simp only [setKv, h]

end Server

section Messages

variable [F32 F] (cd : Codec)

/-- The connection once a session is open on slice `i`. -/
def Connection.opened (c : Connection) (sid : SessionId) (key : SliceKey) (i : Nat)
    (g : ChainGuard) : Connection :=
  { c with
    sessionId := some sid, indexPos := 0, lastSeq := 0, activeSlice := some key, guard := some g
    loaded := some i }

theorem handleMessage_sessionInit (s : Server F K) (c : Connection) (sid : SessionId)
    (pub : Vector UInt8 32) (key : SliceKey) (maxSeq : UInt32) (ha : s.host.Announces key) :
    ∃ (s₁ : Server F K) (g : ChainGuard), s₁.files = s.files ∧ s₁.cache = s.cache ∧
      s₁.slices = s.slices ∧ (∀ k, s₁.host.Announces k ↔ s.host.Announces k) ∧
      handleMessage cd s c (.sessionInit sid pub key.1 ⟨key.2.1, key.2.2⟩ maxSeq) =
        match s₁.prepareSlice key with
        | (.error e, s) =>
            (writeFrame cd (.abortSession sid s!"load slice failed: {e}") (.failed (.load e)), s,
              { c with guard := some g, activeSlice := some key })
        | (.ok i, s) =>
            (writeFrame cd (.sessionAck sid (Vector.replicate 32 0)) .next, s.resetKv i,
              c.opened sid key i g) := by
  obtain ⟨host, hstep, hann⟩ := Host.acceptChain_announces ha
  refine ⟨({ s with host } : Server F K).dropGuard c.guard, ⟨host.nextGuard - 1, key⟩, by simp,
    by simp, by simp, fun k => ?_, ?_⟩
  · rw [← hann k, Host.Announces, Host.Announces, Server.dropGuard_control]
  · obtain ⟨cid, start, stop⟩ := key
    simp only [handleMessage, hstep]
    cases hprep : (({ s with host } : Server F K).dropGuard c.guard).prepareSlice
        (cid, start, stop) with
    | mk r s' =>
        cases r with
        | error e => rfl
        | ok i => rfl

/-- The forward passes the session and order checks of the connection and has a slice. -/
def Connection.reaches (c : Connection) (f : Forward) : Bool :=
  c.sessionId = some f.sessionId ∧ ¬ (f.seq ≤ c.lastSeq ∧ c.lastSeq > 0) ∧ c.loaded.isSome

theorem Connection.reaches_iff {c : Connection} {f : Forward} :
    c.reaches f = true ↔ c.sessionId = some f.sessionId ∧
      ¬ (f.seq ≤ c.lastSeq ∧ c.lastSeq > 0) ∧ c.loaded.isSome := by
  simp only [reaches, decide_eq_true_eq]

/-- A forward that is refused by its connection touches nothing that is shared. -/
theorem handleMessage_refused {c : Connection} {f : Forward} (h : c.reaches f = false) :
    ∃ (out : List Msg × Served) (c' : Connection), out.2 ≠ .next ∧
      ∀ (s : Server F K) (g : Option ChainGuard),
      handleMessage cd s { c with guard := g } (.forwardHidden f) =
        (out, s, { c' with guard := g }) := by
  cases hsid : c.sessionId with
  | none =>
      exact ⟨([], .failed .beforeSessionInit), c, by simp, fun s g => by
        simp only [handleMessage, hsid]⟩
  | some cur =>
      by_cases hne : cur = f.sessionId
      · by_cases hseq : f.seq ≤ c.lastSeq ∧ c.lastSeq > 0
        · refine ⟨([], .failed (.outOfOrder c.lastSeq f.seq)), c, by simp, fun s g => ?_⟩
          simp only [handleMessage, hsid, hne, ne_eq, not_true_eq_false, if_false, if_pos hseq]
        · have hload : c.loaded = none := by
            simpa [Connection.reaches, hsid, hne, hseq] using h
          refine ⟨([], .failed .notLoaded), { c with lastSeq := f.seq }, by simp, fun s g => ?_⟩
          simp only [handleMessage, hsid, hne, ne_eq, not_true_eq_false, if_false, if_neg hseq,
            hload, Option.bind_none]
      · refine ⟨([], .failed .sessionMismatch), c, by simp, fun s g => ?_⟩
        simp only [handleMessage, hsid, ne_eq, hne, not_false_eq_true, if_true]

/-- What a forward does on a slice: the reply or the error, the caches and the position. -/
def forwardOn (slice : LoadedSlice F K) (c : Connection) (key : SliceKey) (f : Forward) :
    (List Msg × Served) × K × Nat :=
  let (r, kv, pos) := forwardSlice slice c.indexPos key.2.1.toNat key.2.2.toNat f
  match r.bind (forwardReply f) with
  | .error e => (([], .failed e), kv, pos)
  | .ok reply => (writeFrame cd (.forwardHidden reply) .next, kv, pos)

theorem handleMessage_forward {s : Server F K} {c : Connection} {f : Forward} {i : Nat}
    {key : SliceKey} {slice : LoadedSlice F K} (hreach : c.reaches f = true)
    (hload : c.loaded = some i) (hkey : c.activeSlice = some key)
    (hslice : s.slices[i]? = some slice) (g : Option ChainGuard) :
    handleMessage cd s { c with guard := g } (.forwardHidden f) =
      let (out, kv, pos) := forwardOn cd slice c key f
      (out, s.setKv i kv, { c with lastSeq := f.seq, indexPos := pos, guard := g }) := by
  obtain ⟨hsid, hseq, -⟩ := Connection.reaches_iff.mp hreach
  obtain ⟨cid, start, stop⟩ := key
  have hbind : (c.loaded.bind fun i => (s.slices[i]?).map fun slice => (i, slice)) =
      some (i, slice) := by
    simp [hload, hslice]
  simp only [handleMessage, hsid, ne_eq, not_true_eq_false, if_false, if_neg hseq, hbind, hkey,
    forwardOn]
  cases hfwd : forwardSlice slice c.indexPos start.toNat stop.toNat f with
  | mk r rest =>
      obtain ⟨kv, pos⟩ := rest
      simp only
      cases r.bind (forwardReply f) <;> rfl

theorem handleMessage_forward_missing {s : Server F K} {c : Connection} {f : Forward} {i : Nat}
    (hreach : c.reaches f = true) (hload : c.loaded = some i) (hslice : s.slices[i]? = none)
    (g : Option ChainGuard) :
    handleMessage cd s { c with guard := g } (.forwardHidden f) =
      (([], .failed .notLoaded), s, { c with lastSeq := f.seq, guard := g }) := by
  obtain ⟨hsid, hseq, -⟩ := Connection.reaches_iff.mp hreach
  simp only [handleMessage, hsid, ne_eq, not_true_eq_false, if_false, if_neg hseq, hload, hslice,
    Option.bind_some, Option.map_none]

theorem handleMessage_other {m : Msg} (hinit : ∀ sid pub cid r n, m ≠ .sessionInit sid pub cid r n)
    (hfwd : ∀ f, m ≠ .forwardHidden f) :
    ∃ out, ∀ (s : Server F K) (c : Connection), handleMessage cd s c m = (out, s, c) := by
  cases m with
  | sessionInit sid pub cid r n => exact absurd rfl (hinit sid pub cid r n)
  | forwardHidden f => exact absurd rfl (hfwd f)
  | _ => exact ⟨_, fun _ _ => rfl⟩

/-- What a message can do to the listener and to its connection: leave the slices alone, open a
session on a slice, or run a forward on the slice of the session. -/
inductive Handled (s : Server F K) (c : Connection) :
    Msg → Served → Server F K → Connection → Prop
  | aside {m : Msg} {served : Served} {s' : Server F K} {c' : Connection}
      (files : s'.files = s.files) (cache : s'.cache = s.cache) (slices : s'.slices = s.slices)
      (conn : served = .next → c' = c) : Handled s c m served s' c'
  | cached {sid : SessionId} {pub : Vector UInt8 32} {key : SliceKey} {maxSeq : UInt32}
      {served : Served} {s' : Server F K} (i : Nat) (g : ChainGuard)
      (lookup : s.cache.lookup key = some i) (files : s'.files = s.files)
      (cache : s'.cache = s.cache) (slices : s'.slices = (s.resetKv i).slices) :
      Handled s c (.sessionInit sid pub key.1 ⟨key.2.1, key.2.2⟩ maxSeq) served s'
        (c.opened sid key i g)
  | loaded {sid : SessionId} {pub : Vector UInt8 32} {key : SliceKey} {maxSeq : UInt32}
      {served : Served} {s' s₁ : Server F K} (slice : LoadedSlice F K) (g : ChainGuard)
      (lookup : s.cache.lookup key = none) (load : s.files.loadKey key = .ok slice)
      (files : s'.files = s.files) (cache : s'.cache = s.cache.insert key s.slices.length)
      (append : s₁.slices = s.slices ++ [slice])
      (slices : s'.slices = (s₁.resetKv s.slices.length).slices) :
      Handled s c (.sessionInit sid pub key.1 ⟨key.2.1, key.2.2⟩ maxSeq) served s'
        (c.opened sid key s.slices.length g)
  | forward {f : Forward} {out : List Msg × Served} {kv : K} {pos : Nat} (i : Nat) (key : SliceKey)
      (slice : LoadedSlice F K) (reaches : c.reaches f = true) (load : c.loaded = some i)
      (active : c.activeSlice = some key) (found : s.slices[i]? = some slice)
      (run : forwardOn cd slice c key f = (out, kv, pos)) :
      Handled s c (.forwardHidden f) out.2 (s.setKv i kv)
        { c with lastSeq := f.seq, indexPos := pos }

theorem writeFrame_ne_next {m : Msg} {after : Served} (h : after ≠ .next) :
    (writeFrame cd m after).2 ≠ .next := by
  rw [writeFrame]
  split
  · exact h
  · simp

def Connection.Placed (c : Connection) : Prop := c.loaded.isSome → c.activeSlice.isSome

theorem handleMessage_handled (s : Server F K) {c : Connection} (hplaced : c.Placed) (m : Msg) :
    Handled cd s c m (handleMessage cd s c m).1.2 (handleMessage cd s c m).2.1
      (handleMessage cd s c m).2.2 := by
  by_cases hinit : ∃ sid pub cid r n, m = .sessionInit sid pub cid r n
  · obtain ⟨sid, pub, cid, ⟨start, stop⟩, n, rfl⟩ := hinit
    by_cases ha : s.host.Announces (cid, start, stop)
    · obtain ⟨s₁, g, hfiles, hcache, hslices, -, heq⟩ :=
        handleMessage_sessionInit cd s c sid pub (cid, start, stop) n ha
      rw [heq]
      cases hlook : s.cache.lookup (cid, start, stop) with
      | some i =>
          rw [s₁.prepareSlice_cached _ (hcache ▸ hlook)]
          exact .cached i g hlook (by simpa using hfiles) (by simpa using hcache)
            (Server.resetKv_slices_congr i hslices)
      | none =>
          cases hload : s.files.loadKey (cid, start, stop) with
          | error e =>
              rw [s₁.prepareSlice_error _ (hcache ▸ hlook) (hfiles ▸ hload)]
              exact .aside hfiles hcache hslices fun h => absurd h (writeFrame_ne_next cd (by simp))
          | ok slice =>
              rw [s₁.prepareSlice_loaded _ (hcache ▸ hlook) (hfiles ▸ hload), hslices]
              refine .loaded slice g hlook hload (by simpa using hfiles) ?_ ?_ rfl
              · rw [Server.resetKv_cache, hcache]
              · rfl
    · have hnone : s.host.step (.acceptChain (cid, start, stop)) = none := by
        have hacc : s.host.control.acceptChain (cid, start, stop) = none := by
          by_contra hsome
          obtain ⟨control, hcontrol⟩ := Option.ne_none_iff_exists'.mp hsome
          obtain ⟨e, he, hstate, -⟩ := acceptChain_eq_some.mp hcontrol
          exact ha (by simp [Host.Announces, ControlState.status, he, hstate])
        exact congrArg (Option.map _) hacc
      simp only [handleMessage, hnone]
      exact .aside rfl rfl rfl fun h => absurd h (writeFrame_ne_next cd (by simp))
  · by_cases hfwd : ∃ f, m = .forwardHidden f
    · obtain ⟨f, rfl⟩ := hfwd
      cases hreach : c.reaches f with
      | false =>
          obtain ⟨out, c', hne, heq⟩ := handleMessage_refused (F := F) (K := K) cd hreach
          have heq' := heq s c.guard
          rw [heq']
          exact .aside rfl rfl rfl fun h => absurd h hne
      | true =>
          obtain ⟨i, hload⟩ := Option.isSome_iff_exists.mp (Connection.reaches_iff.mp hreach).2.2
          obtain ⟨key, hactive⟩ := Option.isSome_iff_exists.mp (hplaced (by simp [hload]))
          cases hslice : s.slices[i]? with
          | none =>
              have heq := handleMessage_forward_missing cd hreach hload hslice c.guard
              rw [heq]
              exact .aside rfl rfl rfl fun h => by cases h
          | some slice =>
              have heq := handleMessage_forward cd hreach hload hactive hslice c.guard
              rw [heq]
              exact .forward i key slice hreach hload hactive hslice rfl
    · obtain ⟨out, heq⟩ := handleMessage_other (F := F) (K := K) cd
        (fun sid pub cid r n h => hinit ⟨sid, pub, cid, r, n, h⟩) (fun f h => hfwd ⟨f, h⟩)
      rw [heq]
      exact .aside rfl rfl rfl fun _ => rfl

end Messages

end IntelNav.App
