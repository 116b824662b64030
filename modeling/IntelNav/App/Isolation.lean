import IntelNav.App.Serving
import IntelNav.Core.Floats
import IntelNav.Wire.Cbor

/-! Several connections on one slice: what one of them is answered, next to what it would be
answered alone. -/

set_option autoImplicit false
set_option relaxedAutoImplicit false

namespace IntelNav.App

open IntelNav.Core IntelNav.Ggml IntelNav.Runtime IntelNav.Wire

variable {F K : Type}

/-- The listener and its accepted connections; one whose handler returned is gone. -/
structure Hub (F K : Type) where
  server : Server F K
  conns : Nat → Option Connection

def Hub.new (s : Server F K) : Hub F K := ⟨s, fun _ => some .new⟩

/-- What belongs to connection `i`. -/
def ofConn {α : Type} (i : Nat) (l : List (Nat × α)) : List (Nat × α) := l.filter (·.1 = i)

section Machine

variable [F32 F] (cd : Codec)

/-- The handler of connection `i` takes one message: what it writes and what comes next. When it
returns, its guard is dropped. -/
def Hub.step (h : Hub F K) (i : Nat) (m : Msg) : Option (List Msg × Served) × Hub F K :=
  match h.conns i with
  | none => (none, h)
  | some c =>
      let (out, s, c) := handleMessage cd h.server c m
      match out.2 with
      | .next => (some out, ⟨s, Function.update h.conns i (some c)⟩)
      | _ => (some out, ⟨s.dropGuard c.guard, Function.update h.conns i none⟩)

def Hub.run (h : Hub F K) : List (Nat × Msg) → List (Nat × (List Msg × Served))
  | [] => []
  | (i, m) :: es =>
      match h.step cd i m with
      | (none, h) => h.run es
      | (some out, h) => (i, out) :: h.run es

/-- Connection `i` is answered as if it ran alone. -/
def Isolated (s : Server F K) (es : List (Nat × Msg)) (i : Nat) : Prop :=
  ofConn i ((Hub.new s).run cd es) = (Hub.new s).run cd (ofConn i es)

/-- All sessions the run asks for are on `key`. -/
def SameSlice (key : SliceKey) (es : List (Nat × Msg)) : Prop :=
  ∀ i sid pub cid r n, (i, .sessionInit sid pub cid r n) ∈ es → (cid, r.start, r.stop) = key

/-- Whose forwards the caches of the slice hold since the last reset, and which connections have
forwarded since their own session request. -/
structure Tenancy where
  tenant : Option Nat
  started : Nat → Bool

def Tenancy.new : Tenancy := ⟨none, fun _ => false⟩

/-- A session request empties the caches; a forward that reaches the slice fills them. -/
def Tenancy.after (t : Tenancy) (h : Hub F K) (i : Nat) (m : Msg) : Tenancy :=
  match h.conns i, m with
  | some _, .sessionInit .. => ⟨none, Function.update t.started i false⟩
  | some c, .forwardHidden f =>
      if c.reaches f then ⟨some i, Function.update t.started i true⟩ else t
  | _, _ => t

/-- The caches hold what connection `i` has forwarded since its session request, and nothing
else. -/
def Tenancy.Owns (t : Tenancy) (i : Nat) : Prop :=
  t.tenant = if t.started i then some i else none

instance (t : Tenancy) (i : Nat) : Decidable (t.Owns i) := inferInstanceAs (Decidable (_ = _))

def Hub.reaches (h : Hub F K) (i : Nat) : Msg → Bool
  | .forwardHidden f => (h.conns i).any (·.reaches f)
  | _ => false

/-- Every forward that reaches the slice comes from a connection that owns its caches. -/
def Undisturbed (h : Hub F K) (t : Tenancy) : List (Nat × Msg) → Prop
  | [] => True
  | (i, m) :: es =>
      (h.reaches i m = true → t.Owns i) ∧ Undisturbed (h.step cd i m).2 (t.after h i m) es

instance decidableUndisturbed :
    ∀ (es : List (Nat × Msg)) (h : Hub F K) (t : Tenancy), Decidable (Undisturbed cd h t es)
  | [], _, _ => .isTrue trivial
  | (i, m) :: es, h, t =>
      have := decidableUndisturbed es (h.step cd i m).2 (t.after h i m)
      inferInstanceAs (Decidable (_ ∧ _))

end Machine

/-- Where the slice of `key` is, or will be once loaded, and the model found there. -/
def Slot (key : SliceKey) (n : Nat) (model : Except String (Option (Pipelined F K × Nat)))
    (s : Server F K) : Prop :=
  s.cache.lookup key = some n ∧
      model = .ok ((s.slices[n]?).map fun x => (x.handle, x.localOffset)) ∨
    s.cache.lookup key = none ∧ s.slices.length = n ∧
      model = (s.files.loadKey key).map fun x => some (x.handle, x.localOffset)

/-- A slot is where the slice of `key` is, for every server. -/
private theorem exists_slot (key : SliceKey) (s : Server F K) : ∃ n model, Slot key n model s := by
  cases h : s.cache.lookup key with
  | some n => exact ⟨n, _, .inl ⟨h, rfl⟩⟩
  | none => exact ⟨_, _, .inr ⟨h, rfl, rfl⟩⟩

def OnSlice (key : SliceKey) (n : Nat) (s : Server F K) (c : Connection) : Prop :=
  c.sessionId = none ∧ c.loaded = none ∨
    c.loaded = some n ∧ c.activeSlice = some key ∧ s.cache.lookup key = some n

section OneServer

variable {key : SliceKey} {n : Nat} {model : Except String (Option (Pipelined F K × Nat))}

private def openReply (cd : Codec) (key : SliceKey) (n : Nat)
    (model : Except String (Option (Pipelined F K × Nat))) (sid : SessionId) (c : Connection)
    (g : ChainGuard) : (List Msg × Served) × Connection :=
  match model with
  | .error e =>
      (writeFrame cd (.abortSession sid s!"load slice failed: {e}") (.failed (.load e)),
        { c with guard := some g, activeSlice := some key })
  | .ok _ =>
      (writeFrame cd (.sessionAck sid (Vector.replicate 32 0)) .next, c.opened sid key n g)

private theorem sessionInit_slot [F32 F] (cd : Codec) {s : Server F K} (hslot : Slot key n model s)
    (ha : s.host.Announces key) (c : Connection) (sid : SessionId) (pub : Vector UInt8 32)
    (maxSeq : UInt32) :
    ∃ (s' : Server F K) (g : ChainGuard), s'.files = s.files ∧ s'.host.Announces key ∧
      Slot key n model s' ∧
      handleMessage cd s c (.sessionInit sid pub key.1 ⟨key.2.1, key.2.2⟩ maxSeq) =
        ((openReply cd key n model sid c g).1, s', (openReply cd key n model sid c g).2) ∧
      (model.isOk → s'.cache.lookup key = some n ∧ s'.ResetKv n) := by
  obtain ⟨s₁, g, hfiles, hcache, hslices, hann, heq⟩ :=
    handleMessage_sessionInit cd s c sid pub key maxSeq ha
  have ha₁ : s₁.host.Announces key := (hann key).mpr ha
  rcases hslot with ⟨hlook, rfl⟩ | ⟨hlook, hlen, hmodel⟩
  · have hprep := s₁.prepareSlice_cached key (hcache ▸ hlook)
    refine ⟨s₁.resetKv n, g, by simpa using hfiles, by simpa using ha₁, .inl ⟨?_, ?_⟩, ?_, ?_⟩
    · rw [Server.resetKv_cache, hcache, hlook]
    · rw [Server.resetKv_model, hslices]
    · rw [heq, hprep]
      rfl
    · exact fun _ => ⟨by rw [Server.resetKv_cache, hcache, hlook], s₁.resetKv_resetKv n⟩
  · cases hload : s.files.loadKey key with
    | error e =>
        obtain rfl : model = .error e := by rw [hmodel, hload]; rfl
        have hprep := s₁.prepareSlice_error key (hcache ▸ hlook) (hfiles ▸ hload)
        refine ⟨s₁, g, hfiles, ha₁, .inr ⟨hcache ▸ hlook, hslices ▸ hlen, ?_⟩, ?_,
          fun h => by cases h⟩
        · rw [hfiles, hload]
          rfl
        · rw [heq, hprep]
          rfl
    | ok slice =>
        obtain rfl : model = .ok (some (slice.handle, slice.localOffset)) := by
          rw [hmodel, hload]; rfl
        have hprep := s₁.prepareSlice_loaded key (hcache ▸ hlook) (hfiles ▸ hload)
        have hlen₁ : s₁.slices.length = n := hslices ▸ hlen
        rw [hlen₁] at hprep
        let s₂ : Server F K :=
          { s₁ with cache := s₁.cache.insert key n, slices := s₁.slices ++ [slice] }
        have hlook₂ : (s₂.resetKv n).cache.lookup key = some n := by simp [s₂]
        refine ⟨s₂.resetKv n, g, by simpa [s₂] using hfiles, by simpa [s₂] using ha₁,
          .inl ⟨hlook₂, ?_⟩, ?_, fun _ => ⟨hlook₂, s₂.resetKv_resetKv n⟩⟩
        · rw [Server.resetKv_model]
          simp [s₂, ← hlen₁]
        · rw [heq, hprep]
          rfl

/-- What holds of the server in a run of sessions on `key`. -/
private structure Serves (key : SliceKey) (n : Nat)
    (model : Except String (Option (Pipelined F K × Nat))) (s : Server F K) : Prop where
  announces : s.host.Announces key
  slot : Slot key n model s

private theorem Serves.dropGuard {s : Server F K} (hs : Serves key n model s)
    (g : Option ChainGuard) : Serves key n model (s.dropGuard g) where
  announces := by simpa [Host.Announces] using hs.announces
  slot := by simpa [Slot] using hs.slot

private theorem Serves.setKv {s : Server F K} (hs : Serves key n model s)
    (hlook : s.cache.lookup key = some n) (kv : K) : Serves key n model (s.setKv n kv) where
  announces := hs.announces
  slot := by
    rcases hs.slot with ⟨-, hmodel⟩ | ⟨hnone, -⟩
    · refine .inl ⟨hlook, ?_⟩
      rw [hmodel, Server.getElem?_setKv_self]
      cases s.slices[n]? <;> rfl
    · rw [hlook] at hnone
      cases hnone

private def touches (c : Connection) : Msg → Bool
  | .sessionInit .. => true
  | .forwardHidden f => c.reaches f
  | _ => false

private theorem touches_cases [F32 F] (cd : Codec) (c : Connection) (m : Msg) :
    (∃ sid pub cid r k, m = .sessionInit sid pub cid r k) ∨
      (∃ f, m = .forwardHidden f ∧ c.reaches f = true) ∨
      touches c m = false ∧
        ((∃ f, m = .forwardHidden f ∧ c.reaches f = false) ∨
          ∃ out, ∀ (s : Server F K) (c : Connection), handleMessage cd s c m = (out, s, c)) := by
  by_cases hinit : ∃ sid pub cid r k, m = .sessionInit sid pub cid r k
  · exact .inl hinit
  · by_cases hfwd : ∃ f, m = .forwardHidden f
    · obtain ⟨f, rfl⟩ := hfwd
      cases hreach : c.reaches f
      · exact .inr (.inr ⟨hreach, .inl ⟨f, rfl, hreach⟩⟩)
      · exact .inr (.inl ⟨f, rfl, hreach⟩)
    · refine .inr (.inr ⟨?_, .inr (handleMessage_other cd ?_ ?_)⟩)
      · cases m with
        | sessionInit sid pub cid r k => exact absurd ⟨sid, pub, cid, r, k, rfl⟩ hinit
        | forwardHidden f => exact absurd ⟨f, rfl⟩ hfwd
        | _ => rfl
      · exact fun sid pub cid r k h => hinit ⟨sid, pub, cid, r, k, h⟩
      · exact fun f h => hfwd ⟨f, h⟩

private theorem slot_isOk {s : Server F K} (hslot : Slot key n model s)
    (hlook : s.cache.lookup key = some n) : model.isOk = true := by
  rcases hslot with ⟨-, rfl⟩ | ⟨hnone, -⟩
  · rfl
  · rw [hlook] at hnone
    cases hnone

private theorem OnSlice.lookup {s : Server F K} {c : Connection} (hc : OnSlice key n s c) {i : Nat}
    (hload : c.loaded = some i) :
    i = n ∧ c.activeSlice = some key ∧ s.cache.lookup key = some n := by
  rcases hc with ⟨-, hnone⟩ | ⟨hsome, hactive, hlook⟩
  · rw [hload] at hnone
    cases hnone
  · rw [hload] at hsome
    exact ⟨Option.some.inj hsome, hactive, hlook⟩

private theorem OnSlice.of_reaches {s : Server F K} {c : Connection} (hc : OnSlice key n s c)
    {f : Forward} (hreach : c.reaches f = true) :
    c.loaded = some n ∧ c.activeSlice = some key ∧ s.cache.lookup key = some n := by
  obtain ⟨-, -, hload⟩ := Connection.reaches_iff.mp hreach
  obtain ⟨i, hi⟩ := Option.isSome_iff_exists.mp hload
  obtain ⟨rfl, hrest⟩ := hc.lookup hi
  exact ⟨hi, hrest⟩

variable [F32 F] {cd : Codec}

variable (cd) in
/-- One message keeps the server serving `key` and the connection on it; only a session request and
a forward that reaches the slice change its caches. -/
private theorem serves_handleMessage {s : Server F K} {c : Connection} {m : Msg}
    (hs : Serves key n model s) (hc : OnSlice key n s c)
    (hkey : ∀ sid pub cid r k, m = .sessionInit sid pub cid r k → (cid, r.start, r.stop) = key) :
    Serves key n model (handleMessage cd s c m).2.1 ∧
      (s.cache.lookup key = some n → (handleMessage cd s c m).2.1.cache.lookup key = some n) ∧
      ((handleMessage cd s c m).1.2 = .next →
        OnSlice key n (handleMessage cd s c m).2.1 (handleMessage cd s c m).2.2) ∧
      (touches c m = false → (handleMessage cd s c m).2.1.slices = s.slices) ∧
      ((∃ sid pub cid r k, m = .sessionInit sid pub cid r k) → model.isOk = true →
        (handleMessage cd s c m).2.1.ResetKv n) := by
  rcases touches_cases (F := F) (K := K) cd c m with
    ⟨sid, pub, cid, r, k, rfl⟩ | ⟨f, rfl, hreach⟩ | ⟨htouch, ⟨f, rfl, hreach⟩ | ⟨out, hout⟩⟩
  · obtain rfl := hkey _ _ _ _ _ rfl
    obtain ⟨s', g, hfiles, hann, hslot, heq, hok⟩ :=
      sessionInit_slot cd hs.slot hs.announces c sid pub k
    rw [show (LayerRange.mk r.start r.stop) = r from rfl] at heq
    rw [heq]
    dsimp only
    refine ⟨⟨hann, hslot⟩, fun hlook => (hok (slot_isOk hs.slot hlook)).1, ?_,
      fun h => Bool.noConfusion (show true = false from h), fun _ hmodel => (hok hmodel).2⟩
    intro hnext
    cases hm : model with
    | error e =>
        rw [hm, openReply, writeFrame] at hnext
        split at hnext <;> cases hnext
    | ok x => exact .inr ⟨rfl, rfl, (hok (by rw [hm]; rfl)).1⟩
  · obtain ⟨hload, hactive, hlook⟩ := hc.of_reaches hreach
    cases hslice : s.slices[n]? with
    | none =>
        have heq := handleMessage_forward_missing cd hreach hload hslice c.guard
        rw [heq]
        dsimp only
        exact ⟨hs, id, (fun h => by cases h), fun _ => rfl, fun h => by simp at h⟩
    | some slice =>
        have heq := handleMessage_forward cd hreach hload hactive hslice c.guard
        rw [heq]
        dsimp only
        exact ⟨hs.setKv hlook _, id, fun _ => .inr ⟨hload, hactive, hlook⟩,
          fun h => Bool.noConfusion (hreach.symm.trans h), fun h => by simp at h⟩
  · obtain ⟨out, c', hne, heq⟩ := handleMessage_refused (F := F) (K := K) cd hreach
    have heq' := heq s c.guard
    rw [heq']
    dsimp only
    exact ⟨hs, id, fun h => absurd h hne, fun _ => rfl, fun h => by simp at h⟩
  · rw [hout]
    dsimp only
    refine ⟨hs, id, fun _ => hc, fun _ => rfl, ?_⟩
    rintro ⟨sid, pub, cid, r, k, rfl⟩
    cases htouch

variable (cd) in
/-- Two servers with the same slot answer one connection alike, whatever guard it holds, when a
forward that reaches the slice finds the same caches there. -/
private theorem handleMessage_alike {s₁ s₂ : Server F K} {c : Connection} {m : Msg}
    (hs₁ : Serves key n model s₁) (hs₂ : Serves key n model s₂) (hc₁ : OnSlice key n s₁ c)
    (hc₂ : OnSlice key n s₂ c)
    (hkey : ∀ sid pub cid r k, m = .sessionInit sid pub cid r k → (cid, r.start, r.stop) = key)
    (hslices : ∀ f, m = .forwardHidden f → c.reaches f = true → s₁.slices[n]? = s₂.slices[n]?)
    (g : Option ChainGuard) :
    (handleMessage cd s₁ { c with guard := g } m).1 = (handleMessage cd s₂ c m).1 ∧
      (∃ g', (handleMessage cd s₁ { c with guard := g } m).2.2 =
        { (handleMessage cd s₂ c m).2.2 with guard := g' }) ∧
      (∀ f, m = .forwardHidden f → c.reaches f = true →
        (handleMessage cd s₁ { c with guard := g } m).2.1.slices[n]? =
          (handleMessage cd s₂ c m).2.1.slices[n]?) := by
  rcases touches_cases (F := F) (K := K) cd c m with
    ⟨sid, pub, cid, r, k, rfl⟩ | ⟨f, rfl, hreach⟩ | ⟨htouch, ⟨f, rfl, hreach⟩ | ⟨out, hout⟩⟩
  · obtain rfl := hkey _ _ _ _ _ rfl
    obtain ⟨s₁', g₁, -, -, -, heq₁, -⟩ :=
      sessionInit_slot cd hs₁.slot hs₁.announces { c with guard := g } sid pub k
    obtain ⟨s₂', g₂, -, -, -, heq₂, -⟩ := sessionInit_slot cd hs₂.slot hs₂.announces c sid pub k
    rw [show (LayerRange.mk r.start r.stop) = r from rfl] at heq₁ heq₂
    rw [heq₁, heq₂]
    dsimp only
    refine ⟨?_, ⟨some g₁, ?_⟩, fun f h => by cases h⟩
    · cases model <;> rfl
    · cases model <;> rfl
  · obtain ⟨hload, hactive, -⟩ := hc₁.of_reaches hreach
    have hsame := hslices f rfl hreach
    cases hslice : s₁.slices[n]? with
    | none =>
        have heq₁ := handleMessage_forward_missing cd hreach hload hslice g
        have heq₂ := handleMessage_forward_missing cd hreach hload (hsame ▸ hslice) c.guard
        rw [heq₁, heq₂]
        dsimp only
        exact ⟨rfl, ⟨g, rfl⟩, fun _ _ _ => hsame⟩
    | some slice =>
        have hslice₂ : s₂.slices[n]? = some slice := hsame ▸ hslice
        have heq₁ := handleMessage_forward cd hreach hload hactive hslice g
        have heq₂ := handleMessage_forward cd hreach hload hactive hslice₂ c.guard
        rw [heq₁, heq₂]
        dsimp only
        refine ⟨rfl, ⟨g, rfl⟩, fun _ _ _ => ?_⟩
        rw [Server.getElem?_setKv_self, Server.getElem?_setKv_self, hsame]
  · obtain ⟨out, c', -, heq⟩ := handleMessage_refused (F := F) (K := K) cd hreach
    have heq₁ := heq s₁ g
    have heq₂ := heq s₂ c.guard
    rw [heq₁, heq₂]
    dsimp only
    refine ⟨rfl, ⟨g, rfl⟩, fun f' h hreach' => ?_⟩
    cases h
    rw [hreach] at hreach'
    cases hreach'
  · rw [hout, hout]
    dsimp only
    refine ⟨rfl, ⟨g, rfl⟩, fun f h hreach => ?_⟩
    subst h
    exact Bool.noConfusion (hreach.symm.trans htouch)

end OneServer

section TwoRuns

variable {key : SliceKey} {n : Nat}
  {model : Except String (Option (Pipelined F K × Nat))} {i : Nat}

/-- The whole run next to the run of connection `i` alone. -/
private structure Beside (key : SliceKey) (n : Nat)
    (model : Except String (Option (Pipelined F K × Nat))) (i : Nat) (t : Tenancy)
    (all alone : Hub F K) : Prop where
  serves : Serves key n model all.server
  servesAlone : Serves key n model alone.server
  onSlice : ∀ j c, all.conns j = some c → OnSlice key n all.server c
  onSliceAlone : ∀ c, alone.conns i = some c → OnSlice key n alone.server c
  same : all.conns i = none ∧ alone.conns i = none ∨
    ∃ c g, alone.conns i = some c ∧ all.conns i = some { c with guard := g }
  clean : t.tenant = none → ∀ c, alone.conns i = some c → c.loaded = some n →
    all.server.ResetKv n
  fresh : t.started i = false → ∀ c, alone.conns i = some c → c.loaded = some n →
    alone.server.ResetKv n
  held : t.tenant = some i → all.server.slices[n]? = alone.server.slices[n]?

private def Clears (model : Except String (Option (Pipelined F K × Nat))) : Prop :=
  ∀ handle off, model = .ok (some (handle, off)) → handle.Clears

private theorem slices_eq_of_reset (hclears : Clears model) {s₁ s₂ : Server F K}
    (hs₁ : Serves key n model s₁) (hs₂ : Serves key n model s₂)
    (hlook₁ : s₁.cache.lookup key = some n) (hlook₂ : s₂.cache.lookup key = some n)
    (hreset₁ : s₁.ResetKv n) (hreset₂ : s₂.ResetKv n) : s₁.slices[n]? = s₂.slices[n]? := by
  have hmodel : ∀ s : Server F K, Serves key n model s → s.cache.lookup key = some n →
      model = .ok ((s.slices[n]?).map fun x => (x.handle, x.localOffset)) := by
    intro s hs hlook
    rcases hs.slot with ⟨-, h⟩ | ⟨hnone, -⟩
    · exact h
    · rw [hlook] at hnone
      cases hnone
  have h₁ := hmodel s₁ hs₁ hlook₁
  have h₂ := hmodel s₂ hs₂ hlook₂
  have heq := Except.ok.inj (h₁.symm.trans h₂)
  cases hx₁ : s₁.slices[n]? with
  | none =>
      rw [hx₁] at heq
      cases hx₂ : s₂.slices[n]? with
      | none => rfl
      | some x₂ =>
          rw [hx₂] at heq
          cases heq
  | some x₁ =>
      rw [hx₁] at heq h₁
      cases hx₂ : s₂.slices[n]? with
      | none =>
          rw [hx₂] at heq
          cases heq
      | some x₂ =>
          rw [hx₂] at heq
          obtain ⟨k₁, hk₁⟩ := hreset₁ x₁ hx₁
          obtain ⟨k₂, hk₂⟩ := hreset₂ x₂ hx₂
          obtain ⟨handle₁, kv₁, off₁⟩ := x₁
          obtain ⟨handle₂, kv₂, off₂⟩ := x₂
          obtain ⟨rfl, rfl⟩ := Prod.mk.inj (Option.some.inj heq)
          dsimp only at hk₁ hk₂ h₁
          rw [hk₁, hk₂, hclears _ _ h₁ k₁ k₂]

private theorem beside_new {s : Server F K} (ha : s.host.Announces key)
    (hslot : Slot key n model s) : Beside key n model i .new (.new s) (.new s) where
  serves := ⟨ha, hslot⟩
  servesAlone := ⟨ha, hslot⟩
  onSlice _ _ hc := .inl (by obtain rfl := Option.some.inj hc; exact ⟨rfl, rfl⟩)
  onSliceAlone _ hc := .inl (by obtain rfl := Option.some.inj hc; exact ⟨rfl, rfl⟩)
  same := .inr ⟨.new, none, rfl, rfl⟩
  clean _ _ hc hload := by obtain rfl := Option.some.inj hc; cases hload
  fresh _ _ hc hload := by obtain rfl := Option.some.inj hc; cases hload
  held _ := rfl

private theorem after_none {t : Tenancy} {h : Hub F K} {j : Nat} {m : Msg}
    (hc : h.conns j = none) : t.after h j m = t := by
  simp only [Tenancy.after, hc]

private theorem after_untouched {t : Tenancy} {h : Hub F K} {j : Nat} {m : Msg} {c : Connection}
    (hc : h.conns j = some c) (hm : touches c m = false) : t.after h j m = t := by
  cases m with
  | sessionInit => cases hm
  | forwardHidden f =>
      have hreach : c.reaches f = false := hm
      simp [Tenancy.after, hc, hreach]
  | _ => simp only [Tenancy.after, hc]

private theorem after_sessionInit {t : Tenancy} {h : Hub F K} {j : Nat} {c : Connection}
    (hc : h.conns j = some c) (sid : SessionId) (pub : Vector UInt8 32) (cid : String)
    (r : LayerRange) (k : UInt32) :
    t.after h j (.sessionInit sid pub cid r k) =
      ⟨none, Function.update t.started j false⟩ := by
  simp only [Tenancy.after, hc]

private theorem after_forward {t : Tenancy} {h : Hub F K} {j : Nat} {c : Connection} {f : Forward}
    (hc : h.conns j = some c) (hreach : c.reaches f = true) :
    t.after h j (.forwardHidden f) = ⟨some j, Function.update t.started j true⟩ := by
  simp only [Tenancy.after, hc, hreach, if_true]

variable [F32 F] {cd : Codec}

variable (cd) in
private theorem step_some {h : Hub F K} {j : Nat} (m : Msg) {c : Connection}
    (hc : h.conns j = some c) :
    (h.step cd j m).1 = some (handleMessage cd h.server c m).1 ∧
      (h.step cd j m).2.server.slices = (handleMessage cd h.server c m).2.1.slices ∧
      (∀ k, k ≠ j → (h.step cd j m).2.conns k = h.conns k) ∧
      (h.step cd j m).2.conns j =
        (if (handleMessage cd h.server c m).1.2 = .next then
          some (handleMessage cd h.server c m).2.2 else none) ∧
      (∀ {key : SliceKey} {n : Nat} {model : Except String (Option (Pipelined F K × Nat))},
        Serves key n model (handleMessage cd h.server c m).2.1 →
          Serves key n model (h.step cd j m).2.server) ∧
      (h.step cd j m).2.server.cache = (handleMessage cd h.server c m).2.1.cache := by
  simp only [Hub.step, hc]
  generalize handleMessage cd h.server c m = r
  obtain ⟨⟨sent, served⟩, s, c'⟩ := r
  cases served with
  | next => exact ⟨rfl, rfl, fun k hk => by simp [hk], by simp, id, rfl⟩
  | done =>
      exact ⟨rfl, by simp, fun k hk => by simp [hk], by simp, fun hs => hs.dropGuard _, by simp⟩
  | failed e =>
      exact ⟨rfl, by simp, fun k hk => by simp [hk], by simp, fun hs => hs.dropGuard _, by simp⟩

variable (cd) in
private theorem conn_onSlice {h : Hub F K} {j : Nat} {m : Msg} {c c' : Connection}
    (hc : h.conns j = some c) (hs : Serves key n model h.server) (hon : OnSlice key n h.server c)
    (hkey : ∀ sid pub cid r k, m = .sessionInit sid pub cid r k → (cid, r.start, r.stop) = key)
    (hc' : (h.step cd j m).2.conns j = some c') : OnSlice key n (h.step cd j m).2.server c' := by
  obtain ⟨-, -, -, hself, -, hcache⟩ := step_some cd m hc
  obtain ⟨-, -, hon', -, -⟩ := serves_handleMessage cd hs hon hkey
  rw [hself] at hc'
  split_ifs at hc' with hnext
  obtain rfl := Option.some.inj hc'
  have := hon' hnext
  rwa [OnSlice, ← hcache] at this

variable (cd) in
/-- A message that leaves the slices untouched leaves its connection as it is, or closes it. -/
private theorem conn_kept {h : Hub F K} {j : Nat} {m : Msg} {c c' : Connection}
    (hc : h.conns j = some c) (hkind : (∃ f, m = .forwardHidden f ∧ c.reaches f = false) ∨
      ∃ out, ∀ (s : Server F K) (c : Connection), handleMessage cd s c m = (out, s, c))
    (hc' : (h.step cd j m).2.conns j = some c') : c' = c := by
  obtain ⟨-, -, -, hself, -, -⟩ := step_some cd m hc
  rw [hself] at hc'
  split_ifs at hc' with hnext
  obtain rfl := Option.some.inj hc'
  rcases hkind with ⟨f, rfl, hreach⟩ | ⟨out, hsent⟩
  · obtain ⟨out, c₁, hne, hsent⟩ := handleMessage_refused (F := F) (K := K) cd hreach
    have hsent' := hsent h.server c.guard
    rw [hsent'] at hnext
    exact absurd hnext hne
  · rw [hsent]

variable (cd) in
private theorem step_onSlice {h : Hub F K} (j : Nat) {m : Msg} (hs : Serves key n model h.server)
    (hon : ∀ k c, h.conns k = some c → OnSlice key n h.server c)
    (hkey : ∀ sid pub cid r k, m = .sessionInit sid pub cid r k → (cid, r.start, r.stop) = key) :
    Serves key n model (h.step cd j m).2.server ∧
      ∀ k c, (h.step cd j m).2.conns k = some c → OnSlice key n (h.step cd j m).2.server c := by
  cases hc : h.conns j with
  | none =>
      have hstep : h.step cd j m = (none, h) := by simp only [Hub.step, hc]
      rw [hstep]
      exact ⟨hs, hon⟩
  | some c =>
      obtain ⟨-, -, hother, -, hserves, hcache⟩ := step_some cd m hc
      obtain ⟨hs', hlook, -, -, -⟩ := serves_handleMessage cd hs (hon j c hc) hkey
      refine ⟨hserves hs', fun k c' hk => ?_⟩
      by_cases hkj : k = j
      · subst hkj
        exact conn_onSlice cd hc hs (hon k c hc) hkey hk
      · rw [hother k hkj] at hk
        rcases hon k c' hk with hnone | ⟨hload, hactive, hl⟩
        · exact .inl hnone
        · exact .inr ⟨hload, hactive, hcache ▸ hlook hl⟩

variable (cd) in
private theorem beside_other {t : Tenancy} {all alone : Hub F K} {j : Nat} {m : Msg}
    (hb : Beside key n model i t all alone) (hj : j ≠ i)
    (hkey : ∀ sid pub cid r k, m = .sessionInit sid pub cid r k → (cid, r.start, r.stop) = key) :
    Beside key n model i (t.after all j m) (all.step cd j m).2 alone := by
  cases hc : all.conns j with
  | none =>
      have hstep : all.step cd j m = (none, all) := by simp only [Hub.step, hc]
      rw [hstep, after_none hc]
      exact hb
  | some c =>
      obtain ⟨-, hslices, hother, -, -, -⟩ := step_some cd m hc
      obtain ⟨hserves, hon⟩ := step_onSlice cd j hb.serves hb.onSlice hkey
      obtain ⟨-, -, -, hquiet, hreset⟩ :=
        serves_handleMessage cd hb.serves (hb.onSlice j c hc) hkey
      have hsame := hb.same
      rw [← hother i (Ne.symm hj)] at hsame
      rcases touches_cases (F := F) (K := K) cd c m with
        ⟨sid, pub, cid, r, k, rfl⟩ | ⟨f, rfl, hreach⟩ | ⟨htouch, -⟩
      · rw [after_sessionInit hc]
        refine ⟨hserves, hb.servesAlone, hon, hb.onSliceAlone, hsame, fun _ c' hc' hload => ?_,
          fun hstarted => ?_, fun h => by cases h⟩
        · have hmodel := slot_isOk hb.servesAlone.slot ((hb.onSliceAlone c' hc').lookup hload).2.2
          intro slice hslice
          rw [hslices] at hslice
          exact hreset ⟨_, _, _, _, _, rfl⟩ hmodel slice hslice
        · dsimp only at hstarted
          rw [Function.update_of_ne (Ne.symm hj)] at hstarted
          exact hb.fresh hstarted
      · rw [after_forward hc hreach]
        refine ⟨hserves, hb.servesAlone, hon, hb.onSliceAlone, hsame,
          (fun h => by cases h), fun hstarted => ?_, fun h => absurd (Option.some.inj h) hj⟩
        dsimp only at hstarted
        rw [Function.update_of_ne (Ne.symm hj)] at hstarted
        exact hb.fresh hstarted
      · rw [after_untouched hc htouch]
        have heq : (all.step cd j m).2.server.slices = all.server.slices :=
          hslices.trans (hquiet htouch)
        refine ⟨hserves, hb.servesAlone, hon, hb.onSliceAlone, hsame, ?_, hb.fresh, ?_⟩
        · simpa only [Server.ResetKv, heq] using hb.clean
        · simpa only [heq] using hb.held

omit [F32 F] in
/-- A connection that owns the caches, and whose forward reaches the slice, finds the same in both
runs: the caches are its own, or empty in both. -/
private theorem Beside.same_slice (hclears : Clears model) {t : Tenancy} {all alone : Hub F K}
    (hb : Beside key n model i t all alone) {c : Connection} {g : Option ChainGuard}
    (hc : all.conns i = some { c with guard := g }) (hc' : alone.conns i = some c)
    (hown : t.Owns i) {f : Forward} (hreach : c.reaches f = true) :
    all.server.slices[n]? = alone.server.slices[n]? := by
  have hon : OnSlice key n all.server c := by simpa [OnSlice] using hb.onSlice i _ hc
  obtain ⟨hload, -, hlook⟩ := hon.of_reaches hreach
  obtain ⟨-, -, hlook'⟩ := (hb.onSliceAlone c hc').of_reaches hreach
  cases hstarted : t.started i with
  | true =>
      rw [Tenancy.Owns, hstarted, if_pos rfl] at hown
      exact hb.held hown
  | false =>
      rw [Tenancy.Owns, hstarted, if_neg Bool.false_ne_true] at hown
      exact slices_eq_of_reset hclears hb.serves hb.servesAlone hlook hlook'
        (hb.clean hown c hc' hload) (hb.fresh hstarted c hc' hload)

variable (cd) in
/-- A message of connection `i` is answered alike in both runs, and leaves them beside each
other. -/
private theorem beside_own (hclears : Clears model) {t : Tenancy} {all alone : Hub F K} {m : Msg}
    (hb : Beside key n model i t all alone)
    (hkey : ∀ sid pub cid r k, m = .sessionInit sid pub cid r k → (cid, r.start, r.stop) = key)
    (howns : all.reaches i m = true → t.Owns i) :
    (all.step cd i m).1 = (alone.step cd i m).1 ∧
      Beside key n model i (t.after all i m) (all.step cd i m).2 (alone.step cd i m).2 := by
  rcases hb.same with ⟨hnone, hnone'⟩ | ⟨c, g, hc', hc⟩
  · have hstep : all.step cd i m = (none, all) := by simp only [Hub.step, hnone]
    have hstep' : alone.step cd i m = (none, alone) := by simp only [Hub.step, hnone']
    rw [hstep, hstep', after_none hnone]
    exact ⟨rfl, hb⟩
  · have hon : OnSlice key n all.server c := by simpa [OnSlice] using hb.onSlice i _ hc
    have hon' := hb.onSliceAlone c hc'
    have hslices : ∀ f, m = .forwardHidden f → c.reaches f = true →
        all.server.slices[n]? = alone.server.slices[n]? := by
      intro f hm hreach
      have hown := howns (by rw [hm, Hub.reaches, hc]; exact hreach)
      exact hb.same_slice hclears hc hc' hown hreach
    obtain ⟨hout, ⟨g', hconn⟩, hafter⟩ :=
      handleMessage_alike cd hb.serves hb.servesAlone hon hon' hkey hslices g
    obtain ⟨hreply, hsl, -, hself, -, -⟩ := step_some cd m hc
    obtain ⟨hreply', hsl', -, hself', hserves', -⟩ := step_some cd m hc'
    obtain ⟨hs, hon₁⟩ := step_onSlice cd i hb.serves hb.onSlice hkey
    obtain ⟨-, -, -, hquiet, hreset⟩ :=
      serves_handleMessage cd hb.serves (hb.onSlice i _ hc) hkey
    obtain ⟨hs', -, -, hquiet', hreset'⟩ :=
      serves_handleMessage cd hb.servesAlone hon' hkey
    have honAlone : ∀ c', (alone.step cd i m).2.conns i = some c' →
        OnSlice key n (alone.step cd i m).2.server c' :=
      fun c' => conn_onSlice cd hc' hb.servesAlone (hb.onSliceAlone c hc') hkey
    have hsame : (all.step cd i m).2.conns i = none ∧ (alone.step cd i m).2.conns i = none ∨
        ∃ c g, (alone.step cd i m).2.conns i = some c ∧
          (all.step cd i m).2.conns i = some { c with guard := g } := by
      rw [hself, hself', hout, hconn]
      split_ifs
      · exact .inr ⟨_, g', rfl, rfl⟩
      · exact .inl ⟨rfl, rfl⟩
    refine ⟨by rw [hreply, hreply', hout], ?_⟩
    rcases touches_cases (F := F) (K := K) cd c m with
      ⟨sid, pub, cid, r, k, rfl⟩ | ⟨f, rfl, hreach⟩ | ⟨htouch, hkind⟩
    · rw [after_sessionInit hc]
      have hmodel : ∀ c', (alone.step cd i (.sessionInit sid pub cid r k)).2.conns i = some c' →
          c'.loaded = some n → model.isOk = true := fun c' hcon hload =>
        slot_isOk (hserves' hs').slot ((honAlone c' hcon).lookup hload).2.2
      refine ⟨hs, hserves' hs', hon₁, honAlone, hsame, fun _ c' hcon hload => ?_,
        fun _ c' hcon hload => ?_, fun h => by cases h⟩
      · simpa only [Server.ResetKv, hsl] using
          hreset ⟨_, _, _, _, _, rfl⟩ (hmodel c' hcon hload)
      · simpa only [Server.ResetKv, hsl'] using
          hreset' ⟨_, _, _, _, _, rfl⟩ (hmodel c' hcon hload)
    · rw [after_forward hc hreach]
      refine ⟨hs, hserves' hs', hon₁, honAlone, hsame, (fun h => by cases h), ?_, fun _ => ?_⟩
      · intro hstarted
        simp at hstarted
      · rw [hsl, hsl']
        exact hafter f rfl hreach
    · rw [after_untouched hc htouch]
      have heq := hsl.trans (hquiet htouch)
      have heq' := hsl'.trans (hquiet' htouch)
      have hkeep : ∀ c', (alone.step cd i m).2.conns i = some c' → c' = c :=
        fun c' => conn_kept cd hc' hkind
      refine ⟨hs, hserves' hs', hon₁, honAlone, hsame, fun htenant c' hcon hload => ?_,
        fun hstarted c' hcon hload => ?_, fun hheld => ?_⟩
      · obtain rfl := hkeep c' hcon
        simpa only [Server.ResetKv, heq] using hb.clean htenant c' hc' hload
      · obtain rfl := hkeep c' hcon
        simpa only [Server.ResetKv, heq'] using hb.fresh hstarted c' hc' hload
      · rw [heq, heq']
        exact hb.held hheld

/-- From hubs beside each other, the replies to connection `i` are those of its run alone. -/
private theorem run_beside (hclears : Clears model) (es : List (Nat × Msg)) {t : Tenancy}
    {all alone : Hub F K} (hb : Beside key n model i t all alone) (hkey : SameSlice key es)
    (hes : Undisturbed cd all t es) :
    ofConn i (all.run cd es) = alone.run cd (ofConn i es) := by
  induction es generalizing t all alone with
  | nil => rfl
  | cons e es ih =>
      obtain ⟨j, m⟩ := e
      obtain ⟨howns, hrest⟩ := hes
      have hkey' : ∀ sid pub cid r k, m = .sessionInit sid pub cid r k →
          (cid, r.start, r.stop) = key := by
        rintro sid pub cid r k rfl
        exact hkey j sid pub cid r k List.mem_cons_self
      have hkeyRest : SameSlice key es := fun j sid pub cid r k h =>
        hkey j sid pub cid r k (List.mem_cons_of_mem _ h)
      by_cases hj : j = i
      · subst hj
        obtain ⟨hreply, hb'⟩ := beside_own cd hclears hb hkey' howns
        have htail := ih hb' hkeyRest hrest
        have hmine : ofConn j ((j, m) :: es) = (j, m) :: ofConn j es := by simp [ofConn]
        rw [hmine, Hub.run, Hub.run]
        cases hall : all.step cd j m with
        | mk r all' =>
            cases halone : alone.step cd j m with
            | mk r' alone' =>
                rw [hall, halone] at hreply htail
                obtain rfl : r = r' := hreply
                cases r with
                | none => exact htail
                | some out =>
                    have hcons : ∀ l : List (Nat × (List Msg × Served)),
                        ofConn j ((j, out) :: l) = (j, out) :: ofConn j l := fun l => by
                      simp [ofConn]
                    dsimp only
                    rw [hcons, htail]
      · have hb' := beside_other cd hb hj hkey'
        have htail := ih hb' hkeyRest hrest
        have hother : ofConn i ((j, m) :: es) = ofConn i es := by simp [ofConn, hj]
        rw [hother, ← htail, Hub.run]
        cases hall : all.step cd j m with
        | mk r all' =>
            cases r with
            | none => rfl
            | some out =>
                have hcons : ∀ l : List (Nat × (List Msg × Served)),
                    ofConn i ((j, out) :: l) = ofConn i l := fun l => by simp [ofConn, hj]
                dsimp only
                rw [hcons]

end TwoRuns

/-- Chains on one announced slice are isolated from each other in every run in which each forward
that reaches the slice comes from the owner of its caches. -/
theorem isolated_of_undisturbed [F32 F] (cd : Codec) (s : Server F K) (key : SliceKey)
    (ha : s.host.Announces key)
    (hcached : ∀ n slice, s.cache.lookup key = some n → s.slices[n]? = some slice →
      slice.handle.Clears)
    (hloaded : ∀ slice, s.files.loadKey key = .ok slice → slice.handle.Clears)
    (es : List (Nat × Msg)) (hkey : SameSlice key es)
    (hes : Undisturbed cd (.new s) .new es) (i : Nat) : Isolated cd s es i := by
  obtain ⟨n, model, hslot⟩ := exists_slot key s
  have hclears : Clears model := by
    rintro handle off rfl
    rcases hslot with ⟨hlook, hmodel⟩ | ⟨-, -, hmodel⟩
    · have hslice := Except.ok.inj hmodel
      cases hx : s.slices[n]? with
      | none =>
          rw [hx] at hslice
          cases hslice
      | some slice =>
          rw [hx] at hslice
          obtain ⟨rfl, rfl⟩ := Prod.mk.inj (Option.some.inj hslice)
          exact hcached n slice hlook hx
    · cases hload : s.files.loadKey key with
      | error e =>
          rw [hload] at hmodel
          cases hmodel
      | ok slice =>
          rw [hload] at hmodel
          obtain ⟨rfl, rfl⟩ := Prod.mk.inj (Option.some.inj (Except.ok.inj hmodel))
          exact hloaded slice hload
  exact run_beside hclears es (beside_new ha hslot) hkey hes

/-- A model of one value a position: 1 when the cache holds all earlier positions, else 0. -/
private def countingModel : Pipelined ℚ Nat where
  blockCount := 4
  resetCache _ := 0
  forward _ _ k := (.error "unused", k)
  embed _ k := (.error "unused", k)
  forwardRange x pos _ _ k :=
    (.ok ⟨x.data.map fun _ => if k = pos then 1 else 0, x.shape⟩, k + x.data.length)
  head x k := (.ok x, k)
  headAll x k := (.ok x, k)
  truncateKvTo keep k := (.ok (), min keep k)

private def sharedKey : SliceKey := ("m", 0, 4)

private def oneSlice : Server ℚ Nat where
  host := { Host.new "p" 0 with control := (ControlState.new "p" 0).upsertAnnouncing sharedKey "m" }
  files :=
    { disk := ∅, fileExists := fun _ => false, stitchSubset := fun _ _ _ _ => .error "no file"
      load := fun _ => .error "no file" }
  cache := AList.singleton sharedKey 0
  slices := [⟨countingModel, 0, 0⟩]

private def cborCodec : Codec where
  encode m := .ok (Cbor.msg (fun _ => []) m)
  decode _ := .error "unused"

private def session (i : UInt8) : SessionId := ⟨Vector.replicate 32 i⟩

private def openSession (i : UInt8) : Msg :=
  .sessionInit (session i) (Vector.replicate 32 0) "m" ⟨0, 4⟩ 2048

private def sendZero (i : UInt8) (seq : Nat) : Msg :=
  .forwardHidden
    { sessionId := session i, seq, phase := .decode, dtype := .fp16, shape := ⟨1, 1, 1⟩,
      payload := [0, 0], kvDelta := none, kvTruncateTo := none }

/-- One chain after the other. -/
theorem isolated_of_undisturbed_in_turn :
    Isolated cborCodec oneSlice
      [(0, openSession 0), (0, sendZero 0 1), (1, openSession 1), (1, sendZero 1 1)] 1 := by
  refine isolated_of_undisturbed cborCodec oneSlice sharedKey rfl ?_ ?_ _ ?_ ?_ 1
  · intro n slice hlook hslice
    obtain rfl : 0 = n := Option.some.inj hlook
    obtain rfl := Option.some.inj hslice
    exact fun _ _ => rfl
  · intro slice hload
    cases hload
  · intro i sid pub cid r n hmem
    simp only [openSession, sendZero, List.mem_cons, Prod.mk.injEq, reduceCtorEq, and_false,
      false_or, Msg.sessionInit.injEq, List.not_mem_nil, or_false] at hmem
    obtain ⟨-, -, -, rfl, rfl, -⟩ | ⟨-, -, -, rfl, rfl, -⟩ := hmem <;> rfl
  · decide +kernel

/-- A chain opened between two forwards of another empties its caches: the second forward is
answered differently. -/
theorem session_disturbs_other :
    let es := [(0, openSession 0), (0, sendZero 0 1), (1, openSession 1), (0, sendZero 0 2)]
    oneSlice.host.Announces sharedKey ∧ SameSlice sharedKey es ∧
      ¬ Isolated cborCodec oneSlice es 0 := by
  refine ⟨rfl, ?_, ?_⟩
  · intro i sid pub cid r n hmem
    simp only [openSession, sendZero, List.mem_cons, Prod.mk.injEq, reduceCtorEq, and_false,
      false_or, Msg.sessionInit.injEq, List.not_mem_nil, or_false] at hmem
    obtain ⟨-, -, -, rfl, rfl, -⟩ | ⟨-, -, -, rfl, rfl, -⟩ := hmem <;> rfl
  · unfold Isolated
    decide +kernel

end IntelNav.App
