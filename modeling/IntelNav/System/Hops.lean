import IntelNav.Ggml.Payload
import IntelNav.System.Peers

/-! One step of a chain over peers that run the forward server, as what it does to the caches of the
slices behind the links. -/

set_option autoImplicit false
set_option relaxedAutoImplicit false

namespace IntelNav.System

open IntelNav.App IntelNav.Core IntelNav.Ggml IntelNav.Runtime IntelNav.Stream IntelNav.Wire

variable {Addr F K : Type}

/-- A loaded slice computes the layers of `m`, whichever file it was loaded from. -/
structure Carries (m : Pipelined F K) (layers : LayerRange) (slice : LoadedSlice F K) : Prop where
  resetCache : slice.handle.resetCache = m.resetCache
  truncateKvTo : slice.handle.truncateKvTo = m.truncateKvTo
  forwardRange : ∀ x pos k,
    slice.handle.forwardRange x pos (layers.start.toNat - slice.localOffset)
      (layers.stop.toNat - slice.localOffset) k =
      m.forwardRange x pos layers.start.toNat layers.stop.toNat k

theorem carries_full (m : Pipelined F K) (layers : LayerRange) (kv : K) :
    Carries m layers ⟨m, kv, 0⟩ := ⟨rfl, rfl, fun _ _ _ => rfl⟩

/-- A link of the driver with what stands behind it: which slice of its peer, at which position, and
the caches of that slice. -/
structure Hop (Addr K : Type) where
  link : Link Addr Nat
  idx : Nat
  pos : Nat
  kv : K

def Apart (a b : Hop Addr K) : Prop :=
  a.link.sock ≠ b.link.sock ∧ ¬ (a.link.addr = b.link.addr ∧ a.idx = b.idx)

theorem Apart.symm {a b : Hop Addr K} (h : Apart a b) : Apart b a :=
  ⟨Ne.symm h.1, fun hab => h.2 ⟨hab.1.symm, hab.2.symm⟩⟩

/-- The link is idle on an open session, and its slice is as the hop says. -/
structure Attached (m : Pipelined F K) (w : Peers Addr F K) (h : Hop Addr K) : Prop where
  rx : h.link.rx = []
  socket : ∃ cid g, w.sockets[h.link.sock]? = some ⟨h.link.addr, some
    { sessionId := some h.link.session, indexPos := h.pos, lastSeq := h.link.seq,
      activeSlice := some (cid, h.link.layers.start, h.link.layers.stop), guard := g,
      loaded := some h.idx }, [], []⟩
  slice : ∃ slice, (w.servers h.link.addr).slices[h.idx]? = some slice ∧ slice.kv = h.kv ∧
    Carries m h.link.layers slice

section Feed

variable (m : Pipelined F K) (keep : Option UInt32)

/-- What the layers of a hop make of a hidden state: cut the caches, run, advance. -/
def Hop.feed (h : Hop Addr K) (x : Hidden F) : Option (Hidden F × Hop Addr K) :=
  let run (pos : Nat) (kv : K) :=
    match m.forwardRange x pos h.link.layers.start.toNat h.link.layers.stop.toNat kv with
    | (.ok y, kv) =>
        some (y, { h with
          kv, pos := pos + x.shape.getD 1 0, link := { h.link with seq := h.link.seq + 1 } })
    | (.error _, _) => none
  match keep with
  | none => run h.pos h.kv
  | some n =>
      match m.truncateKvTo n.toNat h.kv with
      | (.ok (), kv) => run n.toNat kv
      | (.error _, _) => none

end Feed

theorem Hop.feed_link {m : Pipelined F K} {keep : Option UInt32} {h h' : Hop Addr K}
    {x y : Hidden F} (hfeed : h.feed m keep x = some (y, h')) :
    h'.link = { h.link with seq := h.link.seq + 1 } ∧ h'.idx = h.idx := by
  cases keep with
  | none =>
      simp only [Hop.feed] at hfeed
      split at hfeed
      · obtain ⟨-, rfl⟩ := Prod.mk.inj (Option.some.inj hfeed)
        exact ⟨rfl, rfl⟩
      · cases hfeed
  | some n =>
      simp only [Hop.feed] at hfeed
      split at hfeed
      · split at hfeed
        · obtain ⟨-, rfl⟩ := Prod.mk.inj (Option.some.inj hfeed)
          exact ⟨rfl, rfl⟩
        · cases hfeed
      · cases hfeed

def carry (session : SessionId) (seq : Nat) (phase : Phase) (keep : Option UInt32)
    (p : HiddenPayload) : Forward :=
  { sessionId := session, seq, phase, dtype := p.dtype, shape := p.shape, payload := p.bytes,
    kvDelta := none, kvTruncateTo := keep }

/-- `x` goes over the wire in one frame and arrives as `x'`. -/
def Sent [F32 F] (cd : Codec) (dtype : Dtype) (session : SessionId) (seq : Nat) (phase : Phase)
    (keep : Option UInt32) (x x' : Hidden F) : Prop :=
  ∃ (b s h : UInt32) (p : HiddenPayload), x.shape = [b.toNat, s.toNat, h.toNat] ∧
    encodeHiddenWith x.data ⟨b, s, h⟩ dtype = .ok p ∧ decodeHidden p = .ok (⟨b, s, h⟩, x'.data) ∧
    x'.shape = x.shape ∧ cd.Fits (.forwardHidden (carry session seq phase keep p))

private theorem attached_answered [DecidableEq Addr] {m : Pipelined F K} {w : Peers Addr F K}
    {h g : Hop Addr K} (hapart : Apart h g) (hg : Attached m w g) (kv : K) (c : Connection) :
    Attached m
    (w.answered h.link.sock h.link.addr ((w.servers h.link.addr).setKv h.idx kv) c) g where
  rx := hg.rx
  socket := by
    obtain ⟨cid, guard, hsock⟩ := hg.socket
    exact ⟨cid, guard, by simpa [Peers.answered, List.getElem?_set_ne hapart.1] using hsock⟩
  slice := by
    obtain ⟨slice, hslice, hrest⟩ := hg.slice
    refine ⟨slice, ?_, hrest⟩
    by_cases haddr : h.link.addr = g.link.addr
    · have hidx : h.idx ≠ g.idx := fun hidx => hapart.2 ⟨haddr, hidx⟩
      simp only [Peers.answered, haddr, Function.update_self]
      rw [Server.getElem?_setKv, if_neg hidx]
      exact hslice
    · simpa [Peers.answered, Function.update_of_ne (Ne.symm haddr)] using hslice

section HopSpec

variable [F32 F] {cd : Codec} {cut : Nat → List UInt8 → List (List UInt8)} {m : Pipelined F K}

private theorem new_of_decoded {p : HiddenPayload} {b s h : UInt32} {data : List F}
    (hdec : decodeHidden p = .ok (⟨b, s, h⟩, data)) :
    Hidden.new data [b.toNat, s.toNat, h.toNat] = .ok ⟨data, [b.toNat, s.toNat, h.toNat]⟩ := by
  obtain ⟨hshape, hlen⟩ := length_decodeHidden hdec
  rw [← hshape] at hlen
  dsimp only at hlen
  simp [Hidden.new, hlen, Nat.mul_assoc]

private theorem forwardSlice_feed {h : Hop Addr K} {slice : LoadedSlice F K}
    (hcarries : Carries m h.link.layers slice) (hkv : slice.kv = h.kv) (keep : Option UInt32)
    (session : SessionId) (seq : Nat) (phase : Phase) {x' : Hidden F} {p : HiddenPayload}
    {b s n : UInt32} (hdec : decodeHidden p = .ok (⟨b, s, n⟩, x'.data))
    (hshape : x'.shape = [b.toNat, s.toNat, n.toNat]) :
    match h.feed m keep x' with
    | some (y, h') =>
        forwardSlice slice h.pos h.link.layers.start.toNat h.link.layers.stop.toNat
          (carry session seq phase keep p) = (.ok y, h'.kv, h'.pos)
    | none => ∃ e kv pos, forwardSlice slice h.pos h.link.layers.start.toNat
        h.link.layers.stop.toNat (carry session seq phase keep p) = (.error e, kv, pos) := by
  obtain ⟨data, shape⟩ := x'
  obtain rfl : shape = [b.toNat, s.toNat, n.toNat] := hshape
  have hdec' : decodeHidden ⟨p.dtype, p.shape, p.bytes⟩ = .ok (⟨b, s, n⟩, data) := hdec
  cases keep with
  | none =>
      simp only [forwardSlice, carry, hdec', new_of_decoded hdec, hcarries.forwardRange, Hop.feed,
        hkv]
      rcases m.forwardRange ⟨data, [b.toNat, s.toNat, n.toNat]⟩ h.pos h.link.layers.start.toNat
        h.link.layers.stop.toNat h.kv with ⟨e | y, kv⟩
      · exact ⟨_, _, _, rfl⟩
      · rfl
  | some k =>
      simp only [forwardSlice, carry, hdec', new_of_decoded hdec, hcarries.forwardRange, Hop.feed,
        hkv, hcarries.truncateKvTo]
      rcases m.truncateKvTo k.toNat h.kv with ⟨e | u, kv⟩
      · exact ⟨_, _, _, rfl⟩
      · simp only [Except.isOk, Except.toBool, if_true]
        rcases m.forwardRange ⟨data, [b.toNat, s.toNat, n.toNat]⟩ k.toNat
          h.link.layers.start.toNat h.link.layers.stop.toNat kv with ⟨e | y, kv⟩
        · exact ⟨_, _, _, rfl⟩
        · rfl

private theorem acceptReply_carry {p : HiddenPayload} {y' : Hidden F} {b s n : UInt32}
    (hdtype : p.dtype ≠ .bf16) (hdec : decodeHidden p = .ok (⟨b, s, n⟩, y'.data))
    (hshape : y'.shape = [b.toNat, s.toNat, n.toNat]) (index : Nat) (addr : Addr)
    (session : SessionId) (seq : Nat) (phase : Phase) (keep : Option UInt32) :
    acceptReply index addr session b.toNat s.toNat
      (some (.forwardHidden (carry session seq phase keep p))) = .ok y' := by
  have hdec' : decodeHidden ⟨p.dtype, p.shape, p.bytes⟩ = .ok (⟨b, s, n⟩, y'.data) := hdec
  simp only [acceptReply, carry, hdec', new_of_decoded hdec, ne_eq, not_true_eq_false, if_false,
    hdtype, or_self]
  rw [← hshape]

private theorem dtype_of_encoded {xs : List F} {shape : Shape3} {dtype : Dtype} {p : HiddenPayload}
    (henc : encodeHiddenWith xs shape dtype = .ok p) : p.dtype = dtype ∧ p.dtype ≠ .bf16 := by
  obtain ⟨-, -, ⟨rfl, rfl⟩ | ⟨rfl, rfl⟩⟩ := encodeHiddenWith_eq_ok.mp henc
  · exact ⟨rfl, by simp⟩
  · exact ⟨rfl, by simp⟩

variable (cd) in
private theorem hop_eq {Conn W : Type} (net : Net Addr Conn W) {x : Hidden F} {b s n : UInt32}
    {dtype : Dtype} {p : HiddenPayload} (hshape : x.shape = [b.toNat, s.toNat, n.toNat])
    (henc : encodeHiddenWith x.data ⟨b, s, n⟩ dtype = .ok p) (link : Link Addr Conn)
    (phase : Phase) (keep : Option UInt32) (index : Nat) (w : W) :
    link.hop net cd dtype phase keep index x w =
      match ({ link with seq := link.seq + 1 } : Link Addr Conn).writeWithTimeout net cd
        (.forwardHidden (carry link.session (link.seq + 1) phase keep p)) index w with
      | (.error e, w) => (.error e, { link with seq := link.seq + 1 }, w)
      | (.ok (), w) =>
          match ({ link with seq := link.seq + 1 } : Link Addr Conn).readWithTimeout net cd index w
            with
          | (.error e, link, w) => (.error e, link, w)
          | (.ok reply, link, w) =>
              (acceptReply index link.addr link.session b.toNat s.toNat reply, link, w) := by
  simp only [Link.hop, hshape, UInt32.ofNat_toNat, henc]
  rfl

private theorem fits_of_encodeFrame {msg : Msg} {dst out : List UInt8}
    (h : encodeFrame cd dst msg = (.ok (), out)) : cd.Fits msg := by
  rw [encodeFrame, encode] at h
  cases henc : cd.encode msg with
  | error e => simp [henc] at h
  | ok b =>
      rw [henc] at h
      dsimp only at h
      split_ifs at h with hlen
      · cases (Prod.mk.inj h).1
      · exact ⟨b, henc, Nat.le_of_not_gt hlen⟩

private theorem fits_of_writeWithTimeout {Conn W : Type} {net : Net Addr Conn W}
    {link : Link Addr Conn} {msg : Msg} {index : Nat} {w w' : W}
    (h : link.writeWithTimeout net cd msg index w = (.ok (), w')) : cd.Fits msg := by
  rw [Link.writeWithTimeout] at h
  cases hframe : encodeFrame cd [] msg with
  | mk r out =>
  cases r with
  | error e =>
      rw [hframe] at h
      cases (Prod.mk.inj h).1
  | ok u => exact fits_of_encodeFrame hframe

/-- A forward whose layers ran is answered with what `forward_reply` makes of their output. -/
private theorem forwardOn_ran (cd : Codec) (slice : LoadedSlice F K) (c : Connection)
    (key : SliceKey) (f : Forward) {out : Hidden F} {kv : K} {pos : Nat}
    (h : forwardSlice slice c.indexPos key.2.1.toNat key.2.2.toNat f = (.ok out, kv, pos)) :
    forwardOn cd slice c key f =
      match forwardReply f out with
      | .error e => (([], .failed e), kv, pos)
      | .ok reply => (writeFrame cd (.forwardHidden reply) .next, kv, pos) := by
  unfold forwardOn
  generalize forwardSlice slice c.indexPos key.2.1.toNat key.2.2.toNat f = r at h
  subst h
  rfl

private theorem forwardOn_failed (cd : Codec) (slice : LoadedSlice F K) (c : Connection)
    (key : SliceKey) (f : Forward) {e : ServeError} {kv : K} {pos : Nat}
    (h : forwardSlice slice c.indexPos key.2.1.toNat key.2.2.toNat f = (.error e, kv, pos)) :
    forwardOn cd slice c key f = (([], .failed e), kv, pos) := by
  unfold forwardOn
  generalize forwardSlice slice c.indexPos key.2.1.toNat key.2.2.toNat f = r at h
  subst h
  rfl

/-- A payload that cannot be decoded fails after the caches are cut. -/
private theorem forwardSlice_undecoded (slice : LoadedSlice F K) (start stop pos : Nat)
    (session : SessionId) (seq : Nat) (phase : Phase) (keep : Option UInt32) {p : HiddenPayload}
    {e : HiddenError} (hdec : decodeHidden (F := F) p = .error e) :
    ∃ e kv pos', forwardSlice slice pos start stop (carry session seq phase keep p) =
      (.error e, kv, pos') := by
  have hdec' : decodeHidden (F := F) ⟨p.dtype, p.shape, p.bytes⟩ = .error e := hdec
  cases keep with
  | none =>
      simp only [forwardSlice, carry, hdec']
      exact ⟨_, _, _, rfl⟩
  | some k =>
      cases hcut : slice.handle.truncateKvTo k.toNat slice.kv with
      | mk r kv =>
      simp only [forwardSlice, carry, hcut, hdec']
      cases r with
      | error msg => exact ⟨_, _, _, rfl⟩
      | ok u => exact ⟨_, _, _, rfl⟩

private theorem forwardReply_carry {y : Hidden F} {b s n : UInt32} {p : HiddenPayload}
    {dtype : Dtype} (hdtype : p.dtype = dtype) (hshape : y.shape = [b.toNat, s.toNat, n.toNat])
    (session : SessionId) (seq : Nat) (phase : Phase) (keep : Option UInt32) :
    forwardReply (carry session seq phase keep p) y =
      match encodeHiddenWith y.data ⟨b, s, n⟩ dtype with
      | .error e => .error (.hidden e)
      | .ok q => .ok (carry session seq .decode none q) := by
  cases hencode : encodeHiddenWith y.data ⟨b, s, n⟩ dtype with
  | error e => simp only [forwardReply, carry, hshape, UInt32.ofNat_toNat, hdtype, hencode]
  | ok q => simp only [forwardReply, carry, hshape, UInt32.ofNat_toNat, hdtype, hencode]

def Hop.connection (h : Hop Addr K) (cid : String) (guard : Option ChainGuard) : Connection :=
  { sessionId := some h.link.session, indexPos := h.pos, lastSeq := h.link.seq
    activeSlice := some (cid, h.link.layers.start, h.link.layers.stop), guard
    loaded := some h.idx }

def Hop.key (h : Hop Addr K) (cid : String) : SliceKey :=
  (cid, h.link.layers.start, h.link.layers.stop)

section Exchange

variable [DecidableEq Addr] {w : Peers Addr F K} {h : Hop Addr K} {cid : String}
  {guard : Option ChainGuard} {slice : LoadedSlice F K} {dtype : Dtype} {phase : Phase}
  {keep : Option UInt32} {x : Hidden F} {b s n : UInt32} {p : HiddenPayload} {kv : K} {pos : Nat}

variable (cd) in
omit [DecidableEq Addr] in
private theorem handleMessage_carry (cid : String) (guard : Option ChainGuard) (phase : Phase)
    (keep : Option UInt32) (p : HiddenPayload)
    (hslice : (w.servers h.link.addr).slices[h.idx]? = some slice) :
    handleMessage cd (w.servers h.link.addr) (h.connection cid guard)
        (.forwardHidden (carry h.link.session (h.link.seq + 1) phase keep p)) =
      let (out, kv, pos) := forwardOn cd slice (h.connection cid guard) (h.key cid)
        (carry h.link.session (h.link.seq + 1) phase keep p)
      (out, (w.servers h.link.addr).setKv h.idx kv,
        { h.connection cid guard with lastSeq := h.link.seq + 1, indexPos := pos }) := by
  have hreach : (h.connection cid guard).reaches
      (carry h.link.session (h.link.seq + 1) phase keep p) = true := by
    refine Connection.reaches_iff.mpr ⟨rfl, ?_, rfl⟩
    rintro ⟨hle, -⟩
    exact absurd hle (Nat.not_succ_le_self _)
  exact handleMessage_forward cd hreach rfl rfl hslice guard

/-- A peer that fails on the request hangs up, and the driver reads the end of the stream. -/
private theorem hop_failed (hcd : cd.RoundTrips) (hcut : Cuts cut) (hrx : h.link.rx = [])
    (hsock : w.sockets[h.link.sock]? = some ⟨h.link.addr, some (h.connection cid guard), [], []⟩)
    (hslice : (w.servers h.link.addr).slices[h.idx]? = some slice)
    (hshape : x.shape = [b.toNat, s.toNat, n.toNat])
    (henc : encodeHiddenWith x.data ⟨b, s, n⟩ dtype = .ok p)
    (hfits : cd.Fits (.forwardHidden (carry h.link.session (h.link.seq + 1) phase keep p)))
    {e : ServeError} (hon : forwardOn cd slice (h.connection cid guard) (h.key cid)
      (carry h.link.session (h.link.seq + 1) phase keep p) = (([], .failed e), kv, pos))
    (index : Nat) :
    ∃ e link w', h.link.hop (peersNet cd cut) cd dtype phase keep index x w =
    (.error e, link, w') := by
  have hhandle := handleMessage_carry cd cid guard phase keep p hslice
  rw [hon] at hhandle
  let link : Link Addr Nat := { h.link with seq := h.link.seq + 1 }
  obtain ⟨w₁, w₂, link', hwrite, hread⟩ :=
    exchange_failed hcd hcut link hrx hsock hfits hhandle index
  have hhop := hop_eq cd (peersNet cd cut) hshape henc h.link phase keep index w
  rw [hwrite] at hhop
  dsimp only at hhop
  rw [hread] at hhop
  exact ⟨_, _, _, hhop⟩

private theorem hop_answered (hcd : cd.RoundTrips) (hcut : Cuts cut) (hrx : h.link.rx = [])
    (hsock : w.sockets[h.link.sock]? = some ⟨h.link.addr, some (h.connection cid guard), [], []⟩)
    (hslice : (w.servers h.link.addr).slices[h.idx]? = some slice)
    (hshape : x.shape = [b.toNat, s.toNat, n.toNat])
    (henc : encodeHiddenWith x.data ⟨b, s, n⟩ dtype = .ok p)
    (hfits : cd.Fits (.forwardHidden (carry h.link.session (h.link.seq + 1) phase keep p)))
    {reply : Forward} (hreply : cd.Fits (.forwardHidden reply))
    (hon : forwardOn cd slice (h.connection cid guard) (h.key cid)
      (carry h.link.session (h.link.seq + 1) phase keep p) =
        (([.forwardHidden reply], .next), kv, pos)) (index : Nat) :
    h.link.hop (peersNet cd cut) cd dtype phase keep index x w =
      (acceptReply index h.link.addr h.link.session b.toNat s.toNat (some (.forwardHidden reply)),
        { h.link with seq := h.link.seq + 1 },
        w.answered h.link.sock h.link.addr ((w.servers h.link.addr).setKv h.idx kv)
          { h.connection cid guard with lastSeq := h.link.seq + 1, indexPos := pos }) := by
  have hhandle := handleMessage_carry cd cid guard phase keep p hslice
  rw [hon] at hhandle
  let link : Link Addr Nat := { h.link with seq := h.link.seq + 1 }
  obtain ⟨w₁, hwrite, hread⟩ := exchange hcd hcut link hrx hsock hfits hreply hhandle index
  have hhop := hop_eq cd (peersNet cd cut) hshape henc h.link phase keep index w
  rw [hwrite] at hhop
  dsimp only at hhop
  rw [hread] at hhop
  exact hhop

end Exchange

variable [DecidableEq Addr]

/-- One hop of a step: the driver gets what the layers of the hop make of its hidden state, as both
come out of the wire, and everything apart from the hop stays. -/
theorem hop_spec (hcd : cd.RoundTrips) (hcut : Cuts cut) {w : Peers Addr F K} {h : Hop Addr K}
    (hatt : Attached m w h) {dtype : Dtype} {phase : Phase} {keep : Option UInt32}
    {x x' : Hidden F} (hsent : Sent cd dtype h.link.session (h.link.seq + 1) phase keep x x')
    (index : Nat) :
    (h.feed m keep x' = none → ∃ e link w',
      h.link.hop (peersNet cd cut) cd dtype phase keep index x w = (.error e, link, w')) ∧
    ∀ y h' y', h.feed m keep x' = some (y, h') →
      Sent cd dtype h.link.session (h.link.seq + 1) .decode none y y' →
      y.shape.take 2 = x.shape.take 2 →
      ∃ w', h.link.hop (peersNet cd cut) cd dtype phase keep index x w = (.ok y', h'.link, w') ∧
        Attached m w' h' ∧ ∀ g, Apart h g → Attached m w g → Attached m w' g := by
  obtain ⟨b, s, n, p, hshape, henc, hdec, hshape', hfits⟩ := hsent
  obtain ⟨hdtype, hne⟩ := dtype_of_encoded henc
  obtain ⟨cid, guard, hsock⟩ := hatt.socket
  obtain ⟨slice, hslice, hkv, hcarries⟩ := hatt.slice
  have hfeed := forwardSlice_feed hcarries hkv keep h.link.session (h.link.seq + 1) phase hdec
    (hshape'.trans hshape)
  constructor
  · intro hnone
    rw [hnone] at hfeed
    obtain ⟨e, kv, pos, hfwd⟩ := hfeed
    have hon := forwardOn_failed cd slice (h.connection cid guard) (h.key cid) _ hfwd
    exact hop_failed hcd hcut hatt.rx hsock hslice hshape henc hfits hon index
  · intro y h' y' hsome hsent' htake
    rw [hsome] at hfeed
    obtain ⟨b', s', n', q, hyshape, hyenc, hydec, hyshape', hyfits⟩ := hsent'
    obtain ⟨hydtype, hyne⟩ := dtype_of_encoded hyenc
    have hbs : b' = b ∧ s' = s := by
      rw [hyshape, hshape] at htake
      simpa [UInt32.toNat_inj] using htake
    obtain ⟨rfl, rfl⟩ := hbs
    have hon := forwardOn_ran cd slice (h.connection cid guard) (h.key cid) _ hfeed
    rw [forwardReply_carry hdtype hyshape, hyenc] at hon
    dsimp only at hon
    rw [writeFrame, encodeFrame_append hyfits] at hon
    have hhop := hop_answered hcd hcut hatt.rx hsock hslice hshape henc hfits hyfits hon index
    rw [acceptReply_carry hyne hydec (hyshape'.trans hyshape)] at hhop
    obtain ⟨hlink, hidx⟩ := Hop.feed_link hsome
    refine ⟨_, by rw [hhop, hlink], ⟨by rw [hlink]; exact hatt.rx, ?_, ?_⟩, ?_⟩
    · have hlt : h.link.sock < w.sockets.length := (List.getElem?_eq_some_iff.mp hsock).1
      refine ⟨cid, guard, ?_⟩
      rw [hlink, hidx]
      exact List.getElem?_set_self hlt
    · refine ⟨{ slice with kv := h'.kv }, ?_, rfl, ?_⟩
      · rw [hlink, hidx]
        change (Function.update w.servers h.link.addr _ h.link.addr).slices[h.idx]? = _
        rw [Function.update_self, Server.getElem?_setKv_self, hslice]
        rfl
      · rw [hlink]
        exact ⟨hcarries.resetCache, hcarries.truncateKvTo, hcarries.forwardRange⟩
    · exact fun g hapart hg => attached_answered hapart hg _ _

/-- A reply that the driver accepts was encoded, fitted a frame and is decoded. -/
private theorem sent_of_reply {w : Peers Addr F K} {h : Hop Addr K} {cid : String}
    {guard : Option ChainGuard} {slice : LoadedSlice F K} {dtype : Dtype} {phase : Phase}
    {keep : Option UInt32} {p : HiddenPayload} {kv : K} {pos : Nat} {x y y' : Hidden F}
    {b s n b' s' n' : UInt32} {index : Nat} {link' : Link Addr Nat} {w' : Peers Addr F K}
    (hcd : cd.RoundTrips) (hcut : Cuts cut) (hrx : h.link.rx = [])
    (hsock : w.sockets[h.link.sock]? = some ⟨h.link.addr, some (h.connection cid guard), [], []⟩)
    (hslice : (w.servers h.link.addr).slices[h.idx]? = some slice)
    (hshape : x.shape = [b.toNat, s.toNat, n.toNat])
    (henc : encodeHiddenWith x.data ⟨b, s, n⟩ dtype = .ok p)
    (hfits : cd.Fits (.forwardHidden (carry h.link.session (h.link.seq + 1) phase keep p)))
    (hyshape : y.shape = [b'.toNat, s'.toNat, n'.toNat])
    (hran : forwardSlice slice h.pos h.link.layers.start.toNat h.link.layers.stop.toNat
      (carry h.link.session (h.link.seq + 1) phase keep p) = (.ok y, kv, pos))
    (hfailed : ∀ e kv pos, forwardOn cd slice (h.connection cid guard) (h.key cid)
      (carry h.link.session (h.link.seq + 1) phase keep p) ≠ (([], .failed e), kv, pos))
    (hhop : h.link.hop (peersNet cd cut) cd dtype phase keep index x w = (.ok y', link', w')) :
    ∃ y', Sent cd dtype h.link.session (h.link.seq + 1) .decode none y y' := by
  have hon := forwardOn_ran cd slice (h.connection cid guard) (h.key cid) _ hran
  rw [forwardReply_carry (dtype_of_encoded henc).1 hyshape] at hon
  cases hyenc : encodeHiddenWith y.data ⟨b', s', n'⟩ dtype with
  | error e =>
      rw [hyenc] at hon
      exact absurd hon (hfailed (.hidden e) kv pos)
  | ok q =>
  rw [hyenc] at hon
  dsimp only at hon
  cases hframe : encodeFrame cd [] (.forwardHidden
      (carry h.link.session (h.link.seq + 1) .decode none q)) with
  | mk r out =>
  rw [writeFrame, hframe] at hon
  cases r with
  | error e => exact absurd hon (hfailed (.write e) kv pos)
  | ok u =>
  have hyfits := fits_of_encodeFrame hframe
  rw [hop_answered hcd hcut hrx hsock hslice hshape henc hfits hyfits hon index] at hhop
  have haccept := (Prod.mk.inj hhop).1
  cases hydec : decodeHidden (F := F) q with
  | error e =>
      have hydec' : decodeHidden (F := F) ⟨q.dtype, q.shape, q.bytes⟩ = .error e := hydec
      simp only [acceptReply, carry, hydec'] at haccept
      split_ifs at haccept
  | ok out' =>
  obtain ⟨shape', data'⟩ := out'
  obtain rfl : shape' = ⟨b', s', n'⟩ :=
    (length_decodeHidden hydec).1.trans (length_encodeHiddenWith hyenc).2.1
  exact ⟨⟨data', y.shape⟩, b', s', n', q, hyshape, hyenc, hydec, rfl, hyfits⟩

/-- A hop that gets through: its state reached the peer, the layers ran, and what they gave reached
the driver. -/
theorem hop_ok (hcd : cd.RoundTrips) (hcut : Cuts cut) {w : Peers Addr F K} {h : Hop Addr K}
    (hatt : Attached m w h) {dtype : Dtype} {phase : Phase} {keep : Option UInt32} {x y' : Hidden F}
    {b s n : UInt32} (hshape : x.shape = [b.toNat, s.toNat, n.toNat]) {index : Nat}
    {link' : Link Addr Nat} {w' : Peers Addr F K}
    (hhop : h.link.hop (peersNet cd cut) cd dtype phase keep index x w = (.ok y', link', w')) :
    ∃ x', Sent cd dtype h.link.session (h.link.seq + 1) phase keep x x' ∧
      ∃ y h', h.feed m keep x' = some (y, h') ∧
        ∀ b s n : UInt32, y.shape = [b.toNat, s.toNat, n.toNat] →
          ∃ y', Sent cd dtype h.link.session (h.link.seq + 1) .decode none y y' := by
  obtain ⟨cid, guard, hsock⟩ := hatt.socket
  obtain ⟨slice, hslice, hkv, hcarries⟩ := hatt.slice
  cases henc : encodeHiddenWith x.data ⟨b, s, n⟩ dtype with
  | error e =>
      simp only [Link.hop, hshape, UInt32.ofNat_toNat, henc] at hhop
      cases hhop
  | ok p =>
  have hfits : cd.Fits
      (.forwardHidden (carry h.link.session (h.link.seq + 1) phase keep p)) := by
    have hhop' := hhop
    rw [hop_eq cd (peersNet cd cut) hshape henc] at hhop'
    split at hhop'
    · cases hhop'
    · rename_i hwrite
      exact fits_of_writeWithTimeout hwrite
  have hfailed : ∀ e kv pos, forwardOn cd slice (h.connection cid guard) (h.key cid)
      (carry h.link.session (h.link.seq + 1) phase keep p) ≠ (([], .failed e), kv, pos) := by
    intro e kv pos hon
    obtain ⟨e', link, w₁, herror⟩ :=
      hop_failed hcd hcut hatt.rx hsock hslice hshape henc hfits hon index
    rw [herror] at hhop
    cases (Prod.mk.inj hhop).1
  have hran : ∀ e kv pos, forwardSlice slice h.pos h.link.layers.start.toNat
      h.link.layers.stop.toNat (carry h.link.session (h.link.seq + 1) phase keep p) ≠
        (.error e, kv, pos) := by
    intro e kv pos hfwd
    exact hfailed e kv pos (forwardOn_failed cd slice (h.connection cid guard) (h.key cid) _ hfwd)
  cases hdec : decodeHidden (F := F) p with
  | error e =>
      obtain ⟨e, kv, pos, hfwd⟩ := forwardSlice_undecoded slice h.link.layers.start.toNat
        h.link.layers.stop.toNat h.pos h.link.session (h.link.seq + 1) phase keep hdec
      exact absurd hfwd (hran e kv pos)
  | ok out =>
  obtain ⟨shape, data⟩ := out
  obtain rfl : shape = ⟨b, s, n⟩ :=
    (length_decodeHidden hdec).1.trans (length_encodeHiddenWith henc).2.1
  let x' : Hidden F := ⟨data, x.shape⟩
  have hdec' : decodeHidden p = .ok (⟨b, s, n⟩, x'.data) := hdec
  have hfeed := forwardSlice_feed hcarries hkv keep h.link.session (h.link.seq + 1) phase hdec'
    hshape
  refine ⟨x', ⟨b, s, n, p, hshape, henc, hdec, rfl, hfits⟩, ?_⟩
  cases hsome : h.feed m keep x' with
  | none =>
      rw [hsome] at hfeed
      obtain ⟨e, kv, pos, hfwd⟩ := hfeed
      exact absurd hfwd (hran e kv pos)
  | some yh =>
  obtain ⟨y, h'⟩ := yh
  rw [hsome] at hfeed
  refine ⟨y, h', rfl, fun b' s' n' hyshape => ?_⟩
  exact sent_of_reply hcd hcut hatt.rx hsock hslice hshape henc hfits hyshape hfeed hfailed hhop

/-- The layers of all hops in order: what the last one gives, and the hops after it, when every
state goes over the wire as `wire` says. -/
def feedAll (m : Pipelined F K) (keep : Option UInt32) (wire : Hidden F → Hidden F) :
    List (Hop Addr K) → Hidden F → Option (Hidden F × List (Hop Addr K))
  | [], x => some (x, [])
  | h :: hs, x =>
      match h.feed m keep (wire x) with
      | none => none
      | some (y, h') => (feedAll m keep wire hs (wire y)).map fun (z, hs') => (z, h' :: hs')

omit [F32 F] [DecidableEq Addr] in
theorem feedAll_links {keep : Option UInt32} {wire : Hidden F → Hidden F}
    {hs hs' : List (Hop Addr K)} {x y : Hidden F} (h : feedAll m keep wire hs x = some (y, hs')) :
    hs'.map (fun h => (h.link, h.idx)) =
      hs.map fun h => ({ h.link with seq := h.link.seq + 1 }, h.idx) := by
  induction hs generalizing hs' x with
  | nil =>
      obtain ⟨-, rfl⟩ := Prod.mk.inj (Option.some.inj h)
      rfl
  | cons a as ih =>
      rw [feedAll] at h
      split at h
      · cases h
      rename_i z a' hfeed
      obtain ⟨⟨z', as'⟩, hrest, heq⟩ := Option.map_eq_some_iff.mp h
      obtain ⟨rfl, rfl⟩ := Prod.mk.inj heq
      obtain ⟨hlink, hidx⟩ := Hop.feed_link hfeed
      rw [List.map_cons, List.map_cons, ih hrest, hlink, hidx]

omit [F32 F] [DecidableEq Addr] in
theorem apart_of_feedAll {keep : Option UInt32} {wire : Hidden F → Hidden F}
    {hs hs' : List (Hop Addr K)} {x y : Hidden F} (hpair : hs.Pairwise Apart)
    (h : feedAll m keep wire hs x = some (y, hs')) : hs'.Pairwise Apart := by
  have hlinks := congrArg (List.map fun l : Link Addr Nat × Nat => (l.1.sock, l.1.addr, l.2))
    (feedAll_links h)
  simp only [List.map_map, Function.comp_def] at hlinks
  have hpair' := fun hs : List (Hop Addr K) => List.pairwise_map
    (f := fun h : Hop Addr K => (h.link.sock, h.link.addr, h.idx))
    (R := fun a b => a.1 ≠ b.1 ∧ ¬ (a.2.1 = b.2.1 ∧ a.2.2 = b.2.2)) (l := hs)
  exact (hpair' hs').mp (hlinks ▸ (hpair' hs).mpr hpair)

/-- Every state the hops exchange fits in its frame and arrives as `wire` says. -/
def AllSent (cd : Codec) (dtype : Dtype) (m : Pipelined F K) (phase : Phase) (keep : Option UInt32)
    (wire : Hidden F → Hidden F) : List (Hop Addr K) → Hidden F → Prop
  | [], _ => True
  | h :: hs, x =>
      Sent cd dtype h.link.session (h.link.seq + 1) phase keep x (wire x) ∧
        ∀ y h', h.feed m keep (wire x) = some (y, h') →
          Sent cd dtype h.link.session (h.link.seq + 1) .decode none y (wire y) ∧
            y.shape.take 2 = x.shape.take 2 ∧ AllSent cd dtype m phase keep wire hs (wire y)

/-- A step of the chain is the layers of its hops in order. -/
theorem hops_spec (hcd : cd.RoundTrips) (hcut : Cuts cut) {dtype : Dtype} {phase : Phase}
    {keep : Option UInt32} {wire : Hidden F → Hidden F} (hs : List (Hop Addr K))
    {w : Peers Addr F K} {x : Hidden F} (hatt : ∀ h ∈ hs, Attached m w h)
    (hapart : hs.Pairwise Apart)
    (hsent : AllSent cd dtype m phase keep wire hs x) (index : Nat) :
    (feedAll m keep wire hs x = none → ∃ e links w',
      hops (peersNet cd cut) cd dtype phase keep index (hs.map Hop.link) x w =
        (.error e, links, w')) ∧
    ∀ y hs', feedAll m keep wire hs x = some (y, hs') →
      ∃ w', hops (peersNet cd cut) cd dtype phase keep index (hs.map Hop.link) x w =
          (.ok y, hs'.map Hop.link, w') ∧ (∀ h ∈ hs', Attached m w' h) ∧
        ∀ g, (∀ h ∈ hs, Apart h g) → Attached m w g → Attached m w' g := by
  induction hs generalizing w x index with
  | nil =>
      refine ⟨(fun h => by cases h), fun y hs' h => ?_⟩
      obtain ⟨rfl, rfl⟩ := Prod.mk.inj (Option.some.inj h)
      exact ⟨w, rfl, fun h hh => by simp at hh, fun g _ hg => hg⟩
  | cons h hs ih =>
      obtain ⟨hfirst, hrest⟩ := hsent
      obtain ⟨hhead, hpair⟩ := List.pairwise_cons.mp hapart
      obtain ⟨hfail, hok⟩ := hop_spec hcd hcut (hatt h List.mem_cons_self) hfirst index
      cases hfeed : h.feed m keep (wire x) with
      | none =>
          obtain ⟨e, link, w', heq⟩ := hfail hfeed
          refine ⟨fun _ => ⟨e, link :: hs.map Hop.link, w', ?_⟩, fun y hs' hall => ?_⟩
          · simp only [List.map_cons, hops, heq]
          · simp only [feedAll, hfeed] at hall
            cases hall
      | some yh =>
          obtain ⟨y, h'⟩ := yh
          obtain ⟨hsent', htake, hlater⟩ := hrest y h' hfeed
          obtain ⟨w₁, heq, hatt', hframe⟩ := hok y h' (wire y) hfeed hsent' htake
          obtain ⟨hlink, hidx⟩ := Hop.feed_link hfeed
          have hattRest : ∀ g ∈ hs, Attached m w₁ g := fun g hg =>
            hframe g (hhead g hg) (hatt g (List.mem_cons_of_mem h hg))
          obtain ⟨hnone, hsome⟩ := ih hattRest hpair hlater (index + 1)
          cases hall : feedAll m keep wire hs (wire y) with
          | none =>
              obtain ⟨e, links, w', heq'⟩ := hnone hall
              refine ⟨fun _ => ⟨e, h'.link :: links, w', ?_⟩, fun z hs' hz => ?_⟩
              · simp only [List.map_cons, hops, heq, heq']
              · simp only [feedAll, hfeed, hall] at hz
                cases hz
          | some zs =>
              obtain ⟨z, hs₁⟩ := zs
              obtain ⟨w', heq', hatt₁, hframe'⟩ := hsome z hs₁ hall
              have happart' : ∀ g, Apart h g → Apart h' g := fun g hg => by
                rw [Apart, hlink, hidx]
                exact hg
              refine ⟨fun hn => ?_, fun z' hs' hz => ?_⟩
              · simp only [feedAll, hfeed, hall] at hn
                cases hn
              simp only [feedAll, hfeed, hall, Option.map_some, Option.some.injEq,
                Prod.mk.injEq] at hz
              obtain ⟨rfl, rfl⟩ := hz
              refine ⟨w', by simp only [List.map_cons, hops, heq, heq'], ?_, ?_⟩
              · intro g hg
                rcases List.mem_cons.mp hg with rfl | hg
                · exact hframe' _ (fun a ha => (happart' a (hhead a ha)).symm) hatt'
                · exact hatt₁ g hg
              · intro g hg hattg
                exact hframe' g (fun a ha => hg a (List.mem_cons_of_mem h ha))
                  (hframe g (hg h List.mem_cons_self) hattg)

end HopSpec

end IntelNav.System
