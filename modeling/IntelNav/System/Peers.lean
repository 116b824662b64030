import IntelNav.App.Serving
import IntelNav.Runtime.Chain

/-! The driver's sockets when every peer runs the forward server and the network delivers all bytes,
in pieces of any size. -/

set_option autoImplicit false
set_option relaxedAutoImplicit false

namespace IntelNav.System

open IntelNav.App IntelNav.Core IntelNav.Ggml IntelNav.Runtime IntelNav.Stream IntelNav.Wire

variable {Addr F K : Type}

/-- One connection: the peer's handler until it returns, the bytes it has not decoded, and the
pieces on their way to the driver. -/
structure Socket (Addr : Type) where
  addr : Addr
  handler : Option Connection
  inbox : List UInt8
  outbox : List (List UInt8)

/-- The peers, the sockets dialled so far, and the session identifiers to be drawn. -/
structure Peers (Addr F K : Type) where
  servers : Addr → Server F K
  sockets : List (Socket Addr)
  ids : Nat → SessionId
  drawn : Nat
  writes : Nat

/-- A way of cutting what is sent into pieces, which may change from one write to the next. -/
def Cuts (cut : Nat → List UInt8 → List (List UInt8)) : Prop :=
  ∀ n bs, (cut n bs).flatten = bs ∧ ∀ c ∈ cut n bs, c ≠ []

theorem cuts_bytes : Cuts fun _ bs => bs.map fun b => [b] := fun _ bs =>
  ⟨by rw [← List.flatMap_def, List.flatMap_singleton'], fun c hc => by
    obtain ⟨b, -, rfl⟩ := List.mem_map.mp hc
    simp⟩

section Serve

variable [F32 F] (cd : Codec)

/-- The loop of `handle_connection` on the bytes received: what is written, and the handler left. -/
def serve : Nat → Server F K → Connection → List UInt8 →
    List UInt8 × Server F K × Option Connection × List UInt8
  | 0, s, c, buf => ([], s, some c, buf)
  | n + 1, s, c, buf =>
      match decodeFrame cd buf with
      | (.error _, buf) => ([], s.dropGuard c.guard, none, buf)
      | (.ok none, buf) => ([], s, some c, buf)
      | (.ok (some m), buf) =>
          match handleMessage cd s c m with
          | ((sent, .next), s, c) =>
              let (out, rest) := serve n s c buf
              (encodeFrames cd sent ++ out, rest)
          | ((sent, _), s, c) => (encodeFrames cd sent, s.dropGuard c.guard, none, buf)

variable [DecidableEq Addr] (cut : Nat → List UInt8 → List (List UInt8))

/-- Bytes reach a peer, which answers them; a write on a connection the peer has closed fails. -/
def Peers.write (sock : Nat) (bytes : List UInt8) (w : Peers Addr F K) :
    Timed Unit × Peers Addr F K :=
  match w.sockets[sock]? with
  | none => (.failed "not connected", w)
  | some s =>
      match s.handler with
      | none => (.failed "connection closed", w)
      | some c =>
          let buf := s.inbox ++ bytes
          let (out, server, handler, inbox) := serve cd (buf.length + 1) (w.servers s.addr) c buf
          (.done (),
            { w with
              servers := Function.update w.servers s.addr server
              sockets := w.sockets.set sock
                { s with handler, inbox, outbox := s.outbox ++ cut w.writes out }
              writes := w.writes + 1 })

/-- What the reads on a connection bring: the pieces sent, then nothing until the time limit, or the
end of the stream when the peer has closed it. -/
def Peers.incoming (sock : Nat) (w : Peers Addr F K) : List (Arrival UInt8) :=
  match w.sockets[sock]? with
  | none => []
  | some s => pieces s.outbox ++ if s.handler.isSome then [.stall] else []

def piecesOf : List (Arrival UInt8) → List (List UInt8)
  | [] => []
  | .units piece :: rest => piece :: piecesOf rest
  | .stall :: rest => piecesOf rest

def peersNet : Net Addr Nat (Peers Addr F K) where
  dial addr w :=
    (.done w.sockets.length, { w with sockets := w.sockets ++ [⟨addr, some .new, [], []⟩] })
  write := Peers.write cd cut
  incoming := Peers.incoming
  leave sock rest w :=
    { w with sockets := w.sockets.modify sock fun s => { s with outbox := piecesOf rest } }
  session w := (w.ids w.drawn, { w with drawn := w.drawn + 1 })

end Serve

@[simp] theorem piecesOf_append (chunks : List (List UInt8)) (later : List (Arrival UInt8)) :
    piecesOf (pieces chunks ++ later) = chunks ++ piecesOf later := by
  induction chunks with
  | nil => rfl
  | cons c cs ih =>
      simp only [pieces, List.map_cons, List.cons_append, piecesOf] at ih ⊢
      rw [ih]

section Exchange

variable [F32 F] [DecidableEq Addr] {cd : Codec} {cut : Nat → List UInt8 → List (List UInt8)}

private theorem encodeFrames_singleton (cd : Codec) (m : Msg) :
    encodeFrames cd [m] = frameBytes cd m := rfl

private theorem serve_frame (hcd : cd.RoundTrips) {m : Msg} (hm : cd.Fits m) (s : Server F K)
    (c : Connection) :
    serve cd ((frameBytes cd m).length + 1) s c (frameBytes cd m) =
      match handleMessage cd s c m with
      | ((sent, .next), s, c) => (encodeFrames cd sent, s, some c, [])
      | ((sent, _), s, c) => (encodeFrames cd sent, s.dropGuard c.guard, none, []) := by
  have hdec := decodeFrame_frameBytes hcd hm
  have hpos : 0 < (frameBytes cd m).length :=
    List.length_pos_iff.mpr ((frameBytes_framing hcd).nonempty m hm)
  obtain ⟨n, hn⟩ := Nat.exists_eq_succ_of_ne_zero hpos.ne'
  have hnil : ∀ (s : Server F K) (c : Connection),
      serve cd (n + 1) s c [] = ([], s, some c, []) := fun s c => rfl
  rw [hn, serve, hdec]
  dsimp only
  generalize handleMessage cd s c m = r
  obtain ⟨⟨sent, served⟩, s', c'⟩ := r
  cases served with
  | next => simp only [hnil, List.append_nil]
  | done => rfl
  | failed e => rfl

def Peers.answered (w : Peers Addr F K) (sock : Nat) (addr : Addr) (server : Server F K)
    (c : Connection) : Peers Addr F K :=
  { w with
    servers := Function.update w.servers addr server
    sockets := w.sockets.set sock ⟨addr, some c, [], []⟩
    writes := w.writes + 1 }

theorem exchange (hcd : cd.RoundTrips) (hcut : Cuts cut) {w : Peers Addr F K}
    (link : Link Addr Nat) {c c' : Connection} {server : Server F K} {m reply : Msg}
    (hrx : link.rx = []) (hsock : w.sockets[link.sock]? = some ⟨link.addr, some c, [], []⟩)
    (hm : cd.Fits m) (hreply : cd.Fits reply)
    (hhandle : handleMessage cd (w.servers link.addr) c m = (([reply], .next), server, c'))
    (index : Nat) :
    ∃ w', link.writeWithTimeout (peersNet cd cut) cd m index w = (.ok (), w') ∧
      link.readWithTimeout (peersNet cd cut) cd index w' =
        (.ok (some reply), link, w.answered link.sock link.addr server c') := by
  have hframe := encodeFrame_append hm []
  rw [List.nil_append] at hframe
  have hserve := serve_frame hcd hm (w.servers link.addr) c
  rw [hhandle] at hserve
  dsimp only at hserve
  rw [encodeFrames_singleton] at hserve
  obtain ⟨hflat, hne⟩ := hcut w.writes (frameBytes cd reply)
  let w' : Peers Addr F K :=
    { w with
      servers := Function.update w.servers link.addr server
      sockets := w.sockets.set link.sock
        ⟨link.addr, some c', [], cut w.writes (frameBytes cd reply)⟩
      writes := w.writes + 1 }
  have hlt : link.sock < w.sockets.length := (List.getElem?_eq_some_iff.mp hsock).1
  refine ⟨w', ?_, ?_⟩
  · simp only [Link.writeWithTimeout, hframe, peersNet, Peers.write, hsock, List.nil_append, hserve]
    rfl
  · have hincoming : (peersNet cd cut).incoming link.sock w' =
        pieces (cut w.writes (frameBytes cd reply)) ++ [.stall] := by
      simp only [peersNet, Peers.incoming, w', List.getElem?_set_self hlt, Option.isSome_some,
        if_true]
    obtain ⟨buf, chunks, hpull, hne', hrest⟩ :=
      pull_item_append (frameBytes_framing hcd) true hreply _ hne [] []
        (by rw [List.nil_append, List.append_nil, hflat]) [.stall]
    obtain ⟨rfl, hchunks⟩ := List.append_eq_nil_iff.mp hrest
    have hnil : chunks = [] := by
      cases chunks with
      | nil => rfl
      | cons p ps =>
          have hp : p = [] := by simpa using (List.flatten_eq_nil_iff.mp hchunks) p (by simp)
          exact absurd hp (hne' p (by simp))
    subst hnil
    simp only [Link.readWithTimeout, Wire.readWithTimeout, hrx, hincoming, hpull, readResult]
    refine Prod.ext rfl (Prod.ext (by cases link; cases hrx; rfl) ?_)
    simp only [peersNet, Peers.answered, w', piecesOf_append]
    congr 1
    refine List.ext_getElem? fun j => ?_
    rw [List.getElem?_modify]
    by_cases hj : link.sock = j
    · subst hj
      rw [List.getElem?_set_self hlt, List.getElem?_set_self hlt]
      simp [piecesOf]
    · rw [List.getElem?_set_ne hj, List.getElem?_set_ne hj]
      cases w.sockets[j]? <;> simp [hj]

theorem exchange_failed (hcd : cd.RoundTrips) (hcut : Cuts cut) {w : Peers Addr F K}
    (link : Link Addr Nat) {c c' : Connection} {server : Server F K} {m : Msg} {e : ServeError}
    (hrx : link.rx = []) (hsock : w.sockets[link.sock]? = some ⟨link.addr, some c, [], []⟩)
    (hm : cd.Fits m)
    (hhandle : handleMessage cd (w.servers link.addr) c m = (([], .failed e), server, c'))
    (index : Nat) :
    ∃ w' w'' link', link.writeWithTimeout (peersNet cd cut) cd m index w = (.ok (), w') ∧
      link.readWithTimeout (peersNet cd cut) cd index w' = (.ok none, link', w'') := by
  have hframe := encodeFrame_append hm []
  rw [List.nil_append] at hframe
  have hserve := serve_frame hcd hm (w.servers link.addr) c
  rw [hhandle] at hserve
  dsimp only at hserve
  have hlt : link.sock < w.sockets.length := (List.getElem?_eq_some_iff.mp hsock).1
  have hcutNil : cut w.writes (encodeFrames cd []) = [] := by
    obtain ⟨hflat, hne⟩ := hcut w.writes (encodeFrames cd [])
    cases hc : cut w.writes (encodeFrames cd []) with
    | nil => rfl
    | cons p ps =>
        have hp : p = [] := by
          rw [hc] at hflat
          exact (List.append_eq_nil_iff.mp hflat).1
        exact absurd hp (hne p (by rw [hc]; simp))
  let w' : Peers Addr F K :=
    { w with
      servers := Function.update w.servers link.addr (server.dropGuard c'.guard)
      sockets := w.sockets.set link.sock ⟨link.addr, none, [], []⟩
      writes := w.writes + 1 }
  refine ⟨w', (peersNet cd cut).leave link.sock [] w', { link with rx := [] }, ?_, ?_⟩
  · simp only [Link.writeWithTimeout, hframe, peersNet, Peers.write, hsock, List.nil_append,
      hserve, hcutNil]
    rfl
  · have hincoming : (peersNet cd cut).incoming link.sock w' = [] := by
      simp [peersNet, Peers.incoming, w', List.getElem?_set_self hlt, pieces]
    have hpull := pull_closed (frameBytes_framing hcd) true
    simp only [Link.readWithTimeout, Wire.readWithTimeout, hrx, hincoming, hpull, readResult]

end Exchange

end IntelNav.System
