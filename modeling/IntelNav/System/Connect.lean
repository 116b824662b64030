import IntelNav.Runtime.Splits
import IntelNav.System.Hops

/-! Connecting a chain to peers that are ready for it. -/

set_option autoImplicit false
set_option relaxedAutoImplicit false

namespace IntelNav.System

open IntelNav.App IntelNav.Core IntelNav.Ggml IntelNav.Runtime IntelNav.Stream IntelNav.Wire

variable {Addr F K : Type}

structure WellFormed (s : Server F K) : Prop where
  bound : ∀ key n, s.cache.lookup key = some n → n < s.slices.length
  own : ∀ key key' n, s.cache.lookup key = some n → s.cache.lookup key' = some n → key = key'

def keyOf (modelCid : String) (layers : LayerRange) : SliceKey :=
  (modelCid, layers.start, layers.stop)

private theorem keyOf_ne {modelCid : String} {a b : LayerRange} (h : a ≠ b) :
    keyOf modelCid a ≠ keyOf modelCid b := by
  intro heq
  obtain ⟨hstart, hstop⟩ := Prod.mk.inj (Prod.mk.inj heq).2
  exact h (by cases a; cases b; cases hstart; cases hstop; rfl)

/-- The peer announces the slice, and what it has loaded or will load for it computes the layers of
the model. -/
structure Ready (m : Pipelined F K) (modelCid : String) (layers : LayerRange) (s : Server F K) :
    Prop where
  announces : s.host.Announces (keyOf modelCid layers)
  cached : ∀ n, s.cache.lookup (keyOf modelCid layers) = some n →
    ∃ slice, s.slices[n]? = some slice ∧ Carries m layers slice
  loaded : s.cache.lookup (keyOf modelCid layers) = none →
    ∃ slice, s.files.loadKey (keyOf modelCid layers) = .ok slice ∧ Carries m layers slice

/-- What opening a session changes on a server: the slice of the key is loaded if it was not, and
reset; nothing else is. -/
structure Opened (m : Pipelined F K) (key : SliceKey) (layers : LayerRange) (s s' : Server F K)
    (idx : Nat) : Prop where
  placed : s'.cache.lookup key = some idx
  slice : ∃ slice k, s'.slices[idx]? = some slice ∧ slice.kv = m.resetCache k ∧
    Carries m layers slice
  files : s'.files = s.files
  announces : ∀ k, s'.host.Announces k ↔ s.host.Announces k
  cache : ∀ k, k ≠ key → s'.cache.lookup k = s.cache.lookup k
  others : ∀ n, n ≠ idx → n < s.slices.length → s'.slices[n]? = s.slices[n]?
  fresh : ∀ k, k ≠ key → s.cache.lookup k ≠ some idx
  wellFormed : WellFormed s'

section OneServer

variable {m : Pipelined F K} {modelCid : String} {layers : LayerRange} {s : Server F K}

private theorem resetKv_carries {n : Nat} {slice : LoadedSlice F K}
    (hslice : s.slices[n]? = some slice) (hcarries : Carries m layers slice) :
    ∃ slice k, (s.resetKv n).slices[n]? = some slice ∧ slice.kv = m.resetCache k ∧
      Carries m layers slice := by
  refine ⟨{ slice with kv := slice.handle.resetCache slice.kv }, slice.kv, ?_, ?_,
    ⟨hcarries.resetCache, hcarries.truncateKvTo, hcarries.forwardRange⟩⟩
  · simp only [Server.resetKv, hslice]
    rw [Server.getElem?_setKv_self, hslice]
    rfl
  · rw [← hcarries.resetCache]

/-- A slice that was loaded before is only reset. -/
private theorem opened_cached (hwf : WellFormed s) {s₁ : Server F K} {key : SliceKey} {n : Nat}
    {slice : LoadedSlice F K} (hfiles : s₁.files = s.files) (hcache : s₁.cache = s.cache)
    (hslices : s₁.slices = s.slices) (hann : ∀ k, s₁.host.Announces k ↔ s.host.Announces k)
    (hlook : s.cache.lookup key = some n) (hslice : s.slices[n]? = some slice)
    (hcarries : Carries m layers slice) : Opened m key layers s (s₁.resetKv n) n where
  placed := by rw [Server.resetKv_cache, hcache, hlook]
  slice := resetKv_carries (hslices ▸ hslice) hcarries
  files := by rw [Server.resetKv_files, hfiles]
  announces k := by
    rw [Server.resetKv_host]
    exact hann k
  cache k _ := by rw [Server.resetKv_cache, hcache]
  others j hj _ := by rw [Server.resetKv_of_ne s₁ n (Ne.symm hj), hslices]
  fresh k hk hkn := hk (hwf.own _ _ n hkn hlook)
  wellFormed := by
    constructor
    · intro k j hkj
      rw [Server.resetKv_cache, hcache] at hkj
      rw [Server.length_resetKv, hslices]
      exact hwf.bound k j hkj
    · intro k k' j hk hk'
      rw [Server.resetKv_cache, hcache] at hk hk'
      exact hwf.own k k' j hk hk'

/-- A slice of its own is added for a key without one. -/
private theorem wellFormed_loaded (hwf : WellFormed s) (key : SliceKey) (slice : LoadedSlice F K) :
    WellFormed { s with
      cache := s.cache.insert key s.slices.length, slices := s.slices ++ [slice] } := by
  constructor
  · intro k j hkj
    change (s.cache.insert key s.slices.length).lookup k = some j at hkj
    change j < (s.slices ++ [slice]).length
    rw [List.length_append, List.length_singleton]
    by_cases hk : k = key
    · rw [hk, AList.lookup_insert] at hkj
      have := Option.some.inj hkj
      omega
    · rw [AList.lookup_insert_ne hk] at hkj
      have := hwf.bound k j hkj
      omega
  · intro k k' j hk hk'
    change (s.cache.insert key s.slices.length).lookup k = some j at hk
    change (s.cache.insert key s.slices.length).lookup k' = some j at hk'
    by_cases h₁ : k = key
    · by_cases h₂ : k' = key
      · rw [h₁, h₂]
      · rw [h₁, AList.lookup_insert] at hk
        rw [AList.lookup_insert_ne h₂] at hk'
        have := hwf.bound k' j hk'
        have := Option.some.inj hk
        omega
    · rw [AList.lookup_insert_ne h₁] at hk
      by_cases h₂ : k' = key
      · rw [h₂, AList.lookup_insert] at hk'
        have := hwf.bound k j hk
        have := Option.some.inj hk'
        omega
      · rw [AList.lookup_insert_ne h₂] at hk'
        exact hwf.own k k' j hk hk'

private theorem opened_loaded (hwf : WellFormed s) {s₁ : Server F K} {key : SliceKey}
    {slice : LoadedSlice F K} (hfiles : s₁.files = s.files) (hcache : s₁.cache = s.cache)
    (hslices : s₁.slices = s.slices) (hann : ∀ k, s₁.host.Announces k ↔ s.host.Announces k)
    (hcarries : Carries m layers slice) :
    Opened m key layers s (({ s₁ with
      cache := s₁.cache.insert key s₁.slices.length
      slices := s₁.slices ++ [slice] } : Server F K).resetKv s₁.slices.length)
        s₁.slices.length := by
  have hwf₁ : WellFormed s₁ := ⟨fun k n h => by
    rw [hcache] at h
    rw [hslices]
    exact hwf.bound k n h, fun k k' n h h' => by
    rw [hcache] at h h'
    exact hwf.own k k' n h h'⟩
  have hwf₂ := wellFormed_loaded hwf₁ key slice
  set s₂ : Server F K := { s₁ with
    cache := s₁.cache.insert key s₁.slices.length, slices := s₁.slices ++ [slice] } with hs₂
  have hlookup : ∀ k, k ≠ key → s₂.cache.lookup k = s.cache.lookup k :=
    fun k hk => by simp [s₂, AList.lookup_insert_ne hk, hcache]
  have hslice : s₂.slices[s₁.slices.length]? = some slice := by simp [s₂]
  have hlen : s₁.slices.length = s.slices.length := by rw [hslices]
  refine ⟨?_, resetKv_carries hslice hcarries, ?_, ?_, ?_, ?_, ?_, ?_, ?_⟩
  · rw [Server.resetKv_cache]
    simp [s₂]
  · rw [Server.resetKv_files, ← hfiles]
  · intro k
    rw [Server.resetKv_host]
    exact hann k
  · intro k hk
    rw [Server.resetKv_cache, hlookup k hk]
  · intro j hj hlt
    rw [Server.resetKv_of_ne _ _ (Ne.symm hj)]
    simp only [s₂]
    rw [List.getElem?_append_left (by omega), hslices]
  · intro k _ hkn
    have := hwf.bound k _ hkn
    omega
  · intro k j hkj
    rw [Server.resetKv_cache] at hkj
    rw [Server.length_resetKv]
    exact hwf₂.bound k j hkj
  · intro k k' j hk hk'
    rw [Server.resetKv_cache] at hk hk'
    exact hwf₂.own k k' j hk hk'

private theorem sessionInit_ready [F32 F] (cd : Codec) (hwf : WellFormed s)
    (hready : Ready m modelCid layers s)
    (c : Connection) (sid : SessionId) (pub : Vector UInt8 32) (maxSeq : UInt32) :
    ∃ s' idx g, handleMessage cd s c (.sessionInit sid pub modelCid layers maxSeq) =
        (writeFrame cd (.sessionAck sid (Vector.replicate 32 0)) .next, s',
          c.opened sid (keyOf modelCid layers) idx g) ∧
      Opened m (keyOf modelCid layers) layers s s' idx := by
  obtain ⟨s₁, g, hfiles, hcache, hslices, hann, heq⟩ :=
    handleMessage_sessionInit cd s c sid pub (keyOf modelCid layers) maxSeq hready.announces
  rw [show (Msg.sessionInit sid pub (keyOf modelCid layers).1
    ⟨(keyOf modelCid layers).2.1, (keyOf modelCid layers).2.2⟩ maxSeq) =
      .sessionInit sid pub modelCid layers maxSeq from rfl] at heq
  cases hlook : s.cache.lookup (keyOf modelCid layers) with
  | some n =>
      obtain ⟨slice, hslice, hcarries⟩ := hready.cached n hlook
      rw [s₁.prepareSlice_cached (keyOf modelCid layers) (hcache ▸ hlook)] at heq
      exact ⟨s₁.resetKv n, n, g, heq,
        opened_cached hwf hfiles hcache hslices hann hlook hslice hcarries⟩
  | none =>
      obtain ⟨slice, hload, hcarries⟩ := hready.loaded hlook
      rw [s₁.prepareSlice_loaded (keyOf modelCid layers) (hcache ▸ hlook) (hfiles ▸ hload)] at heq
      exact ⟨_, _, g, heq, opened_loaded hwf hfiles hcache hslices hann hcarries⟩

theorem Opened.ready {key : SliceKey} {layers' : LayerRange} {s' : Server F K} {idx : Nat}
    (hwf : WellFormed s) (hopened : Opened m key layers' s s' idx)
    (hne : keyOf modelCid layers ≠ key) (hready : Ready m modelCid layers s) :
    Ready m modelCid layers s' where
  announces := (hopened.announces _).mpr hready.announces
  cached n hn := by
    rw [hopened.cache _ hne] at hn
    obtain ⟨slice, hslice, hcarries⟩ := hready.cached n hn
    have hidx : n ≠ idx := fun h => hopened.fresh _ hne (h ▸ hn)
    exact ⟨slice, (hopened.others n hidx (hwf.bound _ n hn)).trans hslice, hcarries⟩
  loaded hn := by
    rw [hopened.cache _ hne] at hn
    rw [hopened.files]
    exact hready.loaded hn

end OneServer

/-- The frames of the handshake with hop `i` fit. -/
structure HandshakeFits (cd : Codec) (cfg : ChainCfg Addr) (nBlocks : UInt16)
    (session : Nat → SessionId) : Prop where
  hello : cd.Fits (.hello ⟨Vector.replicate 32 0⟩ cfg.protoVer [.q4km, .fp16])
  init : ∀ i, i < cfg.peers.length → cd.Fits (cfg.sessionInit (cfg.layers nBlocks i) (session i))
  ack : ∀ i, i < cfg.peers.length → cd.Fits (.sessionAck (session i) (Vector.replicate 32 0))

def Placed (modelCid : String) (w : Peers Addr F K) (h : Hop Addr K) : Prop :=
  (w.servers h.link.addr).cache.lookup (keyOf modelCid h.link.layers) = some h.idx

section Open

variable {m : Pipelined F K}

private structure LinkOpened (m : Pipelined F K) (modelCid : String) (layers : LayerRange)
    (addr : Addr) (w w' : Peers Addr F K) (h : Hop Addr K) : Prop where
  addr_eq : h.link.addr = addr
  layers_eq : h.link.layers = layers
  session_eq : h.link.session = w.ids w.drawn
  seq_eq : h.link.seq = 0
  pos_eq : h.pos = 0
  sock_eq : h.link.sock = w.sockets.length
  kv_eq : ∃ k, h.kv = m.resetCache k
  attached : Attached m w' h
  sockets : w'.sockets.length = w.sockets.length + 1
  kept : ∀ j, j < w.sockets.length → w'.sockets[j]? = w.sockets[j]?
  ids : w'.ids = w.ids
  drawn : w'.drawn = w.drawn + 1
  servers : ∀ a, a ≠ addr → w'.servers a = w.servers a
  server : Opened m (keyOf modelCid layers) layers (w.servers addr) (w'.servers addr) h.idx

private theorem openLink_ok {Conn W : Type} {net : Net Addr Conn W} {cd : Codec}
    {cfg : ChainCfg Addr} {layers : LayerRange} {index : Nat} {addr : Addr}
    {w w₀ w₁ w₂ w₃ w₄ w₅ : W} {sock : Conn} {session : SessionId} {peer : PeerId}
    {quants : List Quant} {key : Vector UInt8 32} {link link' : Link Addr Conn}
    (hdial : net.dial addr w = (.done sock, w₀)) (hsession : net.session w₀ = (session, w₁))
    (hhello : (⟨addr, layers, session, sock, [], 0⟩ : Link Addr Conn).writeWithTimeout net cd
      (.hello ⟨Vector.replicate 32 0⟩ cfg.protoVer [.q4km, .fp16]) index w₁ = (.ok (), w₂))
    (hpeer : (⟨addr, layers, session, sock, [], 0⟩ : Link Addr Conn).readWithTimeout net cd index w₂
      = (.ok (some (.hello peer cfg.protoVer quants)), link, w₃))
    (hinit : link.writeWithTimeout net cd (cfg.sessionInit layers session) index w₃ = (.ok (), w₄))
    (hack : link.readWithTimeout net cd index w₄ =
      (.ok (some (.sessionAck session key)), link', w₅)) :
    openLink net cd cfg layers index addr w = (.ok link', w₅) := by
  simp only [openLink, hdial, hsession, hhello, hpeer, ne_eq, not_true_eq_false, if_false, hinit,
    hack, if_true]

private theorem openLink_spec [F32 F] [DecidableEq Addr] {cd : Codec}
    {cut : Nat → List UInt8 → List (List UInt8)} (hcd : cd.RoundTrips) (hcut : Cuts cut)
    {cfg : ChainCfg Addr} {w : Peers Addr F K} {layers : LayerRange} {addr : Addr}
    (hwf : WellFormed (w.servers addr)) (hready : Ready m cfg.modelCid layers (w.servers addr))
    (hhello : cd.Fits (.hello ⟨Vector.replicate 32 0⟩ cfg.protoVer [.q4km, .fp16]))
    (hinit : cd.Fits (cfg.sessionInit layers (w.ids w.drawn)))
    (hack : cd.Fits (.sessionAck (w.ids w.drawn) (Vector.replicate 32 0))) (index : Nat) :
    ∃ h w', openLink (peersNet cd cut) cd cfg layers index addr w = (.ok h.link, w') ∧
      LinkOpened m cfg.modelCid layers addr w w' h := by
  let link : Link Addr Nat :=
    { addr, layers, session := w.ids w.drawn, sock := w.sockets.length, rx := [], seq := 0 }
  let w₁ : Peers Addr F K :=
    { w with sockets := w.sockets ++ [⟨addr, some .new, [], []⟩], drawn := w.drawn + 1 }
  have hsock₁ : w₁.sockets[link.sock]? = some ⟨link.addr, some .new, [], []⟩ := by
    simp [w₁, link]
  have hhandle₁ : handleMessage cd (w₁.servers link.addr) .new
      (.hello ⟨Vector.replicate 32 0⟩ cfg.protoVer [.q4km, .fp16]) =
        (([.hello ⟨Vector.replicate 32 0⟩ cfg.protoVer [.q4km, .fp16]], .next),
          w₁.servers link.addr, .new) := by
    simp only [handleMessage, writeFrame, encodeFrame_append hhello]
  obtain ⟨v₁, hwrite₁, hread₁⟩ := exchange hcd hcut _ rfl hsock₁ hhello hhello hhandle₁ index
  let w₂ := w₁.answered link.sock link.addr (w₁.servers link.addr) .new
  have hservers₂ : w₂.servers = w.servers := Function.update_eq_self addr w.servers
  have hlen₁ : link.sock < w₁.sockets.length := by simp [w₁, link]
  have hsock₂ : w₂.sockets[link.sock]? = some ⟨link.addr, some .new, [], []⟩ :=
    List.getElem?_set_self hlen₁
  obtain ⟨s', idx, g, hhandle, hopened⟩ := sessionInit_ready cd hwf hready .new (w.ids w.drawn)
    (Vector.replicate 32 0) cfg.maxSeq
  have hhandle₂ : handleMessage cd (w₂.servers link.addr) .new
      (cfg.sessionInit layers (w.ids w.drawn)) =
        (([.sessionAck (w.ids w.drawn) (Vector.replicate 32 0)], .next), s',
          Connection.new.opened (w.ids w.drawn) (keyOf cfg.modelCid layers) idx g) := by
    rw [hservers₂, ChainCfg.sessionInit, hhandle, writeFrame, encodeFrame_append hack]
  obtain ⟨v₂, hwrite₂, hread₂⟩ := exchange hcd hcut _ rfl hsock₂ hinit hack hhandle₂ index
  obtain ⟨slice, k, hslice, hkv, hcarries⟩ := hopened.slice
  have hlen₂ : link.sock < w₂.sockets.length := by
    simpa [w₂, Peers.answered] using hlen₁
  refine ⟨⟨link, idx, 0, slice.kv⟩, w₂.answered link.sock link.addr s'
    (Connection.new.opened (w.ids w.drawn) (keyOf cfg.modelCid layers) idx g),
    ?_, rfl, rfl, rfl, rfl, rfl, rfl, ⟨k, hkv⟩, ⟨rfl, ?_, ?_⟩, ?_, ?_, rfl, rfl, ?_, ?_⟩
  · have hdial : (peersNet cd cut).dial addr w = (.done w.sockets.length,
        ({ w with sockets := w.sockets ++ [⟨addr, some .new, [], []⟩] } : Peers Addr F K)) := rfl
    have hsession : (peersNet cd cut).session
        ({ w with sockets := w.sockets ++ [⟨addr, some .new, [], []⟩] } : Peers Addr F K) =
          (w.ids w.drawn, w₁) := rfl
    exact openLink_ok hdial hsession hwrite₁ hread₁ hwrite₂ hread₂
  · exact ⟨cfg.modelCid, some g, List.getElem?_set_self hlen₂⟩
  · refine ⟨slice, ?_, rfl, hcarries⟩
    change (Function.update w₂.servers addr s' addr).slices[idx]? = _
    rw [Function.update_self]
    exact hslice
  · simp [Peers.answered, w₂, w₁]
  · intro j hj
    have hne : link.sock ≠ j := by
      have : link.sock = w.sockets.length := rfl
      omega
    simp only [Peers.answered, List.getElem?_set_ne hne, w₂, w₁]
    exact List.getElem?_append_left hj
  · intro a ha
    change Function.update w₂.servers addr s' a = _
    rw [Function.update_of_ne ha, hservers₂]
  · change Opened m (keyOf cfg.modelCid layers) layers (w.servers addr)
      (Function.update w₂.servers addr s' addr) idx
    rw [Function.update_self]
    exact hopened

private theorem attached_linkOpened {modelCid : String} {layers : LayerRange} {addr : Addr}
    {w w' : Peers Addr F K} {h g : Hop Addr K} (hwf : ∀ a, WellFormed (w.servers a))
    (hopen : LinkOpened m modelCid layers addr w w' h) (hg : Attached m w g)
    (hplaced : Placed modelCid w g) (hlayers : g.link.layers ≠ layers) :
    Attached m w' g ∧ Placed modelCid w' g ∧ Apart g h := by
  obtain ⟨cid, guard, hsock⟩ := hg.socket
  have hlt : g.link.sock < w.sockets.length := (List.getElem?_eq_some_iff.mp hsock).1
  have hkey : keyOf modelCid g.link.layers ≠ keyOf modelCid layers := keyOf_ne hlayers
  obtain ⟨slice, hslice, hrest⟩ := hg.slice
  have hbound := (hwf g.link.addr).bound _ _ hplaced
  by_cases haddr : g.link.addr = addr
  · have hidx : g.idx ≠ h.idx := by
      intro heq
      rw [Placed, haddr] at hplaced
      exact hopen.server.fresh _ hkey (heq ▸ hplaced)
    refine ⟨⟨hg.rx, ⟨cid, guard, (hopen.kept _ hlt).trans hsock⟩, slice, ?_, hrest⟩, ?_, ?_, ?_⟩
    · rw [haddr] at hslice hbound ⊢
      exact (hopen.server.others _ hidx hbound).trans hslice
    · rw [Placed, haddr] at hplaced ⊢
      exact (hopen.server.cache _ hkey).trans hplaced
    · rw [hopen.sock_eq]
      exact hlt.ne
    · exact fun hboth => hidx hboth.2
  · have hsame := hopen.servers g.link.addr haddr
    refine ⟨⟨hg.rx, ⟨cid, guard, (hopen.kept _ hlt).trans hsock⟩, slice, ?_, hrest⟩, ?_, ?_, ?_⟩
    · rw [hsame]
      exact hslice
    · rw [Placed, hsame]
      exact hplaced
    · rw [hopen.sock_eq]
      exact hlt.ne
    · rw [hopen.addr_eq]
      exact fun hboth => haddr hboth.1

/-- A hop that has just been opened for `layers` in `session`. -/
structure Fresh (m : Pipelined F K) (layers : LayerRange) (session : SessionId) (h : Hop Addr K) :
    Prop where
  layers_eq : h.link.layers = layers
  session_eq : h.link.session = session
  seq_eq : h.link.seq = 0
  pos_eq : h.pos = 0
  kv_eq : ∃ k, h.kv = m.resetCache k

private theorem wellFormed_linkOpened {modelCid : String} {layers : LayerRange} {addr : Addr}
    {w w' : Peers Addr F K} {h : Hop Addr K} (hwf : ∀ a, WellFormed (w.servers a))
    (hopen : LinkOpened m modelCid layers addr w w' h) (a : Addr) : WellFormed (w'.servers a) := by
  by_cases ha : a = addr
  · exact ha ▸ hopen.server.wellFormed
  · exact (hopen.servers a ha).symm ▸ hwf a

private theorem ready_linkOpened {modelCid : String} {layers layers' : LayerRange} {addr a : Addr}
    {w w' : Peers Addr F K} {h : Hop Addr K} (hwf : ∀ a, WellFormed (w.servers a))
    (hopen : LinkOpened m modelCid layers addr w w' h) (hne : layers' ≠ layers)
    (hready : Ready m modelCid layers' (w.servers a)) :
      Ready m modelCid layers' (w'.servers a) := by
  by_cases ha : a = addr
  · subst ha
    exact hopen.server.ready (hwf a) (keyOf_ne hne) hready
  · exact (hopen.servers a ha).symm ▸ hready

private theorem openLinks_spec [F32 F] [DecidableEq Addr] {cd : Codec}
    {cut : Nat → List UInt8 → List (List UInt8)} (hcd : cd.RoundTrips) (hcut : Cuts cut)
    {cfg : ChainCfg Addr} {nBlocks : UInt16}
    (hhello : cd.Fits (.hello ⟨Vector.replicate 32 0⟩ cfg.protoVer [.q4km, .fp16]))
    (addrs : List Addr) (index : Nat) {w : Peers Addr F K} (hwf : ∀ a, WellFormed (w.servers a))
    (hready : ∀ i addr, addrs[i]? = some addr →
      Ready m cfg.modelCid (cfg.layers nBlocks (index + i)) (w.servers addr))
    (hdistinct : ∀ i j, i < j → j < addrs.length →
      cfg.layers nBlocks (index + i) ≠ cfg.layers nBlocks (index + j))
    (hinit : ∀ i, i < addrs.length →
      cd.Fits (cfg.sessionInit (cfg.layers nBlocks (index + i)) (w.ids (w.drawn + i))))
    (hack : ∀ i, i < addrs.length →
      cd.Fits (.sessionAck (w.ids (w.drawn + i)) (Vector.replicate 32 0))) :
    ∃ (hs : List (Hop Addr K)) (w' : Peers Addr F K),
      openLinks (peersNet cd cut) cd cfg nBlocks index addrs w = (.ok (hs.map Hop.link), w') ∧
      hs.length = addrs.length ∧ (∀ h ∈ hs, Attached m w' h) ∧ hs.Pairwise Apart ∧
      (∀ i h, hs[i]? = some h →
        Fresh m (cfg.layers nBlocks (index + i)) (w.ids (w.drawn + i)) h) ∧
      ∀ g, Attached m w g → Placed cfg.modelCid w g →
        (∀ i, i < addrs.length → g.link.layers ≠ cfg.layers nBlocks (index + i)) →
        Attached m w' g ∧ ∀ h ∈ hs, Apart g h := by
  induction addrs generalizing index w with
  | nil =>
      exact ⟨[], w, rfl, rfl, by simp, List.Pairwise.nil, by simp, fun g hg _ _ => ⟨hg, by simp⟩⟩
  | cons addr addrs ih =>
      obtain ⟨h, w₁, heq, hopen⟩ := openLink_spec hcd hcut (hwf addr) (hready 0 addr rfl) hhello
        (hinit 0 (by simp)) (hack 0 (by simp)) index
      have hshift : ∀ i, index + 1 + i = index + (i + 1) := fun i => by omega
      have hnext : ∀ i, w₁.ids (w₁.drawn + i) = w.ids (w.drawn + (i + 1)) := fun i => by
        rw [hopen.ids, hopen.drawn, Nat.add_assoc, Nat.add_comm 1 i]
      obtain ⟨hs, w', heq', hlen, hatt, hpair, hfresh, holder⟩ := ih (index + 1) (w := w₁)
        (wellFormed_linkOpened hwf hopen)
        (fun i a ha => by
          have hlt : i < addrs.length := (List.getElem?_eq_some_iff.mp ha).1
          rw [hshift]
          exact ready_linkOpened hwf hopen
            (hdistinct 0 (i + 1) (by omega) (by simpa using hlt)).symm (hready (i + 1) a ha))
        (fun i j hij hj => by
          rw [hshift, hshift]
          exact hdistinct (i + 1) (j + 1) (by omega) (by simpa using hj))
        (fun i hi => by
          rw [hshift, hnext]
          exact hinit (i + 1) (by simpa using hi))
        (fun i hi => by
          rw [hnext]
          exact hack (i + 1) (by simpa using hi))
      have hothers : ∀ i, i < addrs.length → h.link.layers ≠ cfg.layers nBlocks (index + 1 + i) :=
        fun i hi => by
          rw [hopen.layers_eq, hshift]
          exact hdistinct 0 (i + 1) (by omega) (by simpa using hi)
      have hplaced : Placed cfg.modelCid w₁ h := by
        rw [Placed, hopen.addr_eq, hopen.layers_eq]
        exact hopen.server.placed
      obtain ⟨hatt₀, hapart₀⟩ := holder h hopen.attached hplaced hothers
      refine ⟨h :: hs, w', ?_, by simp [hlen], ?_, List.pairwise_cons.mpr ⟨hapart₀, hpair⟩, ?_, ?_⟩
      · have heq₀ : openLink (peersNet cd cut) cd cfg (cfg.layers nBlocks index) index addr w =
          (.ok h.link, w₁) := heq
        simp only [openLinks, heq₀, heq', List.map_cons]
      · intro g hg
        rcases List.mem_cons.mp hg with rfl | hg
        · exact hatt₀
        · exact hatt g hg
      · intro i g hg
        cases i with
        | zero =>
            obtain rfl : h = g := by simpa using hg
            exact ⟨hopen.layers_eq, hopen.session_eq, hopen.seq_eq, hopen.pos_eq, hopen.kv_eq⟩
        | succ i =>
            have := hfresh i g (by simpa using hg)
            rwa [hshift, hnext] at this
      · intro g hg hgp hgl
        obtain ⟨hg₁, hgp₁, hgh⟩ :=
          attached_linkOpened hwf hopen hg hgp (hgl 0 (by simp))
        obtain ⟨hg', hgs⟩ := holder g hg₁ hgp₁ fun i hi => by
          rw [hshift]
          exact hgl (i + 1) (by simpa using hi)
        refine ⟨hg', fun a ha => ?_⟩
        rcases List.mem_cons.mp ha with rfl | ha
        · exact hgh
        · exact hgs a ha

/-- Connecting to ready peers succeeds: every link is fresh and idle, and no two hops share a
connection or a slice. -/
theorem connect_spec [F32 F] [DecidableEq Addr] {cd : Codec}
    {cut : Nat → List UInt8 → List (List UInt8)} (hcd : cd.RoundTrips) (hcut : Cuts cut)
    {cfg : ChainCfg Addr} {nBlocks : UInt16} {w : Peers Addr F K}
    (hvalid : cfg.validate nBlocks = .ok ()) (hwf : ∀ a, WellFormed (w.servers a))
    (hready : ∀ i addr, cfg.peers[i]? = some addr →
      Ready m cfg.modelCid (cfg.layers nBlocks i) (w.servers addr))
    (hfits : HandshakeFits cd cfg nBlocks fun i => w.ids (w.drawn + i)) :
    ∃ (hs : List (Hop Addr K)) (w' : Peers Addr F K),
      Chain.connect (peersNet cd cut) cd cfg nBlocks w =
        (.ok ⟨cfg, hs.map Hop.link, cfg.splits.headD 0⟩, w') ∧
      (∀ h ∈ hs, Attached m w' h) ∧ hs.Pairwise Apart ∧ hs.length = cfg.peers.length ∧
      ∀ i h, hs[i]? = some h → Fresh m (cfg.layers nBlocks i) (w.ids (w.drawn + i)) h := by
  obtain ⟨hs, w', heq, hlen, hatt, hpair, hfresh, -⟩ :=
    openLinks_spec (m := m) hcd hcut hfits.hello cfg.peers 0 hwf
      (fun i addr hi => by rw [Nat.zero_add]; exact hready i addr hi)
      (fun i j hij hj => by
        rw [Nat.zero_add, Nat.zero_add]
        exact ChainCfg.layers_ne hvalid hij hj)
      (fun i hi => by rw [Nat.zero_add]; exact hfits.init i hi) hfits.ack
  refine ⟨hs, w', ?_, hatt, hpair, hlen, fun i h hi => ?_⟩
  · simp only [Chain.connect, hvalid, heq]
  · have := hfresh i h hi
    rwa [Nat.zero_add] at this

end Open

def legs (cfg : ChainCfg Addr) (nBlocks : UInt16) (session : Nat → SessionId) :
    List (LayerRange × SessionId) :=
  (List.range cfg.peers.length).map fun i => (cfg.layers nBlocks i, session i)

def Hop.leg (h : Hop Addr K) : LayerRange × SessionId := (h.link.layers, h.link.session)

theorem spans_legs {cfg : ChainCfg Addr} {nBlocks : UInt16} {session : Nat → SessionId}
    (hvalid : cfg.validate nBlocks = .ok ()) {hs : List (Hop Addr K)}
    (hlegs : hs.map Hop.leg = legs cfg nBlocks session) :
    Spans (cfg.splits.headD 0).toNat (hs.map fun h => h.link.layers) nBlocks.toNat := by
  have h := congrArg (List.map Prod.fst) hlegs
  rw [List.map_map, legs, List.map_map] at h
  rw [show (hs.map fun h => h.link.layers) = hs.map (Prod.fst ∘ Hop.leg) from rfl, h]
  exact ChainCfg.spans_layers hvalid

theorem legs_of_feedAll {m : Pipelined F K} {keep : Option UInt32} {wire : Hidden F → Hidden F}
    {hs hs' : List (Hop Addr K)} {x y : Hidden F}
    (h : feedAll m keep wire hs x = some (y, hs')) : hs'.map Hop.leg = hs.map Hop.leg := by
  have hlinks := congrArg (List.map fun l : Link Addr Nat × Nat => (l.1.layers, l.1.session))
    (feedAll_links h)
  simp only [List.map_map, Function.comp_def] at hlinks
  exact hlinks

theorem legs_of_fresh {m : Pipelined F K} {cfg : ChainCfg Addr} {nBlocks : UInt16}
    {session : Nat → SessionId} {hs : List (Hop Addr K)} (hlen : hs.length = cfg.peers.length)
    (hfresh : ∀ i h, hs[i]? = some h → Fresh m (cfg.layers nBlocks i) (session i) h) :
    hs.map Hop.leg = legs cfg nBlocks session := by
  refine List.ext_getElem (by simp [legs, hlen]) fun i h₁ h₂ => ?_
  have hi : i < hs.length := by simpa using h₁
  have hf := hfresh i hs[i] (List.getElem?_eq_getElem hi)
  simp only [List.getElem_map, Hop.leg, legs, List.getElem_range, hf.layers_eq, hf.session_eq]

section Holding

variable (m : Pipelined F K) (k : K) (key : SliceKey)

def serverHolding : Server F K where
  host := { Host.new "p" 0 with
    control := (ControlState.new "p" 0).upsertAnnouncing key key.1 }
  files :=
    { disk := ∅, fileExists := fun _ => false, stitchSubset := fun _ _ _ _ => .error "no file"
      load := fun _ => .error "no file" }
  cache := AList.singleton key 0
  slices := [⟨m, k, 0⟩]

variable {m k key}

private theorem lookup_serverHolding {key' : SliceKey} {n : Nat}
    (h : (serverHolding m k key).cache.lookup key' = some n) : key' = key ∧ n = 0 := by
  by_cases hkey : key' = key
  · subst hkey
    have hself : (serverHolding m k key').cache.lookup key' = some 0 := by
      rw [serverHolding, ← AList.insert_empty, AList.lookup_insert]
    rw [hself] at h
    exact ⟨rfl, (Option.some.inj h).symm⟩
  · have hnone : (serverHolding m k key).cache.lookup key' = none := by
      rw [serverHolding, ← AList.insert_empty, AList.lookup_insert_ne hkey, AList.lookup_empty]
    rw [hnone] at h
    cases h

theorem wellFormed_serverHolding : WellFormed (serverHolding m k key) where
  bound key' n h := by
    obtain ⟨-, rfl⟩ := lookup_serverHolding h
    exact Nat.one_pos
  own key₁ key₂ n h₁ h₂ := by
    rw [(lookup_serverHolding h₁).1, (lookup_serverHolding h₂).1]

theorem ready_serverHolding {modelCid : String} {layers : LayerRange}
    (hkey : keyOf modelCid layers = key) : Ready m modelCid layers (serverHolding m k key) where
  announces := by
    rw [Host.Announces, ControlState.status, serverHolding, get_upsertAnnouncing, if_pos hkey]
    rfl
  cached n hn := by
    obtain ⟨-, rfl⟩ := lookup_serverHolding hn
    exact ⟨_, rfl, carries_full _ _ _⟩
  loaded hn := by
    have hself : (serverHolding m k key).cache.lookup key = some 0 := by
      rw [serverHolding, ← AList.insert_empty, AList.lookup_insert]
    rw [hkey, hself] at hn
    cases hn

end Holding

end IntelNav.System
