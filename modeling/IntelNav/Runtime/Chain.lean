import IntelNav.Ggml.Hidden
import IntelNav.Wire.Frame

/-! The pipeline client (`crates/runtime/src/chain.rs`): connect to the peers, open a session with
each, and push hidden states through them in order.

Sockets are a parameter: what dialling, writing and reading do to the world. -/

set_option autoImplicit false
set_option relaxedAutoImplicit false

namespace IntelNav.Runtime

open IntelNav.Core IntelNav.Ggml IntelNav.Stream IntelNav.Wire

variable {Addr Conn W F : Type}

/-- The outcome of a socket call raced against a time limit. -/
inductive Timed (α : Type)
  | done (a : α)
  | failed (source : String)
  | late
  deriving DecidableEq

/-- The sockets of the driver: `incoming` is what the reads on a connection will bring, `leave` sets
what is left of it; `session` draws a random session identifier. -/
structure Net (Addr Conn W : Type) where
  dial : Addr → W → Timed Conn × W
  write : Conn → List UInt8 → W → Timed Unit × W
  incoming : Conn → W → List (Arrival UInt8)
  leave : Conn → List (Arrival UInt8) → W → W
  session : W → SessionId × W

/-- One peer's link: its connection, its session, and the bytes read but not decoded. -/
structure Link (Addr Conn : Type) where
  addr : Addr
  layers : LayerRange
  session : SessionId
  sock : Conn
  rx : List UInt8
  seq : Nat
  deriving DecidableEq

inductive PeerFault
  | protoVer (driver peer : UInt32)
  | expectedHello (got : Option Msg)
  | expectedSessionAck (got : Option Msg)
  | write (source : String)
  | read (e : ReadError)
  | unexpected (got : Msg)
  | closedBeforeReply
  | dtype (got : Dtype)
  | shapeMismatch (batch seq : Nat) (got : Shape3)
  deriving DecidableEq

inductive DriverFault
  | noPeers
  | lengthMismatch (peers splits : Nat)
  | notIncreasing (splits : List UInt16)
  | firstSplitZero
  | lastSplit (last nBlocks : UInt16)
  | rank (shape : List Nat)
  | hidden (e : HiddenError)
  | encode (e : WireError)
  deriving DecidableEq

inductive ChainError (Addr : Type)
  | connect (index : Nat) (addr : Addr) (source : String)
  | handshake (index : Nat) (addr : Addr) (reason : PeerFault)
  | timeout (index : Nat) (addr : Addr)
  | dropped (index : Nat) (addr : Addr) (reason : PeerFault)
  | aborted (index : Nat) (addr : Addr) (reason : String)
  | other (e : DriverFault)
  deriving DecidableEq

structure ChainCfg (Addr : Type) where
  peers : List Addr
  splits : List UInt16
  protoVer : UInt32
  modelCid : String
  maxSeq : UInt32
  wireDtype : Dtype
  deriving DecidableEq

structure Chain (Addr Conn : Type) where
  cfg : ChainCfg Addr
  links : List (Link Addr Conn)
  frontEnd : UInt16
  deriving DecidableEq

/-- The `for` over `splits.windows(2)`. -/
def increasing : List UInt16 → Bool
  | a :: b :: rest => a < b && increasing (b :: rest)
  | _ => true

/-- The checks `Chain::connect` makes before it dials. -/
def ChainCfg.validate (cfg : ChainCfg Addr) (nBlocks : UInt16) : Except DriverFault Unit :=
  if cfg.peers.isEmpty then .error .noPeers
  else if cfg.peers.length ≠ cfg.splits.length then
    .error (.lengthMismatch cfg.peers.length cfg.splits.length)
  else if !increasing cfg.splits then .error (.notIncreasing cfg.splits)
  else if cfg.splits.headD 0 = 0 then .error .firstSplitZero
  else
    match cfg.splits.getLast? with
    | some last => if last ≥ nBlocks then .error (.lastSplit last nBlocks) else .ok ()
    | none => .ok ()

/-- The layers of hop `i`: from its split to the next one, or to the end. -/
def ChainCfg.layers (cfg : ChainCfg Addr) (nBlocks : UInt16) (i : Nat) : LayerRange :=
  ⟨cfg.splits.getD i 0, (cfg.splits[i + 1]?).getD nBlocks⟩

/-- The request that opens a session for `layers`. -/
def ChainCfg.sessionInit (cfg : ChainCfg Addr) (layers : LayerRange) (session : SessionId) : Msg :=
  .sessionInit session (Vector.replicate 32 0) cfg.modelCid layers cfg.maxSeq

section Io

variable (net : Net Addr Conn W) (cd : Codec)

/-- `write_with_timeout`. -/
def Link.writeWithTimeout (link : Link Addr Conn) (msg : Msg) (index : Nat) (w : W) :
    Except (ChainError Addr) Unit × W :=
  match encodeFrame cd [] msg with
  | (.error e, _) => (.error (.other (.encode e)), w)
  | (.ok (), out) =>
      match net.write link.sock out w with
      | (.late, w) => (.error (.timeout index link.addr), w)
      | (.failed source, w) => (.error (.dropped index link.addr (.write source)), w)
      | (.done (), w) => (.ok (), w)

/-- `read_with_timeout`. -/
def Link.readWithTimeout (link : Link Addr Conn) (index : Nat) (w : W) :
    Except (ChainError Addr) (Option Msg) × Link Addr Conn × W :=
  let (r, rx, rest) := Wire.readWithTimeout cd link.rx (net.incoming link.sock w)
  let link := { link with rx }
  let w := net.leave link.sock rest w
  match r with
  | .ok m => (.ok m, link, w)
  | .error .timeout => (.error (.timeout index link.addr), link, w)
  | .error e => (.error (.dropped index link.addr (.read e)), link, w)

def openLink (cfg : ChainCfg Addr) (layers : LayerRange) (index : Nat)
    (addr : Addr) (w : W) : Except (ChainError Addr) (Link Addr Conn) × W :=
  match net.dial addr w with
  | (.late, w) => (.error (.timeout index addr), w)
  | (.failed source, w) => (.error (.connect index addr source), w)
  | (.done sock, w) =>
      let (session, w) := net.session w
      let link : Link Addr Conn := { addr, layers, session, sock, rx := [], seq := 0 }
      match link.writeWithTimeout net cd
        (.hello ⟨Vector.replicate 32 0⟩ cfg.protoVer [.q4km, .fp16]) index w with
      | (.error e, w) => (.error e, w)
      | (.ok (), w) =>
          match link.readWithTimeout net cd index w with
          | (.error e, _, w) => (.error e, w)
          | (.ok (some (.hello _ protoVer _)), link, w) =>
              if protoVer ≠ cfg.protoVer then
                (.error (.handshake index addr (.protoVer cfg.protoVer protoVer)), w)
              else
                match link.writeWithTimeout net cd (cfg.sessionInit layers session) index w with
                | (.error e, w) => (.error e, w)
                | (.ok (), w) =>
                    match link.readWithTimeout net cd index w with
                    | (.error e, _, w) => (.error e, w)
                    | (.ok (some (.sessionAck sid key)), link, w) =>
                        if sid = session then (.ok link, w)
                        else
                          (.error (.handshake index addr
                            (.expectedSessionAck (some (.sessionAck sid key)))), w)
                    | (.ok (some (.abortSession _ reason)), _, w) =>
                        (.error (.aborted index addr reason), w)
                    | (.ok other, _, w) =>
                        (.error (.handshake index addr (.expectedSessionAck other)), w)
          | (.ok other, _, w) => (.error (.handshake index addr (.expectedHello other)), w)

/-- The loop of `Chain::connect` over the peers from `index` on. -/
def openLinks (cfg : ChainCfg Addr) (nBlocks : UInt16) :
    Nat → List Addr → W → Except (ChainError Addr) (List (Link Addr Conn)) × W
  | _, [], w => (.ok [], w)
  | index, addr :: addrs, w =>
      match openLink net cd cfg (cfg.layers nBlocks index) index addr w with
      | (.error e, w) => (.error e, w)
      | (.ok link, w) =>
          match openLinks cfg nBlocks (index + 1) addrs w with
          | (.error e, w) => (.error e, w)
          | (.ok links, w) => (.ok (link :: links), w)

def Chain.connect (cfg : ChainCfg Addr) (nBlocks : UInt16) (w : W) :
    Except (ChainError Addr) (Chain Addr Conn) × W :=
  match cfg.validate nBlocks with
  | .error e => (.error (.other e), w)
  | .ok () =>
      match openLinks net cd cfg nBlocks 0 cfg.peers w with
      | (.error e, w) => (.error e, w)
      | (.ok links, w) => (.ok { cfg, links, frontEnd := cfg.splits.headD 0 }, w)

/-- What the driver takes from the message a peer answered a forward with. -/
def acceptReply [F32 F] (index : Nat) (addr : Addr) (session : SessionId) (batch seq : Nat)
    (reply : Option Msg) : Except (ChainError Addr) (Hidden F) :=
  match reply with
  | some (.forwardHidden f) =>
      if f.sessionId ≠ session then
        .error (.dropped index addr (.unexpected (.forwardHidden f)))
      else if f.dtype = .bf16 then .error (.dropped index addr (.dtype f.dtype))
      else
        match decodeHidden ⟨f.dtype, f.shape, f.payload⟩ with
        | .error e => .error (.other (.hidden e))
        | .ok (shape, data) =>
            if shape.batch.toNat ≠ batch ∨ shape.seq.toNat ≠ seq then
              .error (.dropped index addr (.shapeMismatch batch seq shape))
            else
              match Hidden.new data [shape.batch.toNat, shape.seq.toNat, shape.hidden.toNat] with
              | .error e => .error (.other (.hidden e))
              | .ok h => .ok h
  | some (.abortSession _ reason) => .error (.aborted index addr reason)
  | some other => .error (.dropped index addr (.unexpected other))
  | none => .error (.dropped index addr .closedBeforeReply)

/-- One hop of a step: send the hidden state to the peer and take its reply. -/
def Link.hop [F32 F] (dtype : Dtype) (phase : Phase) (keep : Option UInt32) (index : Nat)
    (link : Link Addr Conn) (cur : Hidden F) (w : W) :
    Except (ChainError Addr) (Hidden F) × Link Addr Conn × W :=
  let link := { link with seq := link.seq + 1 }
  match cur.shape with
  | [b, s, h] =>
      match encodeHiddenWith cur.data ⟨UInt32.ofNat b, UInt32.ofNat s, UInt32.ofNat h⟩ dtype with
      | .error e => (.error (.other (.hidden e)), link, w)
      | .ok p =>
          let req : Forward :=
            { sessionId := link.session, seq := link.seq, phase, dtype := p.dtype, shape := p.shape,
              payload := p.bytes, kvDelta := none, kvTruncateTo := keep }
          match link.writeWithTimeout net cd (.forwardHidden req) index w with
          | (.error e, w) => (.error e, link, w)
          | (.ok (), w) =>
              match link.readWithTimeout net cd index w with
              | (.error e, link, w) => (.error e, link, w)
              | (.ok reply, link, w) =>
                  (acceptReply index link.addr link.session b s reply, link, w)
  | shape => (.error (.other (.rank shape)), link, w)

/-- The hops from `index` on, each fed with what the one before returned. -/
def hops [F32 F] (dtype : Dtype) (phase : Phase) (keep : Option UInt32) :
    Nat → List (Link Addr Conn) → Hidden F → W →
      Except (ChainError Addr) (Hidden F) × List (Link Addr Conn) × W
  | _, [], cur, w => (.ok cur, [], w)
  | index, link :: links, cur, w =>
      match link.hop net cd dtype phase keep index cur w with
      | (.error e, link, w) => (.error e, link :: links, w)
      | (.ok cur, link, w) =>
          let (r, links, w) := hops dtype phase keep (index + 1) links cur w
          (r, link :: links, w)

/-- `step_with_truncate`: every peer first cuts its KV caches to `keep` entries, if given. -/
def Chain.stepWithTruncate [F32 F] (chain : Chain Addr Conn) (front : Hidden F) (phase : Phase)
    (keep : Option UInt32) (w : W) :
    Except (ChainError Addr) (Hidden F) × Chain Addr Conn × W :=
  let (r, links, w) := hops net cd chain.cfg.wireDtype phase keep 0 chain.links front w
  (r, { chain with links }, w)

def Chain.step [F32 F] (chain : Chain Addr Conn) (front : Hidden F) (phase : Phase) (w : W) :
    Except (ChainError Addr) (Hidden F) × Chain Addr Conn × W :=
  chain.stepWithTruncate net cd front phase none w

end Io

end IntelNav.Runtime
