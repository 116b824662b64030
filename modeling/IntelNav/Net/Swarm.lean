import Mathlib.Data.List.AList

/-! The swarm task of a node (`crates/net/src/swarm.rs`): calls that are answered over channels, and
what the network tells about peers and queries. -/

set_option autoImplicit false
set_option relaxedAutoImplicit false

namespace IntelNav.Net

abbrev Value := List UInt8

variable {Peer Addr Key Query : Type}

structure IdentifiedPeer (Peer Addr : Type) where
  peerId : Peer
  protocolVersion : String
  agentVersion : String
  listenAddrs : List Addr
  deriving DecidableEq

inductive Reply (Peer Addr : Type)
  | dialed (result : Except String Unit)
  | identified (peer : IdentifiedPeer Peer Addr)
  | bootstrapped (result : Except String Unit)
  | announced (result : Except String Unit)
  | records (result : Except String (List Value))
  deriving DecidableEq

inductive QueryKind
  | put
  | get
  | bootstrap
  deriving DecidableEq

inductive Request (Key : Type)
  | announceShard (key : Key) (value : Value)
  | getShardProviders (key : Key)
  | bootstrap
  deriving DecidableEq

def Request.kind : Request Key → QueryKind
  | .announceShard .. => .put
  | .getShardProviders _ => .get
  | .bootstrap => .bootstrap

/-- What passes between the swarm task, its callers and the network. -/
inductive Observation (Peer Addr Key Query : Type)
  | asked (channel : Nat)
  | identified (peer : IdentifiedPeer Peer Addr)
  | started (id : Query) (channel : Nat) (request : Request Key)
  | found (id : Query) (value : Value)
  | failed (id : Query) (error : String)
  | ended (id : Query) (kind : QueryKind)
  | replied (channel : Nat) (reply : Reply Peer Addr)
  | gaveUp (channel : Nat)
  | lost (channel : Nat) (peer : IdentifiedPeer Peer Addr)
  deriving DecidableEq

/-- A command, with what the network layer says to it at once, an event of the network, or a caller
that gives up. -/
inductive SwarmEvent (Peer Addr Key Query : Type)
  | dial (addr : Addr) (result : Except String Unit)
  | nextIdentified
  | addBootstrap (peer : Peer) (addr : Addr)
  | bootstrap (started : Except String Query)
  | announceShard (key : Key) (value : Value) (started : Except String Query)
  | getShardProviders (key : Key) (started : Query)
  /-- `Command::Shutdown`, or every handle is gone. -/
  | shutdown
  | identifyReceived (peer : IdentifiedPeer Peer Addr)
  | putRecord (id : Query) (result : Except String Unit)
  | foundRecord (id : Query) (value : Value)
  | finishedWithNoAdditionalRecord (id : Query) (last : Bool)
  | getRecordFailed (id : Query) (error : String)
  | bootstrapProgressed (id : Query) (last : Bool) (result : Except String Unit)
  /-- The receiver is dropped. Calls have the numbers in which the task takes them up, so one that
  is given up in the queue has a number still to come. -/
  | giveUp (channel : Nat)
  /-- A ping, a connection error, another query result. -/
  | other

def SwarmEvent.starts : SwarmEvent Peer Addr Key Query → Option Query
  | .bootstrap (.ok id) => some id
  | .announceShard _ _ (.ok id) => some id
  | .getShardProviders _ id => some id
  | _ => none

def SwarmEvent.asks : SwarmEvent Peer Addr Key Query → Option (Query × Request Key)
  | .bootstrap (.ok id) => some (id, .bootstrap)
  | .announceShard key value (.ok id) => some (id, .announceShard key value)
  | .getShardProviders key id => some (id, .getShardProviders key)
  | _ => none

def Observation.query? : Observation Peer Addr Key Query → Option Query
  | .started id _ _ => some id
  | .found id _ => some id
  | .ended id _ => some id
  | _ => none

/-- The variables of `drive_swarm`, the addresses given to Kademlia, how many channels there have
been, the channels whose receiver is gone, and what was observed so far, the latest first. -/
structure Driver (Peer Addr Key Query : Type) where
  pendingId : List (IdentifiedPeer Peer Addr) := []
  idWaiters : List Nat := []
  putWaiters : AList (fun _ : Query => Nat) := ∅
  getWaiters : AList (fun _ : Query => Nat) := ∅
  getBuffers : AList (fun _ : Query => List Value) := ∅
  bootstrapWaiters : AList (fun _ : Query => Nat) := ∅
  stopped : Bool := false
  addresses : List (Peer × Addr) := []
  channels : Nat := 0
  gone : List Nat := []
  history : List (Observation Peer Addr Key Query) := []

namespace Driver

def observe (d : Driver Peer Addr Key Query) (o : Observation Peer Addr Key Query) :
    Driver Peer Addr Key Query :=
  { d with history := o :: d.history }

def newChannel (d : Driver Peer Addr Key Query) : Driver Peer Addr Key Query :=
  { d with channels := d.channels + 1 }

def waiters (d : Driver Peer Addr Key Query) : QueryKind → AList (fun _ : Query => Nat)
  | .put => d.putWaiters
  | .get => d.getWaiters
  | .bootstrap => d.bootstrapWaiters

def setWaiters (d : Driver Peer Addr Key Query) (kind : QueryKind)
    (m : AList fun _ : Query => Nat) : Driver Peer Addr Key Query :=
  match kind with
  | .put => { d with putWaiters := m }
  | .get => { d with getWaiters := m }
  | .bootstrap => { d with bootstrapWaiters := m }

def setBuffers (d : Driver Peer Addr Key Query) (m : AList fun _ : Query => List Value) :
    Driver Peer Addr Key Query :=
  { d with getBuffers := m }

/-- `let _ = done.send(peer)`: without a receiver the peer is dropped. -/
def sendPeer (d : Driver Peer Addr Key Query) (channel : Nat) (peer : IdentifiedPeer Peer Addr) :
    Driver Peer Addr Key Query :=
  let sent := d.observe (.replied channel (.identified peer))
  if channel ∈ d.gone then sent.observe (.lost channel peer) else sent

def onNextIdentified (d : Driver Peer Addr Key Query) : Driver Peer Addr Key Query :=
  let called := d.newChannel.observe (.asked d.channels)
  match d.pendingId with
  | peer :: pendingId => { called with pendingId }.sendPeer d.channels peer
  | [] => { called with idWaiters := d.idWaiters ++ [d.channels] }

/-- `identify::Event::Received`. -/
def onIdentified (d : Driver Peer Addr Key Query) (peer : IdentifiedPeer Peer Addr) :
    Driver Peer Addr Key Query :=
  let learned := { d with
    addresses := d.addresses ++ peer.listenAddrs.map fun addr => (peer.peerId, addr)
    history := .identified peer :: d.history }
  match d.idWaiters with
  | w :: idWaiters => { learned with idWaiters }.sendPeer w peer
  | [] => { learned with pendingId := d.pendingId ++ [peer] }

def onGiveUp (d : Driver Peer Addr Key Query) (channel : Nat) : Driver Peer Addr Key Query :=
  { d with gone := channel :: d.gone }.observe (.gaveUp channel)

section Queries

variable [DecidableEq Query]

def start (d : Driver Peer Addr Key Query) (id : Query) (request : Request Key) :
    Driver Peer Addr Key Query :=
  ((d.setWaiters request.kind ((d.waiters request.kind).insert id d.channels)).newChannel).observe
    (.started id d.channels request)

def settle (d : Driver Peer Addr Key Query) (kind : QueryKind) (id : Query)
    (reply : Reply Peer Addr) : Driver Peer Addr Key Query :=
  match (d.waiters kind).lookup id with
  | some w => (d.setWaiters kind ((d.waiters kind).erase id)).observe (.replied w reply)
  | none => d

def onBootstrap (d : Driver Peer Addr Key Query) : Except String Query →
    Driver Peer Addr Key Query
  | .ok id => d.start id .bootstrap
  | .error e =>
      d.newChannel.observe (.replied d.channels (.bootstrapped (.error s!"bootstrap: {e}")))

def onAnnounceShard (d : Driver Peer Addr Key Query) (key : Key) (value : Value) :
    Except String Query → Driver Peer Addr Key Query
  | .ok id => d.start id (.announceShard key value)
  | .error e =>
      d.newChannel.observe (.replied d.channels (.announced (.error s!"put_record: {e}")))

def onGetShardProviders (d : Driver Peer Addr Key Query) (key : Key) (id : Query) :
    Driver Peer Addr Key Query :=
  (d.setBuffers (d.getBuffers.insert id [])).start id (.getShardProviders key)

def onPutRecord (d : Driver Peer Addr Key Query) (id : Query) (result : Except String Unit) :
    Driver Peer Addr Key Query :=
  (d.observe (.ended id .put)).settle .put id
    (.announced (result.mapError fun e => s!"put_record: {e}"))

def onFoundRecord (d : Driver Peer Addr Key Query) (id : Query) (value : Value) :
    Driver Peer Addr Key Query :=
  match d.getBuffers.lookup id with
  | some buf => (d.setBuffers (d.getBuffers.insert id (buf ++ [value]))).observe (.found id value)
  | none => d.observe (.found id value)

def endGet (d : Driver Peer Addr Key Query) (id : Query)
    (reply : List Value → Except String (List Value)) : Driver Peer Addr Key Query :=
  let buf := (d.getBuffers.lookup id).getD []
  ((d.setBuffers (d.getBuffers.erase id)).observe (.ended id .get)).settle .get id
    (.records (reply buf))

def onFinished (d : Driver Peer Addr Key Query) (id : Query) (last : Bool) :
    Driver Peer Addr Key Query :=
  if last then d.endGet id .ok else d

def onGetRecordFailed (d : Driver Peer Addr Key Query) (id : Query) (error : String) :
    Driver Peer Addr Key Query :=
  (d.observe (.failed id error)).endGet id fun buf =>
    if buf = [] then .error s!"get_record: {error}" else .ok buf

def onBootstrapProgressed (d : Driver Peer Addr Key Query) (id : Query) (last : Bool)
    (result : Except String Unit) : Driver Peer Addr Key Query :=
  if last then
    (d.observe (.ended id .bootstrap)).settle .bootstrap id
      (.bootstrapped (result.mapError fun e => s!"bootstrap: {e}"))
  else d

/-- One turn of `drive_swarm`. -/
def turn (d : Driver Peer Addr Key Query) : SwarmEvent Peer Addr Key Query →
    Driver Peer Addr Key Query
  | .dial _ result =>
      d.newChannel.observe (.replied d.channels
        (.dialed (result.mapError fun e => s!"dial: {e}")))
  | .nextIdentified => d.onNextIdentified
  | .addBootstrap peer addr => { d with addresses := d.addresses ++ [(peer, addr)] }
  | .bootstrap started => d.onBootstrap started
  | .announceShard key value started => d.onAnnounceShard key value started
  | .getShardProviders key id => d.onGetShardProviders key id
  | .shutdown => { d with stopped := true }
  | .identifyReceived peer => d.onIdentified peer
  | .putRecord id result => d.onPutRecord id result
  | .foundRecord id value => d.onFoundRecord id value
  | .finishedWithNoAdditionalRecord id last => d.onFinished id last
  | .getRecordFailed id error => d.onGetRecordFailed id error
  | .bootstrapProgressed id last result => d.onBootstrapProgressed id last result
  | .giveUp channel => d.onGiveUp channel
  | .other => d

def step (d : Driver Peer Addr Key Query) (e : SwarmEvent Peer Addr Key Query) :
    Option (Driver Peer Addr Key Query) :=
  if d.stopped then none else some (d.turn e)

end Queries

end Driver

end IntelNav.Net
