import Mathlib.Data.Finset.Card
import Mathlib.Data.List.AList
import IntelNav.ModelStore.Gguf
import IntelNav.Transition.Run

/-! The swarm driver of a node: chunk fetches over provider queries and requests to peers. -/

set_option autoImplicit false
set_option relaxedAutoImplicit false

namespace IntelNav.ModelStore

open IntelNav.Transition

variable {Peer Query Request : Type}

inductive ChunkResponse
  | bytes (bytes : Bytes)
  | notFound
  deriving DecidableEq

inductive FetchError
  | noProviders (cid : String)
  | getProviders (error : String)
  | sizeMismatch (cid : String) (expected got : UInt64)
  | hashMismatch (cid actual : String)
  | allNotFound (tried : Nat) (cid : String)
  | outboundFailure (error : String)
  deriving DecidableEq

def FetchError.message : FetchError → String
  | .noProviders cid => s!"no providers found for chunk {cid}"
  | .getProviders error => s!"kad get_providers: {error}"
  | .sizeMismatch cid expected got => s!"chunk {cid} size mismatch: expected {expected}, got {got}"
  | .hashMismatch cid actual => s!"chunk hash mismatch: expected {cid}, got {actual}"
  | .allNotFound tried cid => s!"all {tried} providers returned NotFound for chunk {cid}"
  | .outboundFailure error => s!"reqres outbound failure: {error}"

/-- The fetch failed on an answer to one of its requests, not on its provider query. -/
def FetchError.OfAnswer : FetchError → Prop
  | .sizeMismatch .. | .hashMismatch .. | .allNotFound .. | .outboundFailure _ => True
  | .noProviders _ | .getProviders _ => False

abbrev FetchReply := Except FetchError Bytes

structure PendingFetch (Peer : Type) where
  expectedSize : UInt64
  providersFound : Finset Peer
  providersTried : Finset Peer
  waiter : Nat

/-- What passes between the driver, its callers and the network. -/
inductive Observation (Peer Request : Type)
  | fetched (waiter : Nat) (cid : String) (expectedSize : UInt64)
  | reported (cid : String) (providers : List Peer)
  | asked (request : Request) (peer : Peer) (cid : String)
  | answered (request : Request)
  | replied (waiter : Nat) (cid : String) (reply : FetchReply)

/-- The ids the network layer gives to the provider queries and to the requests, in the order in
which they are started. -/
structure Ids (Query Request : Type) where
  query : Nat → Query
  request : Nat → Request

/-- The maps of the driver, how many fetches and requests there have been, and what was observed so
far, the latest first. -/
structure Driver (Peer Query Request : Type) where
  pendingFetch : AList (fun _ : String => PendingFetch Peer) := ∅
  reqToCid : AList (fun _ : Request => String) := ∅
  providerQuery : AList (fun _ : Query => String) := ∅
  fetches : Nat := 0
  requests : Nat := 0
  history : List (Observation Peer Request) := []

/-- What the driver is woken by. A hash set of providers comes as the list of its members in the
order in which it is iterated. -/
inductive SwarmEvent (Peer Query Request : Type)
  | fetch (cid : String) (expectedSize : UInt64)
  | foundProviders (id : Query) (providers : List Peer)
  | finishedWithNoAdditionalRecord (id : Query)
  | getProvidersFailed (id : Query) (error : String)
  | response (id : Request) (response : ChunkResponse) (order : List Peer)
  | outboundFailure (id : Request) (error : String)
  /-- An announcement, a dial, a request of a peer, an identification. -/
  | other

/-- `order` lists a set of providers. -/
def Enumerates [DecidableEq Peer] (order : List Peer) (providers : Finset Peer) : Prop :=
  order.Nodup ∧ order.toFinset = providers

instance [DecidableEq Peer] (order : List Peer) (providers : Finset Peer) :
    Decidable (Enumerates order providers) :=
  inferInstanceAs (Decidable (_ ∧ _))

/-- `u64::MAX`, with which a caller leaves the size open. -/
def anySize : UInt64 := 0xffffffffffffffff

def PendingFetch.check (h : Hashing) (pf : PendingFetch Peer) (cid : String) (bytes : Bytes) :
    FetchReply :=
  let got := UInt64.ofNat bytes.length
  if ¬ (pf.expectedSize = anySize ∨ got = pf.expectedSize) then
    .error (.sizeMismatch cid pf.expectedSize got)
  else
    let actual := h.cidStringFromSha256 (h.sha256 bytes)
    if actual ≠ cid then .error (.hashMismatch cid actual) else .ok bytes

theorem PendingFetch.check_cases (h : Hashing) (pf : PendingFetch Peer) (cid : String)
    (bytes : Bytes) :
    (pf.expectedSize = anySize ∨ UInt64.ofNat bytes.length = pf.expectedSize) ∧
        h.cidStringFor bytes = cid ∧ pf.check h cid bytes = .ok bytes ∨
      ¬ ((pf.expectedSize = anySize ∨ UInt64.ofNat bytes.length = pf.expectedSize) ∧
        h.cidStringFor bytes = cid) ∧ ∃ e, e.OfAnswer ∧ pf.check h cid bytes = .error e := by
  simp only [check]
  split
  · rename_i hsize
    exact .inr ⟨fun hok => hsize hok.1, FetchError.sizeMismatch _ _ _, trivial, rfl⟩
  · rename_i hsize
    split
    · rename_i hcid
      exact .inr ⟨fun hok => hcid hok.2, FetchError.hashMismatch _ _, trivial, rfl⟩
    · rename_i hcid
      exact .inl ⟨not_not.mp hsize, not_not.mp hcid, rfl⟩

namespace Driver

def observe (d : Driver Peer Query Request) (o : Observation Peer Request) :
    Driver Peer Query Request :=
  { d with history := o :: d.history }

section Send

variable [DecidableEq Request]

/-- `ChunkRequest::Get` of the CID to the peer. -/
def sendRequest (ids : Ids Query Request) (d : Driver Peer Query Request) (peer : Peer)
    (cid : String) : Driver Peer Query Request :=
  let id := ids.request d.requests
  { d with
    requests := d.requests + 1
    reqToCid := d.reqToCid.insert id cid
    history := .asked id peer cid :: d.history }

end Send

variable [DecidableEq Peer] [DecidableEq Query] [DecidableEq Request]

/-- `Command::Fetch`. -/
def onFetch (ids : Ids Query Request) (d : Driver Peer Query Request) (cid : String)
    (expectedSize : UInt64) : Driver Peer Query Request :=
  { d with
    providerQuery := d.providerQuery.insert (ids.query d.fetches) cid
    pendingFetch := d.pendingFetch.insert cid
      { expectedSize, providersFound := ∅, providersTried := ∅, waiter := d.fetches }
    fetches := d.fetches + 1
    history := .fetched d.fetches cid expectedSize :: d.history }

/-- `FoundProviders`: the first provider of the batch that is untried is asked. -/
def onFoundProviders (ids : Ids Query Request) (d : Driver Peer Query Request) (cid : String)
    (providers : List Peer) : Driver Peer Query Request :=
  let d := d.observe (.reported cid providers)
  match d.pendingFetch.lookup cid with
  | none => d
  | some pf =>
      let pf := { pf with providersFound := providers.toFinset ∪ pf.providersFound }
      match providers.find? (· ∉ pf.providersTried) with
      | none => { d with pendingFetch := d.pendingFetch.insert cid pf }
      | some peer =>
          let pf := { pf with providersTried := insert peer pf.providersTried }
          sendRequest ids { d with pendingFetch := d.pendingFetch.insert cid pf } peer cid

def settle (d : Driver Peer Query Request) (cid : String) (pf : PendingFetch Peer)
    (reply : FetchReply) : Driver Peer Query Request :=
  { d with
    pendingFetch := d.pendingFetch.erase cid
    history := .replied pf.waiter cid reply :: d.history }

def onFinished (d : Driver Peer Query Request) (cid : String) : Driver Peer Query Request :=
  match d.pendingFetch.lookup cid with
  | none => d
  | some pf =>
      if pf.providersFound = ∅ then d.settle cid pf (.error (.noProviders cid))
      else { d with pendingFetch := (d.pendingFetch.erase cid).insert cid pf }

def onGetProvidersFailed (d : Driver Peer Query Request) (cid : String) (error : String) :
    Driver Peer Query Request :=
  match d.pendingFetch.lookup cid with
  | none => d
  | some pf => d.settle cid pf (.error (.getProviders error))

/-- `NotFound`: the first untried provider of those found is asked, if there is one. -/
def onNotFound (ids : Ids Query Request) (d : Driver Peer Query Request) (cid : String)
    (pf : PendingFetch Peer) (order : List Peer) : Option (Driver Peer Query Request) :=
  if Enumerates order pf.providersFound then
    match order.find? (· ∉ pf.providersTried) with
    | some peer =>
        let pf := { pf with providersTried := insert peer pf.providersTried }
        some (sendRequest ids { d with pendingFetch := (d.pendingFetch.erase cid).insert cid pf }
          peer cid)
    | none => some (d.settle cid pf (.error (.allNotFound pf.providersTried.card cid)))
  else none

def takeRequest (d : Driver Peer Query Request) (id : Request) : Driver Peer Query Request :=
  { d with reqToCid := d.reqToCid.erase id, history := .answered id :: d.history }

def onResponse (h : Hashing) (ids : Ids Query Request) (d : Driver Peer Query Request)
    (id : Request) (response : ChunkResponse) (order : List Peer) :
    Option (Driver Peer Query Request) :=
  match d.reqToCid.lookup id with
  | none => some (d.takeRequest id)
  | some cid =>
      match d.pendingFetch.lookup cid with
      | none => some (d.takeRequest id)
      | some pf =>
          match response with
          | .bytes bytes => some ((d.takeRequest id).settle cid pf (pf.check h cid bytes))
          | .notFound => onNotFound ids (d.takeRequest id) cid pf order

def onOutboundFailure (d : Driver Peer Query Request) (id : Request) (error : String) :
    Driver Peer Query Request :=
  match d.reqToCid.lookup id with
  | none => d.takeRequest id
  | some cid =>
      match d.pendingFetch.lookup cid with
      | none => d.takeRequest id
      | some pf => (d.takeRequest id).settle cid pf (.error (.outboundFailure error))

/-- One turn of `drive_swarm`; an event that lists a set wrongly does not occur. -/
def step (h : Hashing) (ids : Ids Query Request) (d : Driver Peer Query Request) :
    SwarmEvent Peer Query Request → Option (Driver Peer Query Request)
  | .fetch cid expectedSize => some (d.onFetch ids cid expectedSize)
  | .foundProviders id providers =>
      match d.providerQuery.lookup id with
      | none => some d
      | some cid => some (d.onFoundProviders ids cid providers)
  | .finishedWithNoAdditionalRecord id =>
      match d.providerQuery.lookup id with
      | none => some d
      | some cid => some (d.onFinished cid)
  | .getProvidersFailed id error =>
      match d.providerQuery.lookup id with
      | none => some d
      | some cid => some (d.onGetProvidersFailed cid error)
  | .response id response order => d.onResponse h ids id response order
  | .outboundFailure id error => some (d.onOutboundFailure id error)
  | .other => some d

end Driver

def sampleHashing : Hashing where
  sha256 bytes := bytes
  cidStringFromSha256 bytes := if bytes = [1, 2, 3] then "bafk123" else "bafk"

def sampleIds : Ids Nat Nat := ⟨id, id⟩

end IntelNav.ModelStore
