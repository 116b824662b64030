import IntelNav.App.Chains
import IntelNav.App.Contribute
import IntelNav.Net.Shards

/-! The host daemon (`crates/app/src/swarm_node.rs`): its tasks, step by step, over the control
state and the sidecar files. -/

set_option autoImplicit false
set_option relaxedAutoImplicit false

namespace IntelNav.App

open IntelNav.Transition IntelNav.Net

structure NodeConfig where
  peerId : String
  listenAddrs : List String
  chunksAddr : Option String
  forwardAddr : Option String

/-- What a task reads from the world at one step: a directory listing, the wall clock, and the
manifest CID found beside the chunks. -/
structure Seen where
  dirs : List String
  mintedAt : UInt64
  manifestCid : Option String

inductive Published
  | shard (key : SliceKey) (record : ProviderRecord)
  | model (env : ModelEnvelope)
  deriving DecidableEq

/-- Where a call of `persist_drained_slices` stands: before `drain_idle`, before loading the
disabled ranges of the next slice, holding them with the slice added, or with the file truncated
and not yet written. -/
inductive Persisting
  | drain
  | range (todo : List SliceKey)
  | loaded (key : SliceKey) (disabled : DisabledRanges) (todo : List SliceKey)
  | truncated (key : SliceKey) (disabled : DisabledRanges) (todo : List SliceKey)

/-- Where `announce_all` stands with one range: before `is_announcing`, before `state_status`,
before `upsert_announcing`, or before `announce_shard`. -/
inductive RangePhase
  | check | status | upsert | publish
  deriving DecidableEq

inductive Announcing
  | idle
  | persist (p : Persisting)
  | scan
  | readKept (todo : List String) (out : List KeptRanges)
  | readDisabled (dir : String) (k : KeptRanges) (todo : List String) (out : List KeptRanges)
  | model (mintedAt : UInt64) (todo : List KeptRanges)
  | range (phase : RangePhase) (k : KeptRanges) (record : ProviderRecord)
      (ranges : List (UInt16 × UInt16)) (todo : List KeptRanges)

/-- The daemon. `announce` is absent when nothing was on disk at boot, `booting` lasts until the
initial announce is done, `leaving` holds the slices a shutdown has still to drain. -/
structure Daemon where
  host : Host
  disk : Shards
  announce : Option Announcing
  persisting : Option Persisting
  booting : Bool
  leaving : Option (List SliceKey)
  published : List Published

inductive Event
  | chain (o : Op)
  | request (req : Request)
  | contributing (cid : String)
  | contribute (k : KeptRanges)
  | announceTick
  | announce (seen : Seen)
  | watchdogExpired
  | watchdogForceStop
  | watchdogPersist
  | signal
  | shutdownDrain

/-- The clock and the chains, as opposed to what the daemon's own tasks call. -/
def Op.isChain : Op → Bool
  | .tick _ | .acceptChain _ | .release _ | .dropGuard _ | .detachedRelease _ => true
  | _ => false

namespace Persisting

def next : List SliceKey → Option Persisting
  | [] => none
  | todo => some (.range todo)

/-- One step of `persist_drained_slices`; `none` when it returns. -/
def step (host : Host) (disk : Shards) : Persisting → Host × Shards × Option Persisting
  | .drain =>
      ({ host with control := host.control.drainIdle.2 }, disk, next host.control.drainIdle.1)
  | .range [] => (host, disk, none)
  | .range (key :: todo) =>
      (host, disk, some (.loaded key ((disk.loadDisabled key.1).add key.2.1 key.2.2) todo))
  | .loaded key disabled todo =>
      (host, disk.writeDisabled key.1 none, some (.truncated key disabled todo))
  | .truncated key disabled todo => (host, disk.writeDisabled key.1 (some disabled), next todo)

/-- Only `drain_idle` touches the control state. -/
def op : Persisting → Option Op
  | .drain => some .drainIdle
  | _ => none

end Persisting

/-- `k.kept.retain(..)`: the ranges not disabled. -/
def KeptRanges.retain (k : KeptRanges) (disabled : DisabledRanges) : KeptRanges :=
  { k with kept := k.kept.filter fun r => !disabled.contains r.1 r.2 }

/-- The record `announce_all` publishes for the ranges of one model. -/
def NodeConfig.record (cfg : NodeConfig) (mintedAt : UInt64) (manifestCid : Option String) :
    ProviderRecord where
  peerId := cfg.peerId
  addrs := cfg.listenAddrs
  chunksUrl := cfg.chunksAddr
  manifestCid := manifestCid
  forwardUrl := cfg.forwardAddr
  mintedAt := mintedAt

def KeptRanges.envelope (k : KeptRanges) : ModelEnvelope where
  cid := k.modelCid
  displayName := k.displayName
  arch := ""
  blockCount := k.blockCount.toUInt32
  totalBytes := 0
  quant := ""

namespace Announcing

/-- One step of the announce loop: `persist_drained_slices`, `scan_kept_ranges`, `announce_all`. -/
def step (cfg : NodeConfig) (seen : Seen) (host : Host) (disk : Shards) :
    Announcing → Option (Host × Shards × Announcing × List Published)
  | .idle => none
  | .persist p =>
      let (host', disk', p') := p.step host disk
      some (host', disk', p'.elim .scan .persist, [])
  | .scan =>
      if seen.dirs.isPerm disk.keys then some (host, disk, .readKept seen.dirs [], []) else none
  | .readKept [] out => some (host, disk, .model seen.mintedAt out, [])
  | .readKept (dir :: todo) out =>
      match disk.kept dir with
      | none => some (host, disk, .readKept todo out, [])
      | some k => some (host, disk, .readDisabled dir k todo out, [])
  | .readDisabled dir k todo out =>
      let k' := k.retain (disk.loadDisabled dir)
      some (host, disk, .readKept todo (if k'.kept = [] then out else out ++ [k']), [])
  | .model _ [] => some (host, disk, .idle, [])
  | .model mintedAt (k :: todo) =>
      some (host, disk, .range .check k (cfg.record mintedAt seen.manifestCid) k.kept todo, [])
  | .range _ k record [] todo =>
      some (host, disk, .model record.mintedAt todo, [.model k.envelope])
  | .range .check k record (r :: ranges) todo =>
      let phase := if host.control.isAnnouncing (k.modelCid, r) then .publish else .status
      some (host, disk, .range phase k record (r :: ranges) todo, [])
  | .range .status k record (r :: ranges) todo =>
      match host.control.status (k.modelCid, r) with
      | some .stopped | none => some (host, disk, .range .upsert k record (r :: ranges) todo, [])
      | some _ => some (host, disk, .range .check k record ranges todo, [])
  | .range .upsert k record (r :: ranges) todo =>
      some ({ host with control := host.control.upsertAnnouncing (k.modelCid, r) k.displayName },
        disk, .range .publish k record (r :: ranges) todo, [])
  | .range .publish k record (r :: ranges) todo =>
      some (host, disk, .range .check k record ranges todo, [.shard (k.modelCid, r) record])

/-- The operation on the control state that the next step performs, if any. -/
def op : Announcing → Option Op
  | .persist p => p.op
  | .range .upsert k _ (r :: _) _ => some (.upsertAnnouncing (k.modelCid, r) k.displayName)
  | _ => none

/-- The steps of the announce loop, each with what it needs and what it leaves. -/
inductive Moves (cfg : NodeConfig) (seen : Seen) (host : Host) (disk : Shards) :
    Announcing → Host → Shards → Announcing → List Published → Prop
  | persist (p : Persisting) :
      Moves cfg seen host disk (.persist p) (p.step host disk).1 (p.step host disk).2.1
        ((p.step host disk).2.2.elim .scan .persist) []
  | scan (hperm : seen.dirs.Perm disk.keys) :
      Moves cfg seen host disk .scan host disk (.readKept seen.dirs []) []
  | scanned (out : List KeptRanges) :
      Moves cfg seen host disk (.readKept [] out) host disk (.model seen.mintedAt out) []
  | noSidecar {dir : String} (todo : List String) (out : List KeptRanges)
      (hnone : disk.kept dir = none) :
      Moves cfg seen host disk (.readKept (dir :: todo) out) host disk (.readKept todo out) []
  | sidecar {dir : String} {k : KeptRanges} (todo : List String) (out : List KeptRanges)
      (hkept : disk.kept dir = some k) :
      Moves cfg seen host disk (.readKept (dir :: todo) out) host disk
        (.readDisabled dir k todo out) []
  | retain (dir : String) (k : KeptRanges) (todo : List String) (out : List KeptRanges) :
      Moves cfg seen host disk (.readDisabled dir k todo out) host disk
        (.readKept todo (if (k.retain (disk.loadDisabled dir)).kept = [] then out
          else out ++ [k.retain (disk.loadDisabled dir)])) []
  | finish (mintedAt : UInt64) : Moves cfg seen host disk (.model mintedAt []) host disk .idle []
  | model (mintedAt : UInt64) (k : KeptRanges) (todo : List KeptRanges) :
      Moves cfg seen host disk (.model mintedAt (k :: todo)) host disk
        (.range .check k (cfg.record mintedAt seen.manifestCid) k.kept todo) []
  | envelope (phase : RangePhase) (k : KeptRanges) (record : ProviderRecord)
      (todo : List KeptRanges) :
      Moves cfg seen host disk (.range phase k record [] todo) host disk
        (.model record.mintedAt todo) [.model k.envelope]
  | check (k : KeptRanges) (record : ProviderRecord) (r : UInt16 × UInt16)
      (ranges : List (UInt16 × UInt16)) (todo : List KeptRanges) :
      Moves cfg seen host disk (.range .check k record (r :: ranges) todo) host disk
        (.range (if host.control.isAnnouncing (k.modelCid, r) then .publish else .status) k record
          (r :: ranges) todo) []
  | absent {k : KeptRanges} {r : UInt16 × UInt16} (record : ProviderRecord)
      (ranges : List (UInt16 × UInt16)) (todo : List KeptRanges)
      (hstatus : host.control.status (k.modelCid, r) = none ∨
        host.control.status (k.modelCid, r) = some .stopped) :
      Moves cfg seen host disk (.range .status k record (r :: ranges) todo) host disk
        (.range .upsert k record (r :: ranges) todo) []
  | skip {k : KeptRanges} {r : UInt16 × UInt16} {st : SliceStatus} (record : ProviderRecord)
      (ranges : List (UInt16 × UInt16)) (todo : List KeptRanges)
      (hstatus : host.control.status (k.modelCid, r) = some st) (hst : st ≠ .stopped) :
      Moves cfg seen host disk (.range .status k record (r :: ranges) todo) host disk
        (.range .check k record ranges todo) []
  | upsert (k : KeptRanges) (record : ProviderRecord) (r : UInt16 × UInt16)
      (ranges : List (UInt16 × UInt16)) (todo : List KeptRanges) :
      Moves cfg seen host disk (.range .upsert k record (r :: ranges) todo)
        { host with control := host.control.upsertAnnouncing (k.modelCid, r) k.displayName } disk
        (.range .publish k record (r :: ranges) todo) []
  | publish (k : KeptRanges) (record : ProviderRecord) (r : UInt16 × UInt16)
      (ranges : List (UInt16 × UInt16)) (todo : List KeptRanges) :
      Moves cfg seen host disk (.range .publish k record (r :: ranges) todo) host disk
        (.range .check k record ranges todo) [.shard (k.modelCid, r) record]

theorem moves_of_step {cfg : NodeConfig} {seen : Seen} {a a' : Announcing} {host host' : Host}
    {disk disk' : Shards} {log : List Published}
    (hs : a.step cfg seen host disk = some (host', disk', a', log)) :
    a.Moves cfg seen host disk host' disk' a' log := by
  unfold step at hs
  split at hs
  · cases hs
  · cases hs
    exact .persist _
  · obtain ⟨hperm, hs⟩ := Option.ite_none_right_eq_some.mp hs
    cases hs
    exact .scan (List.isPerm_iff.mp hperm)
  · cases hs
    exact .scanned _
  · split at hs
    · rename_i hnone
      cases hs
      exact .noSidecar _ _ hnone
    · rename_i k hkept
      cases hs
      exact .sidecar _ _ hkept
  · cases hs
    exact .retain _ _ _ _
  · cases hs
    exact .finish _
  · cases hs
    exact .model _ _ _
  · cases hs
    exact .envelope _ _ _ _
  · cases hs
    exact .check _ _ _ _ _
  · split at hs
    · rename_i hstatus
      cases hs
      exact .absent _ _ _ (.inr hstatus)
    · rename_i hstatus
      cases hs
      exact .absent _ _ _ (.inl hstatus)
    · rename_i st hst hstatus
      cases hs
      exact .skip _ _ _ hstatus hst
  · cases hs
    exact .upsert _ _ _ _ _
  · cases hs
    exact .publish _ _ _ _ _

end Announcing

/-- `scan_kept_ranges` with nobody writing meanwhile. -/
def scanKeptRanges (disk : Shards) (dirs : List String) : List KeptRanges :=
  dirs.filterMap fun dir =>
    (disk.kept dir).bind fun k =>
      let k' := k.retain (disk.loadDisabled dir)
      if k'.kept = [] then none else some k'

namespace Daemon

/-- Boot: seed the control state from the sidecars and start the initial announce. -/
def boot (peerId : String) (now : Nat) (seen : Seen) (disk : Shards) : Daemon :=
  let kept := scanKeptRanges disk seen.dirs
  let seed := kept.foldl (fun st k =>
    k.kept.foldl (fun st r => st.upsertAnnouncing (k.modelCid, r) k.displayName) st)
    (ControlState.new peerId now)
  { host := { Host.new peerId now with control := seed }
    disk
    announce := if kept = [] then none else some (.model seen.mintedAt kept)
    persisting := none
    booting := kept ≠ []
    leaving := none
    published := [] }

/-- One step of one task; `none` when that task is not there. -/
def step (cfg : NodeConfig) (d : Daemon) : Event → Option Daemon
  | .contributing cid => some { d with disk := d.disk.writeKept cid none }
  | .contribute k => some { d with disk := d.disk.writeKept k.modelCid (some k) }
  | .announce seen =>
      (d.announce.bind (Announcing.step cfg seen d.host d.disk)).map fun (host, disk, a, log) =>
        { d with
          host, disk, announce := some a
          booting := d.booting && !(a matches .idle)
          published := log ++ d.published }
  | .chain (.tick elapsed) => (d.host.step (.tick elapsed)).map fun host => { d with host }
  | .chain o =>
      if o.isChain && !d.booting then (d.host.step o).map fun host => { d with host } else none
  | .request req =>
      if d.booting then none
      else
        some { d with
          host := { d.host with control := (dispatch d.host.control d.host.now req).2 } }
  | .announceTick =>
      if !d.booting && d.announce matches some .idle then
        some { d with announce := some (.persist .drain) }
      else none
  | .watchdogExpired =>
      if d.booting || d.persisting.isSome then none
      else (d.host.step .watchdogExpired).map fun host => { d with host }
  | .watchdogForceStop =>
      (d.host.step .watchdogForceStop).map fun host => { d with host, persisting := some .drain }
  | .watchdogPersist =>
      d.persisting.map fun p =>
        let (host, disk, persisting) := p.step d.host d.disk
        { d with host, disk, persisting }
  | .signal =>
      if d.booting || d.leaving.isSome then none
      else some { d with leaving := some (d.host.control.keysWhere (·.state = .announcing)) }
  | .shutdownDrain =>
      match d.leaving with
      | some (key :: rest) =>
          some { d with
            host := { d.host with control := (d.host.control.beginDrain d.host.now key).2 }
            leaving := some rest }
      | _ => none

def Performs (host : Host) (o : Option Op) (host' : Host) : Prop :=
  match o with
  | some o => host.step o = some host'
  | none => host' = host

/-- The operation on the control state that an event performs, if any. -/
def opOf (d : Daemon) : Event → Option Op
  | .chain o => some o
  | .request (.join cid start stop) => some (.upsertAnnouncing (cid, start, stop) "")
  | .request (.leave cid start stop) => some (.beginDrain (cid, start, stop))
  | .announce _ => d.announce.bind Announcing.op
  | .watchdogExpired => some .watchdogExpired
  | .watchdogForceStop => some .watchdogForceStop
  | .watchdogPersist => d.persisting.bind Persisting.op
  | .shutdownDrain => d.leaving.bind fun todo => todo.head?.map .beginDrain
  | _ => none

private theorem persisting_performs (p : Persisting) (host : Host) (disk : Shards) :
    Performs host p.op (p.step host disk).1 := by
  cases p with
  | range todo => cases todo <;> rfl
  | _ => rfl

private theorem announcing_performs {cfg : NodeConfig} {seen : Seen} {a a' : Announcing}
    {host host' : Host} {disk disk' : Shards} {log : List Published}
    (hs : a.step cfg seen host disk = some (host', disk', a', log)) :
    Performs host a.op host' := by
  cases Announcing.moves_of_step hs with
  | persist p => exact persisting_performs p host disk
  | upsert k record r ranges todo => rfl
  | envelope phase => cases phase <;> rfl
  | _ => rfl

theorem step_performs {cfg : NodeConfig} {d d' : Daemon} {ev : Event}
    (hs : d.step cfg ev = some d') : Performs d.host (d.opOf ev) d'.host := by
  cases ev with
  | contributing | contribute =>
      obtain rfl := Option.some.inj hs
      rfl
  | chain o => cases o <;> grind [step, opOf, Performs, Option.map_eq_some_iff]
  | request req =>
      obtain ⟨-, hs⟩ := Option.ite_none_left_eq_some.mp hs
      obtain rfl := Option.some.inj hs
      cases req with
      | leave cid start stop =>
          simp only [opOf, Performs, Host.step, dispatch, Option.some.injEq]
          split <;> rfl
      | _ => rfl
  | announceTick =>
      obtain ⟨-, hs⟩ := Option.ite_none_right_eq_some.mp hs
      obtain rfl := Option.some.inj hs
      rfl
  | announce seen =>
      obtain ⟨⟨host, disk, a', log⟩, hstep, rfl⟩ := Option.map_eq_some_iff.mp hs
      obtain ⟨a, ha, hstep⟩ := Option.bind_eq_some_iff.mp hstep
      simpa only [opOf, ha, Option.bind_some] using announcing_performs hstep
  | watchdogExpired => grind [step, opOf, Performs, Option.map_eq_some_iff]
  | watchdogForceStop => grind [step, opOf, Performs, Option.map_eq_some_iff]
  | watchdogPersist =>
      obtain ⟨p, hp, rfl⟩ := Option.map_eq_some_iff.mp hs
      simpa only [opOf, hp, Option.bind_some] using persisting_performs p d.host d.disk
  | signal =>
      obtain ⟨-, hs⟩ := Option.ite_none_left_eq_some.mp hs
      obtain rfl := Option.some.inj hs
      rfl
  | shutdownDrain => grind [step, opOf, Performs, Host.step]

end Daemon

end IntelNav.App
