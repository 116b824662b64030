import Mathlib.Data.List.AList
import Mathlib.Algebra.Order.Ring.Nat
import Mathlib.Data.UInt

/-! The daemon's per-slice state machine (`crates/app/src/control.rs`). -/

set_option autoImplicit false
set_option relaxedAutoImplicit false

namespace IntelNav.App

inductive SliceStatus
  | announcing | draining | stopped
  deriving DecidableEq

/-- `(cid, start, end)`. -/
abbrev SliceKey := String × UInt16 × UInt16

/-- One hosted slice. `drainingSince` is the instant, in nanoseconds, of its last drain. -/
structure SliceEntry where
  displayName : String
  state : SliceStatus
  activeChains : UInt32
  drainingSince : Option Nat
  deriving DecidableEq

/-- Shared state of the control server; the map has one entry a key, in no particular order. -/
structure ControlState where
  peerId : String
  startedAt : Nat
  slices : AList fun _ : SliceKey => SliceEntry

/-- `u32::saturating_add(1)`. -/
def saturatingSucc (n : UInt32) : UInt32 := if n.toNat + 1 < 2 ^ 32 then n + 1 else n

/-- `u32::saturating_sub(1)`. -/
def saturatingPred (n : UInt32) : UInt32 := if n = 0 then 0 else n - 1

namespace ControlState

def new (peerId : String) (startedAt : Nat) : ControlState := ⟨peerId, startedAt, ∅⟩

/-- The entry of `key`, if there is one. -/
def get (st : ControlState) (key : SliceKey) : Option SliceEntry := st.slices.lookup key

/-- `get_mut`: overwrite the entry of `key`. -/
def set (st : ControlState) (key : SliceKey) (entry : SliceEntry) : ControlState :=
  { st with slices := st.slices.insert key entry }

/-- `iter_mut`: rewrite every entry in place. -/
def setAll (st : ControlState) (f : SliceEntry → SliceEntry) : ControlState :=
  { st with
    slices := ⟨st.slices.entries.map (Sigma.map id fun _ => f), st.slices.nodupKeys.map₂ _ _⟩ }

/-- The keys whose entries satisfy `p`. -/
def keysWhere (st : ControlState) (p : SliceEntry → Bool) : List SliceKey :=
  (st.slices.entries.filter fun e => p e.2).map Sigma.fst

@[simp] theorem get_set (st : ControlState) (key key' : SliceKey) (entry : SliceEntry) :
    (st.set key entry).get key' = if key' = key then some entry else st.get key' := by
  unfold get set
  split_ifs with h
  · rw [h, AList.lookup_insert]
  · rw [AList.lookup_insert_ne h]

@[simp] theorem get_setAll (st : ControlState) (f : SliceEntry → SliceEntry) (key : SliceKey) :
    (st.setAll f).get key = (st.get key).map f :=
  List.dlookup_map₂ key

@[simp] theorem get_new (peerId : String) (startedAt : Nat) (key : SliceKey) :
    (new peerId startedAt).get key = none :=
  rfl

private theorem mem_keysWhere {st : ControlState} {p : SliceEntry → Bool} {key : SliceKey} :
    key ∈ st.keysWhere p ↔ ∃ e, st.get key = some e ∧ p e = true := by
  simp only [keysWhere, List.mem_map, List.mem_filter]
  constructor
  · rintro ⟨⟨key, e⟩, ⟨hmem, hp⟩, rfl⟩
    exact ⟨e, AList.mem_lookup_iff.mpr hmem, hp⟩
  · rintro ⟨e, he, hp⟩
    exact ⟨⟨key, e⟩, ⟨AList.mem_lookup_iff.mp he, hp⟩, rfl⟩

/-- `state_status` of the announce loop. -/
def status (st : ControlState) (key : SliceKey) : Option SliceStatus :=
  (st.get key).map SliceEntry.state

/-- The entry `and_modify(..).or_insert(..)` leaves. -/
def upsertEntry (displayName : String) : Option SliceEntry → SliceEntry
  | some e => { e with state := .announcing, displayName }
  | none => ⟨displayName, .announcing, 0, none⟩

def upsertAnnouncing (st : ControlState) (key : SliceKey) (displayName : String) : ControlState :=
  st.set key (upsertEntry displayName (st.get key))

def beginDrain (st : ControlState) (now : Nat) (key : SliceKey) : Bool × ControlState :=
  match st.get key with
  | some e =>
      if e.state = .announcing then
        (true, st.set key { e with state := .draining, drainingSince := some now })
      else (false, st)
  | none => (false, st)

/-- The entry is Draining and has been so, by its own stamp, for `grace`. -/
def expired (now grace : Nat) (e : SliceEntry) : Bool :=
  match e.drainingSince with
  | some since => e.state = .draining ∧ grace ≤ now - since
  | none => false

def expiredDraining (st : ControlState) (now grace : Nat) : List SliceKey :=
  st.keysWhere (expired now grace)

def isAnnouncing (st : ControlState) (key : SliceKey) : Bool :=
  match st.get key with
  | some e => e.state = .announcing
  | none => false

/-- Admit a chain through `key`; `none` when the slice is not Announcing. -/
def acceptChain (st : ControlState) (key : SliceKey) : Option ControlState :=
  match st.get key with
  | some e =>
      if e.state = .announcing then
        some (st.set key { e with activeChains := saturatingSucc e.activeChains })
      else none
  | none => none

def releaseEntry (e : SliceEntry) : SliceEntry :=
  let active := saturatingPred e.activeChains
  -- the last chain of a draining slice stops it
  if e.state = .draining ∧ active = 0 then { e with activeChains := active, state := .stopped }
  else { e with activeChains := active }

def releaseChain (st : ControlState) (key : SliceKey) : Option SliceStatus × ControlState :=
  match st.get key with
  | some e => (some (releaseEntry e).state, st.set key (releaseEntry e))
  | none => (none, st)

def idle (e : SliceEntry) : Bool := e.state = .draining ∧ e.activeChains = 0

/-- Stop the idle Draining slices; the keys that flipped are returned. -/
def drainIdle (st : ControlState) : List SliceKey × ControlState :=
  (st.keysWhere idle, st.setAll fun e => if idle e then { e with state := .stopped } else e)

def forceStopAllDraining (st : ControlState) : List SliceKey × ControlState :=
  (st.keysWhere fun e => e.state = .draining,
    st.setAll fun e =>
      if e.state = .draining then { e with state := .stopped, activeChains := 0 } else e)

end ControlState

inductive Request
  | status
  | listHosted
  | join (cid : String) (start stop : UInt16)
  | leave (cid : String) (start stop : UInt16)
  deriving DecidableEq

structure StatusReply where
  peerId : String
  uptimeSeconds : Nat
  totalActiveChains : UInt32
  hostedSlices : UInt32
  deriving DecidableEq

structure HostedSlice where
  cid : String
  displayName : String
  start : UInt16
  stop : UInt16
  state : SliceStatus
  activeChains : UInt32
  deriving DecidableEq

inductive Response
  | status (reply : StatusReply)
  | hosted (slices : List HostedSlice)
  | joined
  | leaving
  | error (message : String)
  deriving DecidableEq

namespace ControlState

/-- The `u32` sum wraps. -/
def snapshotStatus (st : ControlState) (now : Nat) : StatusReply where
  peerId := st.peerId
  uptimeSeconds := (now - st.startedAt) / 1000000000
  totalActiveChains := (st.slices.entries.map fun e => e.2.activeChains).sum
  hostedSlices := UInt32.ofNat st.slices.entries.length

def snapshotHosted (st : ControlState) : List HostedSlice :=
  st.slices.entries.map fun e =>
    { cid := e.1.1, displayName := e.2.displayName, start := e.1.2.1, stop := e.1.2.2,
      state := e.2.state, activeChains := e.2.activeChains }

end ControlState

/-- One line of the control socket; `now` is the instant at which it is served. -/
def dispatch (st : ControlState) (now : Nat) : Request → Response × ControlState
  | .status => (.status (st.snapshotStatus now), st)
  | .listHosted => (.hosted st.snapshotHosted, st)
  | .join cid start stop => (.joined, st.upsertAnnouncing (cid, start, stop) "")
  | .leave cid start stop =>
      let (began, st') := st.beginDrain now (cid, start, stop)
      if began then (.leaving, st') else (.error "slice not currently announcing", st')

section Lookup

variable (st : ControlState) (key key' : SliceKey) (now grace : Nat)

open ControlState

theorem get_upsertAnnouncing (name : String) :
    (st.upsertAnnouncing key name).get key' =
      if key' = key then some (upsertEntry name (st.get key)) else st.get key' :=
  get_set st key key' _

theorem get_beginDrain :
    (st.beginDrain now key).2.get key' =
      if key' = key then
        (st.get key).map fun e =>
          if e.state = .announcing then { e with state := .draining, drainingSince := some now }
          else e
      else st.get key' := by
  unfold beginDrain
  cases h : st.get key with
  | none => by_cases hk : key' = key <;> simp [hk, h]
  | some e => by_cases hk : key' = key <;> by_cases ha : e.state = .announcing <;> simp [hk, h, ha]

theorem beginDrain_accepted_iff :
    (st.beginDrain now key).1 = true ↔ st.status key = some .announcing := by
  unfold beginDrain status
  cases h : st.get key with
  | none => simp
  | some e => by_cases ha : e.state = .announcing <;> simp [ha]

theorem get_releaseChain :
    (st.releaseChain key).2.get key' =
      if key' = key then (st.get key).map releaseEntry else st.get key' := by
  unfold releaseChain
  cases h : st.get key with
  | none => by_cases hk : key' = key <;> simp [hk, h]
  | some e => simp

theorem get_drainIdle :
    st.drainIdle.2.get key =
      (st.get key).map fun e => if idle e then { e with state := .stopped } else e := by
  simp only [drainIdle, get_setAll]

theorem mem_drainIdle : key ∈ st.drainIdle.1 ↔ ∃ e, st.get key = some e ∧ idle e = true :=
  mem_keysWhere

theorem get_forceStopAllDraining :
    st.forceStopAllDraining.2.get key =
      (st.get key).map fun e =>
        if e.state = .draining then { e with state := .stopped, activeChains := 0 } else e := by
  simp only [forceStopAllDraining, get_setAll]

theorem mem_expiredDraining :
    key ∈ st.expiredDraining now grace ↔
      ∃ e since, st.get key = some e ∧ e.state = .draining ∧ e.drainingSince = some since ∧
        grace ≤ now - since := by
  unfold expiredDraining
  rw [mem_keysWhere]
  constructor
  · rintro ⟨e, he, hexp⟩
    unfold expired at hexp
    cases hs : e.drainingSince with
    | none => simp [hs] at hexp
    | some since =>
        rw [hs] at hexp
        obtain ⟨hstate, hgrace⟩ := of_decide_eq_true hexp
        exact ⟨e, since, he, hstate, hs, hgrace⟩
  · rintro ⟨e, since, he, hstate, hs, hgrace⟩
    exact ⟨e, he, by simp [expired, hs, hstate, hgrace]⟩

theorem isAnnouncing_iff : st.isAnnouncing key = true ↔ st.status key = some .announcing := by
  unfold isAnnouncing status
  cases st.get key <;> simp

end Lookup

open ControlState in
theorem acceptChain_eq_some {st st' : ControlState} {key : SliceKey} :
    st.acceptChain key = some st' ↔
      ∃ e, st.get key = some e ∧ e.state = .announcing ∧
        st' = st.set key { e with activeChains := saturatingSucc e.activeChains } := by
  unfold acceptChain
  cases h : st.get key with
  | none => simp
  | some e =>
      by_cases ha : e.state = .announcing
      · simp [ha, eq_comm]
      · simp [ha]

theorem saturatingSucc_toNat {n : UInt32} (h : n.toNat + 1 < 2 ^ 32) :
    (saturatingSucc n).toNat = n.toNat + 1 := by
  rw [saturatingSucc, if_pos h, UInt32.toNat_add, UInt32.toNat_one, Nat.mod_eq_of_lt h]

theorem saturatingSucc_le (n : UInt32) : (saturatingSucc n).toNat ≤ n.toNat + 1 := by
  by_cases h : n.toNat + 1 < 2 ^ 32
  · exact Nat.le_of_eq (saturatingSucc_toNat h)
  · rw [saturatingSucc, if_neg h]
    omega

theorem saturatingPred_toNat (n : UInt32) : (saturatingPred n).toNat = n.toNat - 1 := by
  unfold saturatingPred
  split_ifs with h
  · simp [h]
  · have hpos : 1 ≤ n := by
      rw [UInt32.le_iff_toNat_le, UInt32.toNat_one]
      exact Nat.pos_of_ne_zero fun hz => h (UInt32.toNat_inj.mp hz)
    rw [UInt32.toNat_sub_of_le _ _ hpos, UInt32.toNat_one]

theorem le_one_of_saturatingPred_eq_zero {n : UInt32} (h : saturatingPred n = 0) :
    n.toNat ≤ 1 := by
  have hpred := saturatingPred_toNat n
  rw [h, UInt32.toNat_zero] at hpred
  omega

end IntelNav.App
