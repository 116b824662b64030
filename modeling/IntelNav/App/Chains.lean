import IntelNav.App.Control
import IntelNav.Transition.Run

/-! Chains, drains and the watchdog around the shared control state. -/

set_option autoImplicit false
set_option relaxedAutoImplicit false

namespace IntelNav.App

open IntelNav.Transition

/-- `Duration::from_secs`, in nanoseconds. -/
def secs (n : Nat) : Nat := n * 1000000000

def drainGrace : Nat := secs (5 * 60)

/-- The guard of one admitted chain; `id` tells guards of one slice apart. -/
structure ChainGuard where
  id : Nat
  key : SliceKey
  deriving DecidableEq

/-- The control state, the clock, and the guards that still owe a release: those a connection holds
and those dropped, whose detached task has not run yet. `watchdog` is set between the two locks of
a watchdog tick. -/
structure Host where
  control : ControlState
  now : Nat
  live : List ChainGuard
  detached : List ChainGuard
  nextGuard : Nat
  watchdog : Bool

inductive Op
  | tick (elapsed : Nat)
  | upsertAnnouncing (key : SliceKey) (displayName : String)
  | beginDrain (key : SliceKey)
  | acceptChain (key : SliceKey)
  | release (guard : ChainGuard)
  | dropGuard (guard : ChainGuard)
  | detachedRelease (guard : ChainGuard)
  | drainIdle
  | watchdogExpired
  | watchdogForceStop

namespace Host

def new (peerId : String) (now : Nat) : Host :=
  { control := .new peerId now, now, live := [], detached := [], nextGuard := 0, watchdog := false }

def guards (h : Host) : List ChainGuard := h.live ++ h.detached

/-- No connection still holds a guard of `key`. -/
def Unattached (h : Host) (key : SliceKey) : Prop := ∀ g ∈ h.live, g.key ≠ key

instance (h : Host) (key : SliceKey) : Decidable (h.Unattached key) := by
  unfold Unattached
  infer_instance

/-- One operation under the lock; `none` when the operation is not due or, for a chain, refused. -/
def step (h : Host) : Op → Option Host
  | .tick elapsed => some { h with now := h.now + elapsed }
  | .upsertAnnouncing key name => some { h with control := h.control.upsertAnnouncing key name }
  | .beginDrain key => some { h with control := (h.control.beginDrain h.now key).2 }
  | .acceptChain key =>
      (h.control.acceptChain key).map fun control =>
        { h with control, live := ⟨h.nextGuard, key⟩ :: h.live, nextGuard := h.nextGuard + 1 }
  | .release g =>
      if g ∈ h.live then
        some { h with control := (h.control.releaseChain g.key).2, live := h.live.erase g }
      else none
  | .dropGuard g =>
      if g ∈ h.live then
        some { h with live := h.live.erase g, detached := g :: h.detached }
      else none
  | .detachedRelease g =>
      if g ∈ h.detached then
        some { h with control := (h.control.releaseChain g.key).2, detached := h.detached.erase g }
      else none
  | .drainIdle => some { h with control := h.control.drainIdle.2 }
  | .watchdogExpired =>
      if h.watchdog then none
      else some { h with watchdog := (h.control.expiredDraining h.now drainGrace) ≠ [] }
  | .watchdogForceStop =>
      if h.watchdog then
        some { h with control := h.control.forceStopAllDraining.2, watchdog := false }
      else none

/-- The entry of `key`. -/
def entry (h : Host) (key : SliceKey) : Option SliceEntry := h.control.get key

def Draining (key : SliceKey) (h : Host) : Prop := h.control.status key = some .draining

def Stopped (key : SliceKey) (h : Host) : Prop := h.control.status key = some .stopped

instance (key : SliceKey) (h : Host) : Decidable (Draining key h) :=
  inferInstanceAs (Decidable (_ = _))

instance (key : SliceKey) (h : Host) : Decidable (Stopped key h) :=
  inferInstanceAs (Decidable (_ = _))

end Host

/-- The effect of an operation on the entry of `key`. -/
def Op.onEntry (o : Op) (now : Nat) (key : SliceKey) (entry : Option SliceEntry) :
    Option SliceEntry :=
  match o with
  | .upsertAnnouncing k name =>
      if key = k then some (ControlState.upsertEntry name entry) else entry
  | .beginDrain k =>
      if key = k then
        entry.map fun e =>
          if e.state = .announcing then { e with state := .draining, drainingSince := some now }
          else e
      else entry
  | .acceptChain k =>
      if key = k then
        entry.map fun e => { e with activeChains := saturatingSucc e.activeChains }
      else entry
  | .release g | .detachedRelease g =>
      if key = g.key then entry.map ControlState.releaseEntry else entry
  | .drainIdle =>
      entry.map fun e => if ControlState.idle e then { e with state := .stopped } else e
  | .watchdogForceStop =>
      entry.map fun e =>
        if e.state = .draining then { e with state := .stopped, activeChains := 0 } else e
  | .tick _ | .dropGuard _ | .watchdogExpired => entry

theorem Op.onEntry_some_ne_none {o : Op} {now : Nat} {key : SliceKey} {e : SliceEntry} :
    o.onEntry now key (some e) ≠ none := by
  cases o <;> grind [onEntry]

theorem Op.onEntry_none {o : Op} {now : Nat} {key : SliceKey} {e' : SliceEntry}
    (h : o.onEntry now key none = some e') :
    (∃ name, o = .upsertAnnouncing key name) ∧ e'.activeChains = 0 := by
  cases o <;> grind [onEntry, ControlState.upsertEntry]

/-- The operation admits a chain of `key`. -/
def Op.admits (key : SliceKey) : Op → Bool
  | .acceptChain k => k = key
  | _ => false

/-- The operation releases a guard of `key`. -/
def Op.releases (key : SliceKey) : Op → Bool
  | .release g | .detachedRelease g => g.key = key
  | _ => false

def Op.released : Op → Option ChainGuard
  | .release g | .detachedRelease g => some g
  | _ => none

theorem Op.releases_eq (o : Op) (key : SliceKey) :
    o.releases key = o.released.any fun g => g.key = key := by
  cases o <;> rfl

theorem Op.admits_of_released {o : Op} {g : ChainGuard} (h : o.released = some g)
    (key : SliceKey) : o.admits key = false := by
  cases o <;> first | rfl | cases h

namespace Host

variable {h h' : Host} {o : Op}

/-- The number of guards of `key` not released yet. -/
def held (h : Host) (key : SliceKey) : Nat := h.guards.countP (·.key = key)

theorem unattached_of_held_eq_zero {key : SliceKey} (hz : h.held key = 0) : h.Unattached key := by
  intro g hg
  have hnone := List.countP_eq_zero.mp hz g (List.mem_append_left _ hg)
  simpa using hnone

theorem step_entry (hs : h.step o = some h') (key : SliceKey) :
    h'.entry key = o.onEntry h.now key (h.entry key) := by
  unfold entry
  cases o with
  | tick | drainIdle =>
      obtain rfl := Option.some.inj hs
      simp only [Op.onEntry, get_drainIdle]
  | upsertAnnouncing k name =>
      obtain rfl := Option.some.inj hs
      rw [get_upsertAnnouncing]
      by_cases hk : key = k <;> simp [Op.onEntry, hk]
  | beginDrain k =>
      obtain rfl := Option.some.inj hs
      rw [get_beginDrain]
      by_cases hk : key = k <;> simp [Op.onEntry, hk]
  | acceptChain k =>
      obtain ⟨control, hacc, rfl⟩ := Option.map_eq_some_iff.mp hs
      obtain ⟨e, he, -, rfl⟩ := acceptChain_eq_some.mp hacc
      by_cases hk : key = k
      · subst hk
        simp [Op.onEntry, he]
      · simp [Op.onEntry, hk]
  | release g | detachedRelease g =>
      obtain ⟨-, hs⟩ := Option.ite_none_right_eq_some.mp hs
      obtain rfl := Option.some.inj hs
      rw [get_releaseChain]
      by_cases hk : key = g.key <;> simp [Op.onEntry, hk]
  | dropGuard g =>
      obtain ⟨-, hs⟩ := Option.ite_none_right_eq_some.mp hs
      obtain rfl := Option.some.inj hs
      rfl
  | watchdogExpired =>
      obtain ⟨-, hs⟩ := Option.ite_none_left_eq_some.mp hs
      obtain rfl := Option.some.inj hs
      rfl
  | watchdogForceStop =>
      obtain ⟨-, hs⟩ := Option.ite_none_right_eq_some.mp hs
      obtain rfl := Option.some.inj hs
      simp only [Op.onEntry, get_forceStopAllDraining]

theorem step_guards (hs : h.step o = some h') :
    (∃ key, o = .acceptChain key ∧ h'.guards = ⟨h.nextGuard, key⟩ :: h.guards ∧
      h'.nextGuard = h.nextGuard + 1) ∨
    (∃ g, o.released = some g ∧ h.guards.Perm (g :: h'.guards) ∧ h'.nextGuard = h.nextGuard) ∨
    (o.released = none ∧ (∀ key, o.admits key = false) ∧ h.guards.Perm h'.guards ∧
      h'.nextGuard = h.nextGuard) := by
  unfold guards
  cases o with
  | tick | drainIdle | upsertAnnouncing | beginDrain =>
      obtain rfl := Option.some.inj hs
      exact .inr (.inr ⟨rfl, fun _ => rfl, .refl _, rfl⟩)
  | acceptChain k =>
      obtain ⟨control, -, rfl⟩ := Option.map_eq_some_iff.mp hs
      exact .inl ⟨k, rfl, rfl, rfl⟩
  | release g =>
      obtain ⟨hg, hs⟩ := Option.ite_none_right_eq_some.mp hs
      obtain rfl := Option.some.inj hs
      exact .inr (.inl ⟨g, rfl, (List.perm_cons_erase hg).append_right _, rfl⟩)
  | dropGuard g =>
      obtain ⟨hg, hs⟩ := Option.ite_none_right_eq_some.mp hs
      obtain rfl := Option.some.inj hs
      refine .inr (.inr ⟨rfl, fun _ => rfl, ?_, rfl⟩)
      exact ((List.perm_cons_erase hg).append_right _).trans List.perm_middle.symm
  | detachedRelease g =>
      obtain ⟨hg, hs⟩ := Option.ite_none_right_eq_some.mp hs
      obtain rfl := Option.some.inj hs
      refine .inr (.inl ⟨g, rfl, ?_, rfl⟩)
      exact ((List.perm_cons_erase hg).append_left _).trans List.perm_middle
  | watchdogExpired =>
      obtain ⟨-, hs⟩ := Option.ite_none_left_eq_some.mp hs
      obtain rfl := Option.some.inj hs
      exact .inr (.inr ⟨rfl, fun _ => rfl, .refl _, rfl⟩)
  | watchdogForceStop =>
      obtain ⟨-, hs⟩ := Option.ite_none_right_eq_some.mp hs
      obtain rfl := Option.some.inj hs
      exact .inr (.inr ⟨rfl, fun _ => rfl, .refl _, rfl⟩)

theorem step_held (hs : h.step o = some h') (key : SliceKey) :
    h'.held key + (if o.releases key then 1 else 0) =
      h.held key + (if o.admits key then 1 else 0) := by
  unfold held
  rcases step_guards hs with ⟨k, rfl, hcons, -⟩ | ⟨g, hrel, hperm, -⟩ | ⟨hrel, hadm, hperm, -⟩
  · rw [hcons, List.countP_cons]
    simp [Op.releases, Op.admits]
  · rw [hperm.countP_eq, List.countP_cons, Op.releases_eq, hrel, Op.admits_of_released hrel]
    simp
  · rw [hperm.countP_eq, Op.releases_eq, hrel, hadm]
    simp

theorem step_now (hs : h.step o = some h') : h.now ≤ h'.now := by
  cases o <;> grind [step, Option.map_eq_some_iff]

end Host

end IntelNav.App
