import IntelNav.App.Chains

/-! When a draining slice may stop: its chains are gone, or its own grace period is over. -/

set_option autoImplicit false
set_option relaxedAutoImplicit false

namespace IntelNav.App

open IntelNav.Transition

namespace Op

variable {o : Op} {now : Nat} {key : SliceKey} {e e' : SliceEntry}

private theorem onEntry_active_le (h : o.onEntry now key (some e) = some e') :
    e'.activeChains.toNat ≤ e.activeChains.toNat + (if o.admits key then 1 else 0) -
      (if o.releases key then 1 else 0) := by
  cases o with
  | acceptChain k =>
      have hsucc := saturatingSucc_le e.activeChains
      grind [onEntry, admits, releases]
  | release g | detachedRelease g =>
      have hpred := saturatingPred_toNat e.activeChains
      grind [onEntry, admits, releases, ControlState.releaseEntry]
  | watchdogForceStop =>
      obtain rfl := Option.some.inj h
      simp only [admits, releases, Bool.false_eq_true, if_false]
      split_ifs <;> simp
  | _ => grind [onEntry, admits, releases, ControlState.upsertEntry]

/-- Where it neither saturates nor is zeroed by a force-stop, it follows them exactly. -/
private theorem onEntry_active_eq (h : o.onEntry now key (some e) = some e')
    (hrun : e'.state ≠ .stopped) (hroom : o.admits key = true → e.activeChains.toNat + 1 < 2 ^ 32) :
    e'.activeChains.toNat = e.activeChains.toNat + (if o.admits key then 1 else 0) -
      (if o.releases key then 1 else 0) := by
  cases o with
  | acceptChain k =>
      have hsucc := saturatingSucc_toNat (n := e.activeChains)
      grind [onEntry, admits, releases]
  | release g | detachedRelease g =>
      have hpred := saturatingPred_toNat e.activeChains
      grind [onEntry, admits, releases, ControlState.releaseEntry]
  | _ => grind [onEntry, admits, releases, ControlState.upsertEntry]

private theorem onEntry_stopped (h : o.onEntry now key (some e) = some e')
    (hstop : e.state = .stopped)
    (hrun : e'.state ≠ .stopped) : ∃ name, o = .upsertAnnouncing key name := by
  cases o <;> grind [onEntry, ControlState.releaseEntry, ControlState.upsertEntry]

private theorem onEntry_drainingSince (h : o.onEntry now key (some e) = some e')
    (hdrain : e'.state = .draining) :
    (e.state = .draining ∧ e'.drainingSince = e.drainingSince) ∨
      o = .beginDrain key ∧ e'.drainingSince = some now := by
  cases o <;> grind [onEntry, ControlState.releaseEntry, ControlState.upsertEntry]

private theorem onEntry_stops (h : o.onEntry now key (some e) = some e')
    (hdrain : e.state = .draining) (hstop : e'.state = .stopped) :
    o = .watchdogForceStop ∨ e'.activeChains = 0 ∧ e'.activeChains.toNat =
      e.activeChains.toNat - (if o.releases key then 1 else 0) := by
  cases o with
  | release g | detachedRelease g =>
      have hpred := saturatingPred_toNat e.activeChains
      grind [onEntry, releases, ControlState.releaseEntry]
  | _ => grind [onEntry, releases, ControlState.upsertEntry, ControlState.idle]

end Op

namespace Host

variable {h h' h₀ : Host} {o : Op} {es : List Op} {key : SliceKey} {ok : Host → Op → Prop}

/-- What the counter of a slice says about its guards in every run. -/
structure Bounded (key : SliceKey) (h : Host) : Prop where
  unknown : h.entry key = none → h.held key = 0
  bounded : ∀ e, h.entry key = some e → e.activeChains.toNat ≤ h.held key

theorem Bounded.new (peerId : String) (now : Nat) (key : SliceKey) :
    Bounded key (.new peerId now) where
  unknown _ := rfl
  bounded e he := by
    have hnone : (Host.new peerId now).entry key = none := rfl
    rw [hnone] at he
    cases he

theorem step_admits (hs : h.step o = some h') (hadm : o.admits key = true) :
    ∃ e, h.entry key = some e ∧ e.state = .announcing := by
  cases o with
  | acceptChain k =>
      obtain rfl : k = key := by simpa [Op.admits] using hadm
      obtain ⟨control, hacc, -⟩ := Option.map_eq_some_iff.mp hs
      obtain ⟨e, he, hann, -⟩ := acceptChain_eq_some.mp hacc
      exact ⟨e, he, hann⟩
  | _ => cases hadm

theorem Bounded.step (hb : Bounded key h) (hs : h.step o = some h') : Bounded key h' := by
  have hentry := step_entry hs key
  have hheld := step_held hs key
  cases he : h.entry key with
  | none =>
      rw [he] at hentry
      have hz := hb.unknown he
      have hadm : o.admits key = false := by
        by_contra hadm
        obtain ⟨e, he', -⟩ := step_admits hs (by simpa using hadm)
        simp [he] at he'
      constructor
      · intro _
        simp only [hadm, Bool.false_eq_true, if_false] at hheld
        omega
      · intro e' he'
        obtain ⟨-, hzero⟩ := Op.onEntry_none (hentry.symm.trans he')
        simp [hzero]
  | some e =>
      rw [he] at hentry
      constructor
      · intro he'
        exact absurd (hentry.symm.trans he') Op.onEntry_some_ne_none
      · intro e' he'
        have hle := Op.onEntry_active_le (hentry.symm.trans he')
        have hbound := hb.bounded e he
        omega

/-- The counter never exceeds the guards not released yet. -/
theorem Run.bounded {peerId : String} {now : Nat} (hrun : Run step ok (.new peerId now) es h) :
    Bounded key h :=
  hrun.invariant (.new peerId now key) fun _ _ _ hb _ hs => hb.step hs

/-- Steps after which the counters still tell the guards: a stopped slice is announced again only
once its guards are released, the counter does not saturate, and the watchdog's force-stop finds no
slice Draining that is neither expired nor free of chains. -/
def SafeStep (h : Host) : Op → Prop
  | .upsertAnnouncing key _ => Stopped key h → h.held key = 0
  | .acceptChain key => ∀ e, h.entry key = some e → e.activeChains.toNat + 1 < 2 ^ 32
  | .watchdogForceStop => ∀ key, Draining key h →
      key ∈ h.control.expiredDraining h.now drainGrace ∨ h.Unattached key
  | _ => True

private theorem draining_mem (h : Draining key h₀) : key ∈ h₀.control.slices.keys := by
  obtain ⟨e, he, -⟩ := Option.map_eq_some_iff.mp h
  exact AList.mem_keys.mp (AList.lookup_isSome.mp (Option.isSome_iff_exists.mpr ⟨e, he⟩))

instance (h : Host) : (o : Op) → Decidable (SafeStep h o)
  | .upsertAnnouncing key _ => inferInstanceAs (Decidable (Stopped key h → h.held key = 0))
  | .acceptChain key =>
      inferInstanceAs (Decidable (∀ e ∈ h.entry key, e.activeChains.toNat + 1 < 2 ^ 32))
  | .watchdogForceStop =>
      decidable_of_iff (∀ key ∈ h.control.slices.keys, Draining key h →
        key ∈ h.control.expiredDraining h.now drainGrace ∨ h.Unattached key)
        ⟨fun hall key hdrain => hall key (draining_mem hdrain) hdrain, fun hall key _ => hall key⟩
  | .tick _ | .beginDrain _ | .release _ | .dropGuard _ | .detachedRelease _ | .drainIdle
  | .watchdogExpired => .isTrue trivial

/-- Outside of Stopped the counter is the number of guards not released yet. -/
structure Counted (key : SliceKey) (h : Host) : Prop extends Bounded key h where
  exact : ∀ e, h.entry key = some e → e.state ≠ .stopped → e.activeChains.toNat = h.held key

theorem Counted.new (peerId : String) (now : Nat) (key : SliceKey) :
    Counted key (.new peerId now) where
  toBounded := .new peerId now key
  exact e he := by
    have hnone : (Host.new peerId now).entry key = none := rfl
    rw [hnone] at he
    cases he

theorem status_eq (key : SliceKey) : h.control.status key = (h.entry key).map SliceEntry.state :=
  rfl

theorem Counted.step (hc : Counted key h) (hok : SafeStep h o) (hs : h.step o = some h') :
    Counted key h' := by
  refine ⟨hc.toBounded.step hs, fun e' he' hrun => ?_⟩
  have hentry := step_entry hs key
  have hheld := step_held hs key
  cases he : h.entry key with
  | none =>
      rw [he] at hentry
      obtain ⟨⟨name, rfl⟩, hzero⟩ := Op.onEntry_none (hentry.symm.trans he')
      have hz := hc.unknown he
      simp only [Op.admits, Op.releases, Bool.false_eq_true, if_false] at hheld
      simp [hzero]
      omega
  | some e =>
      rw [he] at hentry
      have hstep := hentry.symm.trans he'
      have hroom : o.admits key = true → e.activeChains.toNat + 1 < 2 ^ 32 := by
        intro hadm
        cases o with
        | acceptChain k =>
            obtain rfl : k = key := by simpa [Op.admits] using hadm
            exact hok e he
        | _ => cases hadm
      have heq := Op.onEntry_active_eq hstep hrun hroom
      by_cases hstop : e.state = .stopped
      · obtain ⟨name, rfl⟩ := Op.onEntry_stopped hstep hstop hrun
        have hz : h.held key = 0 := hok (by simp [Stopped, status_eq, he, hstop])
        have hle := hc.bounded e he
        simp only [Op.admits, Op.releases, Bool.false_eq_true, if_false] at hheld heq
        omega
      · have hcount := hc.exact e he hstop
        omega

/-- The stamp of a Draining slice is the start of the unbroken time it has been Draining. -/
theorem Run.drainingSince (hrun : Run step ok h₀ es h) (hinit : ∀ key, h₀.entry key = none) :
    ∀ e, h.entry key = some e → e.state = .draining → ∃ since, e.drainingSince = some since ∧
      HeldSince step (Draining key) (fun m => m.now = since) h₀ es h := by
  induction hrun with
  | nil =>
      intro e he
      rw [hinit key] at he
      cases he
  | @snoc es t t' o hrun hok hs ih =>
      intro e' he' hdrain
      have hentry := step_entry hs key
      have hnow : Draining key t' := by simp [Draining, status_eq, he', hdrain]
      cases he : t.entry key with
      | none =>
          rw [he] at hentry
          obtain ⟨⟨name, rfl⟩, -⟩ := Op.onEntry_none (hentry.symm.trans he')
          simp [Op.onEntry, ControlState.upsertEntry, he'] at hentry
          simp [hentry] at hdrain
      | some e =>
          rw [he] at hentry
          rcases Op.onEntry_drainingSince (hentry.symm.trans he') hdrain with
            ⟨hd, heq⟩ | ⟨rfl, heq⟩
          · obtain ⟨since, hsince, hheld⟩ := ih e he hd
            exact ⟨since, heq.trans hsince, hheld.snoc hs hnow⟩
          · obtain rfl := Option.some.inj hs
            exact ⟨t.now, heq, .start (.snoc hrun hok rfl) hnow rfl⟩

theorem Held.drainingSince {es₂ : List Op} {m : Host} (hheld : Held step (Draining key) m es₂ h)
    {e : SliceEntry} (he : h.entry key = some e) :
    ∃ e₀, m.entry key = some e₀ ∧ e.drainingSince = e₀.drainingSince := by
  obtain ⟨hrun, hlast⟩ := hheld
  induction hrun generalizing e with
  | nil => exact ⟨e, he, rfl⟩
  | @snoc es t t' o hrun hdrain hs ih =>
      have hentry := step_entry hs key
      obtain ⟨e₁, he₁, hd₁⟩ := Option.map_eq_some_iff.mp ((status_eq key).symm.trans hdrain)
      obtain ⟨e₂, he₂, hd₂⟩ := Option.map_eq_some_iff.mp ((status_eq key).symm.trans hlast)
      obtain rfl : e₂ = e := by simpa [he₂] using he
      rw [he₁, he₂] at hentry
      obtain ⟨e₀, he₀, heq⟩ := ih he₁ hdrain
      refine ⟨e₀, he₀, ?_⟩
      rcases Op.onEntry_drainingSince hentry.symm hd₂ with ⟨-, hkeep⟩ | ⟨rfl, -⟩
      · exact hkeep.trans heq
      · -- a drain does not begin on a slice that already drains
        simp only [Op.onEntry, if_true, Option.map_some, hd₁, Option.some.injEq] at hentry
        simpa [hentry] using heq

private theorem Run.now_le {m : Host} (hrun : Run step ok m es h) : m.now ≤ h.now :=
  hrun.invariant (I := fun x => m.now ≤ x.now) le_rfl fun _ _ _ hle _ hs =>
    Nat.le_trans hle (step_now hs)

/-- The slice has been Draining, without a break, for at least `grace`. -/
def DrainingFor (key : SliceKey) (grace : Nat) (h₀ : Host) (es : List Op) (h : Host) : Prop :=
  HeldSince step (Draining key) (fun m => grace ≤ h.now - m.now) h₀ es h

/-- `expired_draining` returns exactly the slices that have been Draining for the grace period. -/
private theorem mem_expiredDraining_iff_drainingFor {peerId : String} {now grace : Nat}
    (hrun : Run step ok (.new peerId now) es h) :
    key ∈ h.control.expiredDraining h.now grace ↔ DrainingFor key grace (.new peerId now) es h := by
  have hinit : ∀ key, (Host.new peerId now).entry key = none := fun _ => rfl
  rw [mem_expiredDraining]
  constructor
  · rintro ⟨e, since, he, hdrain, hsince, hgrace⟩
    obtain ⟨since', hsince', es₁, es₂, m, hes, hm, hnow, hheld⟩ :=
      Run.drainingSince hrun hinit e he hdrain
    obtain rfl : since = since' := by simpa [hsince] using hsince'
    exact ⟨es₁, es₂, m, hes, hm, by simpa only [hnow] using hgrace, hheld⟩
  · rintro ⟨es₁, es₂, m, rfl, hm, hgrace, hheld⟩
    obtain ⟨e, he, hdrain⟩ := Option.map_eq_some_iff.mp ((status_eq key).symm.trans hheld.2)
    obtain ⟨e₀, he₀, heq⟩ := Held.drainingSince hheld he
    have hdrain₀ : e₀.state = .draining := by
      simpa [Draining, status_eq, he₀] using hheld.first
    obtain ⟨since, hsince, _, _, m₀, -, -, hnow, hheld₀⟩ :=
      Run.drainingSince hm hinit e₀ he₀ hdrain₀
    have hle : m₀.now ≤ m.now := Run.now_le hheld₀.1
    exact ⟨e, since, he, hdrain, heq.trans hsince, by omega⟩

/-- A slice that goes from Draining to Stopped has no chain attached, or its own grace period is
over: the step lemma. -/
private theorem stops_safely (hc : Counted key h) (hok : SafeStep h o) (hs : h.step o = some h')
    (hdrain : Draining key h) (hstop : Stopped key h') :
    h'.Unattached key ∨ key ∈ h.control.expiredDraining h.now drainGrace := by
  obtain ⟨e, he, hd⟩ := Option.map_eq_some_iff.mp hdrain
  obtain ⟨e', he', hst⟩ := Option.map_eq_some_iff.mp hstop
  have hstep : o.onEntry h.now key (some e) = some e' := by
    rw [← show h.entry key = some e from he, ← step_entry hs key]
    exact he'
  rcases Op.onEntry_stops hstep hd hst with rfl | ⟨hzero, hcount⟩
  · rcases hok key hdrain with hexp | hfree
    · exact .inr hexp
    · refine .inl ?_
      obtain ⟨-, hs⟩ := Option.ite_none_right_eq_some.mp hs
      obtain rfl := Option.some.inj hs
      exact hfree
  · refine .inl (unattached_of_held_eq_zero ?_)
    have hheld := step_held hs key
    have hexact := hc.exact e he (by simp [hd])
    have hadm : o.admits key = false := by
      by_contra hadm
      obtain ⟨e₁, he₁, hann⟩ := step_admits hs (by simpa using hadm)
      obtain rfl : e = e₁ := Option.some.inj (he.symm.trans he₁)
      simp [hd] at hann
    simp only [hzero, hadm, Bool.false_eq_true, if_false, UInt32.toNat_zero] at hcount hheld
    omega

/-- Drain safety over runs of safe steps: a slice moves from Draining to Stopped only when no chain
admitted for it is attached any more or it has been Draining for the grace period. -/
theorem drain_safety (peerId : String) (now : Nat) (es : List Op) (h h' : Host) (o : Op)
    (hrun : Run step SafeStep (.new peerId now) es h) (hok : SafeStep h o)
    (hs : h.step o = some h') (key : SliceKey) (hdrain : Draining key h) (hstop : Stopped key h') :
    h'.Unattached key ∨ DrainingFor key drainGrace (.new peerId now) es h := by
  have hcounted : Counted key h :=
    hrun.invariant (.new peerId now key) fun _ _ _ hc hok hs => hc.step hok hs
  rcases stops_safely hcounted hok hs hdrain hstop with hfree | hexp
  · exact .inl hfree
  · exact .inr ((mem_expiredDraining_iff_drainingFor hrun).mp hexp)

/-- A chain comes and goes, another one comes and stays for the whole grace period. -/
private def watchedDrain : List Op :=
  [.upsertAnnouncing ("a", 0, 4) "", .acceptChain ("a", 0, 4), .release ⟨0, ("a", 0, 4)⟩,
    .acceptChain ("a", 0, 4), .beginDrain ("a", 0, 4), .tick drainGrace, .watchdogExpired]

theorem drain_safety_watched :
    ∃ h h', Run step SafeStep (.new "host" 0) watchedDrain h ∧ h.step .watchdogForceStop = some h' ∧
      ¬ h'.Unattached ("a", 0, 4) ∧
      DrainingFor ("a", 0, 4) drainGrace (.new "host" 0) watchedDrain h := by
  have hfacts : (execChecked step (fun h o => decide (SafeStep h o)) (.new "host" 0)
      watchedDrain).any (fun h => (h.step .watchdogForceStop).any fun h' =>
        decide (SafeStep h .watchdogForceStop) && decide (Draining ("a", 0, 4) h) &&
          decide (Stopped ("a", 0, 4) h') && decide (¬ h'.Unattached ("a", 0, 4))) = true := by
    decide
  obtain ⟨h, hexec, hfacts⟩ := (Option.any_eq_true _ _).mp hfacts
  obtain ⟨h', hs, hfacts⟩ := (Option.any_eq_true _ _).mp hfacts
  simp only [Bool.and_eq_true, decide_eq_true_eq] at hfacts
  obtain ⟨⟨⟨hok, hdrain⟩, hstop⟩, hheld⟩ := hfacts
  have hrun : Run step SafeStep (.new "host" 0) watchedDrain h :=
    Run.of_execChecked hexec fun _ _ => of_decide_eq_true
  refine ⟨h, h', hrun, hs, hheld, ?_⟩
  exact (drain_safety "host" 0 _ _ _ _ hrun hok hs _ hdrain hstop).resolve_left hheld

/-- Slice `a` has drained for the grace period, slice `b` since a moment, with a chain attached. -/
private def twoDrains : List Op :=
  [.upsertAnnouncing ("a", 0, 4) "", .upsertAnnouncing ("b", 0, 4) "", .acceptChain ("b", 0, 4),
    .beginDrain ("a", 0, 4), .tick drainGrace, .beginDrain ("b", 0, 4), .watchdogExpired]

/-- The watchdog stops the slice whose grace period has just begun, under its chain. -/
theorem watchdog_stops_the_wrong_slice :
    ¬ ∀ (peerId : String) (now : Nat) (es : List Op) (h h' : Host) (o : Op),
      Run step (fun _ _ => True) (.new peerId now) es h → h.step o = some h' →
        ∀ key, Draining key h → Stopped key h' →
          h'.Unattached key ∨ DrainingFor key drainGrace (.new peerId now) es h := by
  intro hall
  have hfacts : (exec step (.new "host" 0) twoDrains).any (fun h =>
      (h.step .watchdogForceStop).any fun h' =>
        decide (h.control.status ("b", 0, 4) = some .draining) &&
        decide (h'.control.status ("b", 0, 4) = some .stopped) &&
        decide (¬ h'.Unattached ("b", 0, 4)) &&
        decide (("b", 0, 4) ∉ h.control.expiredDraining h.now drainGrace)) = true := by
    decide
  obtain ⟨h, hexec, hfacts⟩ := (Option.any_eq_true _ _).mp hfacts
  obtain ⟨h', hs, hfacts⟩ := (Option.any_eq_true _ _).mp hfacts
  simp only [Bool.and_eq_true, decide_eq_true_eq] at hfacts
  obtain ⟨⟨⟨hdrain, hstop⟩, hheld⟩, hfresh⟩ := hfacts
  have hrun := Run.of_exec (fun _ _ => True) hexec fun _ _ _ => trivial
  rcases hall _ _ _ _ _ _ hrun hs _ hdrain hstop with hfree | hfor
  · exact hheld hfree
  · exact hfresh ((mem_expiredDraining_iff_drainingFor hrun).mpr hfor)

end Host

end IntelNav.App
