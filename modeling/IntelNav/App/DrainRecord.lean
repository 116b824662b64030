import IntelNav.App.LeaveDurable

/-! Recording completed drains: when a range is in `disabled_ranges.json`. -/

set_option autoImplicit false
set_option relaxedAutoImplicit false

namespace IntelNav.App

open IntelNav.Transition IntelNav.Net

/-- The range is in the `disabled_ranges.json` of its model. -/
def Shards.Recorded (disk : Shards) (key : SliceKey) : Prop :=
  (disk.loadDisabled key.1).contains key.2.1 key.2.2 = true

instance (disk : Shards) (key : SliceKey) : Decidable (disk.Recorded key) :=
  inferInstanceAs (Decidable (_ = _))

/-- The model has a shard directory, so its sidecars can be written. -/
def Shards.Present (disk : Shards) (dir : String) : Prop := (disk.lookup dir).isSome

namespace Shards

variable {disk : Shards} {dir dir' : String}

theorem Present.writeKept (h : disk.Present dir) (contents : Option KeptRanges) :
    (disk.writeKept dir' contents).Present dir := by
  unfold Present Shards.writeKept at *
  by_cases hd : dir = dir'
  · rw [hd, AList.lookup_insert]
    rfl
  · rwa [AList.lookup_insert_ne hd]

theorem Present.writeDisabled (h : disk.Present dir) (contents : Option DisabledRanges) :
    (disk.writeDisabled dir' contents).Present dir := by
  unfold Present Shards.writeDisabled at *
  split
  · by_cases hd : dir = dir'
    · rw [hd, AList.lookup_insert]
      rfl
    · rwa [AList.lookup_insert_ne hd]
  · exact h

theorem Present.loadDisabled (h : disk.Present dir) (contents : Option DisabledRanges) :
    (disk.writeDisabled dir contents).loadDisabled dir = contents.getD ⟨[]⟩ := by
  obtain ⟨shard, hshard⟩ := Option.isSome_iff_exists.mp h
  unfold Shards.loadDisabled Shards.writeDisabled
  simp only [hshard, AList.lookup_insert]
  rfl

end Shards

namespace Persisting

variable {p : Persisting} {host : Host} {disk : Shards} {key : SliceKey}

def Pending (p : Persisting) (key : SliceKey) : Prop :=
  match p with
  | .drain => False
  | .range todo => key ∈ todo
  | .loaded k _ todo | .truncated k _ todo => k = key ∨ key ∈ todo

def Holds : Persisting → Prop
  | .loaded k disabled _ | .truncated k disabled _ => disabled.contains k.2.1 k.2.2 = true
  | _ => True

/-- It does not take the range out of a file that has it: by truncating the file, or by saving a
list without the range. -/
def Spares (p : Persisting) (disk : Shards) (key : SliceKey) : Prop :=
  match p with
  | .loaded k _ _ => k.1 = key.1 → ¬ disk.Recorded key
  | .truncated k disabled _ =>
      k.1 = key.1 → disk.Recorded key → disabled.contains key.2.1 key.2.2 = true
  | _ => True

private theorem holds_next (todo : List SliceKey) : ∀ p ∈ next todo, p.Holds := by
  cases todo with
  | nil => simp [next]
  | cons k todo => simp [next, Holds]

private theorem holds_step (h : p.Holds) : ∀ p' ∈ (p.step host disk).2.2, p'.Holds := by
  cases p with
  | drain => exact holds_next _
  | range todo =>
      cases todo with
      | nil => simp [step]
      | cons k todo => simp [step, Holds]
  | loaded k disabled todo =>
      intro p' hp'
      obtain rfl := Option.some.inj hp'
      exact h
  | truncated k disabled todo => exact holds_next todo

private theorem present_step {dir : String} (h : disk.Present dir) :
    (p.step host disk).2.1.Present dir := by
  cases p with
  | range todo => cases todo <;> exact h
  | loaded k disabled todo | truncated k disabled todo => exact h.writeDisabled _
  | _ => exact h

private theorem pending_next {todo : List SliceKey} :
    (∃ p ∈ next todo, p.Pending key) ↔ key ∈ todo := by
  cases todo with
  | nil => simp [next]
  | cons k todo => simp [next, Pending]

private theorem recorded_step (hspare : p.Spares disk key) (hpresent : disk.Present key.1)
    (h : disk.Recorded key) : (p.step host disk).2.1.Recorded key := by
  have hne : ∀ {dir : String} (contents : Option DisabledRanges), dir ≠ key.1 →
      (disk.writeDisabled dir contents).Recorded key := fun contents hd => by
    rw [Shards.Recorded, Shards.loadDisabled_writeDisabled_ne disk contents (Ne.symm hd)]
    exact h
  cases p with
  | drain => exact h
  | range todo => cases todo <;> exact h
  | loaded k disabled todo =>
      by_cases hk : k.1 = key.1
      · exact absurd h (hspare hk)
      · exact hne none hk
  | truncated k disabled todo =>
      by_cases hk : k.1 = key.1
      · change (disk.writeDisabled k.1 (some disabled)).Recorded key
        rw [hk, Shards.Recorded, hpresent.loadDisabled]
        exact hspare hk h
      · exact hne (some disabled) hk

variable (host) in
private theorem pending_step (hholds : p.Holds) (hpresent : disk.Present key.1)
    (h : p.Pending key) :
    (p.step host disk).2.1.Recorded key ∨ ∃ p' ∈ (p.step host disk).2.2, p'.Pending key := by
  cases p with
  | drain => exact h.elim
  | range todo =>
      cases todo with
      | nil => cases h
      | cons k todo =>
          refine .inr ⟨_, rfl, ?_⟩
          rcases List.mem_cons.mp h with rfl | h
          · exact .inl rfl
          · exact .inr h
  | loaded k disabled todo => exact .inr ⟨_, rfl, h⟩
  | truncated k disabled todo =>
      rcases h with rfl | h
      · left
        change (disk.writeDisabled k.1 (some disabled)).Recorded k
        rw [Shards.Recorded, hpresent.loadDisabled]
        exact hholds
      · exact .inr (pending_next.mpr h)

end Persisting

/-- Outside of `persist_drained_slices` the announce loop writes nothing and starts no call. -/
theorem Announcing.step_other {cfg : NodeConfig} {seen : Seen} {a a' : Announcing}
    {host host' : Host} {disk disk' : Shards} {log : List Published}
    (hs : a.step cfg seen host disk = some (host', disk', a', log)) (ha : ∀ p, a ≠ .persist p) :
    disk' = disk ∧ ∀ p, a' ≠ .persist p := by
  cases moves_of_step hs with
  | persist p => exact absurd rfl (ha p)
  | _ => exact ⟨rfl, nofun⟩

/-- The call of `persist_drained_slices` the announce loop is in. -/
def Announcing.call : Announcing → Option Persisting
  | .persist p => some p
  | _ => none

theorem Announcing.call_eq_none {a : Announcing} (h : ∀ p, a ≠ .persist p) : a.call = none := by
  cases a with
  | persist p => exact absurd rfl (h p)
  | _ => rfl

/-- The two tasks that call `persist_drained_slices`. -/
inductive Caller
  | announceLoop | watchdog
  deriving DecidableEq

def Caller.other : Caller → Caller
  | .announceLoop => .watchdog
  | .watchdog => .announceLoop

def Event.isCallOf : Event → Caller → Bool
  | .announce _, .announceLoop => true
  | .watchdogPersist, .watchdog => true
  | _, _ => false

namespace Daemon

variable {cfg : NodeConfig} {d d' : Daemon} {ev : Event} {key : SliceKey}

/-- The call of `persist_drained_slices` a task is in. -/
def call (d : Daemon) : Caller → Option Persisting
  | .announceLoop => d.announce.bind Announcing.call
  | .watchdog => d.persisting

/-- Steps that leave completed drains recorded: a chain that ends and a force-stop stop the slice
only when it is recorded already; a persisting call does not take its record away, and does not
return while the other one has it still to record. -/
def RecordingStep (key : SliceKey) (d : Daemon) (ev : Event) : Prop :=
  match ev with
  | .chain (.release g) | .chain (.detachedRelease g) =>
      g.key = key → ∀ e, d.host.entry key = some e → e.state = .draining →
        e.activeChains.toNat ≤ 1 → d.disk.Recorded key
  | .watchdogForceStop => d.host.Draining key → d.disk.Recorded key
  | ev => ∀ c, ev.isCallOf c = true → ∀ p ∈ d.call c, p.Spares d.disk key ∧
      ((p.step d.host d.disk).2.2 = none → ∀ q ∈ d.call c.other, ¬ q.Pending key)

def CallsHold (d : Daemon) : Prop := ∀ c, ∀ p ∈ d.call c, p.Holds

/-- The slice is recorded, or one of the calls has it still to record. -/
def RecordedOrPending (key : SliceKey) (d : Daemon) : Prop :=
  d.disk.Recorded key ∨ ∃ c, ∃ p ∈ d.call c, p.Pending key

/-- What a step does to the calls and the sidecars: it is a step of one call, and the other one
stays; or it starts calls at most, and writes no `disabled_ranges.json`. -/
theorem call_cases (hs : d.step cfg ev = some d') :
    (∃ c p, ev.isCallOf c = true ∧ d.call c = some p ∧ d'.disk = (p.step d.host d.disk).2.1 ∧
      d'.call c = (p.step d.host d.disk).2.2 ∧ d'.call c.other = d.call c.other) ∨
    ((∀ dir, d'.disk.loadDisabled dir = d.disk.loadDisabled dir) ∧
      (∀ dir, d.disk.Present dir → d'.disk.Present dir) ∧
      ∀ c, d'.call c = d.call c ∨ d'.call c = some .drain ∧
        (d.call c = none ∨ ev = .watchdogForceStop ∧ c = .watchdog)) := by
  have hsame : ∀ d' : Daemon, d'.disk = d.disk → d'.announce = d.announce →
      d'.persisting = d.persisting →
      (∀ dir, d'.disk.loadDisabled dir = d.disk.loadDisabled dir) ∧
      (∀ dir, d.disk.Present dir → d'.disk.Present dir) ∧
      ∀ c, d'.call c = d.call c ∨ d'.call c = some .drain ∧
        (d.call c = none ∨ ev = .watchdogForceStop ∧ c = .watchdog) := fun d' hdisk ha hp => by
    refine ⟨fun dir => by rw [hdisk], fun dir h => by rwa [hdisk], fun c => .inl ?_⟩
    cases c
    · rw [call, ha, call]
    · rw [call, hp, call]
  cases ev with
  | contributing cid =>
      obtain rfl := Option.some.inj hs
      refine .inr ⟨fun dir => by simp, fun dir h => h.writeKept none, fun c => .inl ?_⟩
      cases c <;> rfl
  | contribute k =>
      obtain rfl := Option.some.inj hs
      refine .inr ⟨fun dir => by simp, fun dir h => h.writeKept (some k), fun c => .inl ?_⟩
      cases c <;> rfl
  | chain o => cases o <;> exact .inr (hsame d' (by grind [step, Option.map_eq_some_iff])
      (by grind [step, Option.map_eq_some_iff]) (by grind [step, Option.map_eq_some_iff]))
  | announceTick =>
      obtain ⟨hidle, hs⟩ := Option.ite_none_right_eq_some.mp hs
      obtain rfl := Option.some.inj hs
      refine .inr ⟨fun _ => rfl, fun _ h => h, fun c => ?_⟩
      cases c
      · refine .inr ⟨rfl, .inl ?_⟩
        have hann : d.announce = some .idle := by grind
        rw [call, hann]
        rfl
      · exact .inl rfl
  | watchdogForceStop =>
      obtain ⟨host, -, rfl⟩ := Option.map_eq_some_iff.mp hs
      refine .inr ⟨fun _ => rfl, fun _ h => h, fun c => ?_⟩
      cases c
      · exact .inl rfl
      · exact .inr ⟨rfl, .inr ⟨rfl, rfl⟩⟩
  | watchdogPersist =>
      obtain ⟨p, hp, rfl⟩ := Option.map_eq_some_iff.mp hs
      exact .inl ⟨.watchdog, p, rfl, hp, rfl, rfl, rfl⟩
  | announce seen =>
      obtain ⟨⟨host, disk, a', log⟩, hstep, rfl⟩ := Option.map_eq_some_iff.mp hs
      obtain ⟨a, ha, hstep⟩ := Option.bind_eq_some_iff.mp hstep
      by_cases hpersist : ∃ p, a = .persist p
      · obtain ⟨p, rfl⟩ := hpersist
        simp only [Announcing.step, Option.some.injEq, Prod.mk.injEq] at hstep
        obtain ⟨-, rfl, rfl, -⟩ := hstep
        refine .inl ⟨.announceLoop, p, rfl, by rw [call, ha]; rfl, rfl, ?_, rfl⟩
        simp only [call, Option.bind_some]
        cases (p.step d.host d.disk).2.2 <;> rfl
      · have hother : ∀ p, a ≠ .persist p := fun p hp => hpersist ⟨p, hp⟩
        obtain ⟨rfl, ha'⟩ := Announcing.step_other hstep hother
        refine .inr ⟨fun _ => rfl, fun _ h => h, fun c => .inl ?_⟩
        cases c
        · rw [call, call, ha, Option.bind_some, Option.bind_some, Announcing.call_eq_none hother,
            Announcing.call_eq_none ha']
        · rfl
  | _ => exact .inr (hsame d' (by grind [step, Option.map_eq_some_iff])
      (by grind [step, Option.map_eq_some_iff]) (by grind [step, Option.map_eq_some_iff]))

def WatchdogFree (d : Daemon) : Prop := d.host.watchdog = true → d.persisting = none

private theorem watchdogFree_step (hs : d.step cfg ev = some d') (h : d.WatchdogFree) :
    d'.WatchdogFree := by
  have hperf := step_performs hs
  have hwatch : ∀ o host', d.host.step o = some host' → o ≠ .watchdogExpired →
      host'.watchdog = true → d.host.watchdog = true := fun o host' => by
    cases o <;> grind [Host.step, Option.map_eq_some_iff]
  intro hw
  -- whatever is neither the start of a force-stop nor its end leaves both parts as they are
  have hother : d'.persisting = d.persisting → d.opOf ev ≠ some .watchdogExpired →
      d'.persisting = none := fun hp hop => by
    rw [hp]
    refine h ?_
    cases ho : d.opOf ev with
    | none =>
        rw [ho] at hperf
        rwa [show d'.host = d.host from hperf] at hw
    | some o =>
        rw [ho] at hperf
        exact hwatch o d'.host hperf (fun hexp => hop (by rw [ho, hexp])) hw
  cases ev with
  | watchdogExpired =>
      obtain ⟨hno, hs⟩ := Option.ite_none_left_eq_some.mp hs
      obtain ⟨host, -, rfl⟩ := Option.map_eq_some_iff.mp hs
      exact Option.not_isSome_iff_eq_none.mp fun hsome => hno (by simp [hsome])
  | watchdogForceStop =>
      obtain ⟨host, hstep, rfl⟩ := Option.map_eq_some_iff.mp hs
      grind [Host.step]
  | watchdogPersist =>
      obtain ⟨p, hp, rfl⟩ := Option.map_eq_some_iff.mp hs
      have hkeep : (p.step d.host d.disk).1.watchdog = d.host.watchdog := by
        cases p with
        | range todo => cases todo <;> rfl
        | _ => rfl
      rw [h (hkeep ▸ hw)] at hp
      cases hp
  | announce seen =>
      obtain ⟨⟨host, disk, a', log⟩, -, rfl⟩ := Option.map_eq_some_iff.mp hs
      refine hother rfl fun hop => ?_
      obtain ⟨a, -, hop⟩ := Option.bind_eq_some_iff.mp hop
      unfold Announcing.op at hop
      split at hop
      · rename_i p
        cases p <;> cases hop
      · cases hop
      · cases hop
  | chain o =>
      refine hother (by cases o <;> grind [step, Option.map_eq_some_iff]) fun hop => ?_
      obtain rfl := Option.some.inj hop
      simp [step, Op.isChain] at hs
  | request req => exact hother (by grind [step]) (by cases req <;> simp [opOf])
  | shutdownDrain =>
      refine hother (by grind [step]) fun hop => ?_
      obtain ⟨todo, -, hop⟩ := Option.bind_eq_some_iff.mp hop
      cases todo <;> cases hop
  | _ => exact hother (by grind [step]) (by simp [opOf])

private theorem callsHold_step (hs : d.step cfg ev = some d') (h : d.CallsHold) : d'.CallsHold := by
  rcases call_cases hs with ⟨c, p, -, hp, -, hc, hother⟩ | ⟨-, -, hcalls⟩
  · intro c' p' hp'
    by_cases hcc : c' = c
    · subst hcc
      rw [hc] at hp'
      exact Persisting.holds_step (h c' p hp) p' hp'
    · have hc' : c' = c.other := by cases c <;> cases c' <;> simp_all [Caller.other]
      rw [hc', hother] at hp'
      exact h _ p' hp'
  · intro c' p' hp'
    rcases hcalls c' with heq | ⟨heq, -⟩
    · exact h c' p' (heq ▸ hp')
    · obtain rfl : Persisting.drain = p' := by simpa [heq] using hp'
      trivial

private theorem present_step {dir : String} (hs : d.step cfg ev = some d')
    (h : d.disk.Present dir) :
    d'.disk.Present dir := by
  rcases call_cases hs with ⟨c, p, -, -, hdisk, -⟩ | ⟨-, hpresent, -⟩
  · rw [hdisk]
    exact Persisting.present_step h
  · exact hpresent dir h

private theorem RecordingStep.spares {c : Caller} {p : Persisting} (h : RecordingStep key d ev)
    (hev : ev.isCallOf c = true) (hp : d.call c = some p) :
    p.Spares d.disk key ∧
      ((p.step d.host d.disk).2.2 = none → ∀ q ∈ d.call c.other, ¬ q.Pending key) := by
  cases ev with
  | announce | watchdogPersist => exact h c hev p hp
  | _ => cases c <;> cases hev

private theorem recorded_step (hs : d.step cfg ev = some d') (hok : RecordingStep key d ev)
    (hpresent : d.disk.Present key.1) (h : d.disk.Recorded key) : d'.disk.Recorded key := by
  rcases call_cases hs with ⟨c, p, hev, hp, hdisk, -⟩ | ⟨hsame, -, -⟩
  · rw [hdisk]
    exact Persisting.recorded_step (hok.spares hev hp).1 hpresent h
  · rw [Shards.Recorded, hsame]
    exact h

private theorem recordedOrPending_step (hs : d.step cfg ev = some d') (hok : RecordingStep key d ev)
    (hpresent : d.disk.Present key.1) (hholds : d.CallsHold) (hfree : d.WatchdogFree)
    (h : RecordedOrPending key d) : RecordedOrPending key d' := by
  rcases h with h | ⟨c, q, hq, hpending⟩
  · exact .inl (recorded_step hs hok hpresent h)
  rcases call_cases hs with ⟨c', p, hev, hp, hdisk, hc, hother⟩ | ⟨hsame, -, hcalls⟩
  · by_cases hcc : c = c'
    · subst hcc
      obtain rfl : p = q := by simpa [hp] using hq
      rcases Persisting.pending_step d.host (hholds c p hp) hpresent hpending with
        hrec | ⟨p', hp', hpend⟩
      · exact .inl (hdisk ▸ hrec)
      · exact .inr ⟨c, p', by rw [hc]; exact hp', hpend⟩
    · have hc' : c = c'.other := by cases c <;> cases c' <;> simp_all [Caller.other]
      subst hc'
      exact .inr ⟨_, q, by rw [hother]; exact hq, hpending⟩
  · rcases hcalls c with heq | ⟨-, hnone | ⟨rfl, rfl⟩⟩
    · exact .inr ⟨c, q, by rw [heq]; exact hq, hpending⟩
    · rw [hnone] at hq
      cases hq
    · obtain ⟨host, hstep, -⟩ := Option.map_eq_some_iff.mp hs
      have hwatch : d.host.watchdog = true := by grind [Host.step]
      rw [call, hfree hwatch] at hq
      cases hq

/-- A slice stops in one of three ways: its last chain ends while it drains, `drain_idle` finds it
idle, or the watchdog forces it. -/
private theorem stops_cases (hs : d.step cfg ev = some d') (hbefore : ¬ d.host.Stopped key)
    (hafter : d'.host.Stopped key) :
    ∃ e o, d.host.entry key = some e ∧ e.state = .draining ∧ d.opOf ev = some o ∧
      (o.releases key = true ∧ e.activeChains.toNat ≤ 1 ∨
        o = .drainIdle ∧ ControlState.idle e = true ∨ o = .watchdogForceStop) := by
  have hperf := step_performs hs
  obtain ⟨e', he', hst'⟩ := Option.map_eq_some_iff.mp hafter
  cases hop : d.opOf ev with
  | none =>
      rw [hop] at hperf
      rw [show d'.host = d.host from hperf] at hafter
      exact absurd hafter hbefore
  | some o =>
      rw [hop] at hperf
      have hentry := (Host.step_entry hperf key).symm.trans he'
      cases he : d.host.entry key with
      | none =>
          rw [he] at hentry
          obtain ⟨⟨name, rfl⟩, -⟩ := Op.onEntry_none hentry
          simp only [Op.onEntry, if_true, ControlState.upsertEntry, Option.some.injEq] at hentry
          rw [← hentry] at hst'
          cases hst'
      | some e =>
          rw [he] at hentry
          have hne : e.state ≠ .stopped := fun h => hbefore (by
            simp [Host.Stopped, status_eq, he, h])
          by_cases hup : ∃ name, o = .upsertAnnouncing key name
          · obtain ⟨name, rfl⟩ := hup
            simp only [Op.onEntry, if_true, ControlState.upsertEntry, Option.some.injEq] at hentry
            rw [← hentry] at hst'
            cases hst'
          by_cases hann : e.state = .announcing
          · cases o <;> grind [Op.onEntry, ControlState.releaseEntry, ControlState.idle]
          rcases Op.onEntry_left hentry hann fun name h => hup ⟨name, h⟩ with
            hsame | ⟨hd, -, hwhy⟩
          · exact absurd (hsame.symm.trans hst') hne
          · exact ⟨e, o, rfl, hd, rfl, hwhy⟩

private theorem recordedOrPending_stop (hs : d.step cfg ev = some d') (hok : RecordingStep key d ev)
    (hpresent : d.disk.Present key.1) (hbefore : ¬ d.host.Stopped key)
    (hafter : d'.host.Stopped key) : RecordedOrPending key d' := by
  obtain ⟨e, o, he, hd, hop, hwhy⟩ := stops_cases hs hbefore hafter
  rcases hwhy with ⟨hrel, hactive⟩ | ⟨rfl, hidle⟩ | rfl
  · have hev := opOf_releases hop hrel
    subst hev
    refine .inl (recorded_step hs hok hpresent ?_)
    cases o with
    | release g | detachedRelease g =>
        exact hok (by simpa [Op.releases] using hrel) e he hd hactive
    | _ => cases hrel
  · have hmem := (mem_drainIdle d.host.control key).mpr ⟨e, he, hidle⟩
    have hnext := Persisting.pending_next.mpr hmem
    rcases opOf_drainIdle hs hop with ⟨seen, rfl⟩ | ⟨rfl, p, hp, hdrain⟩
    · obtain ⟨⟨host, disk, a', log⟩, hstep, rfl⟩ := Option.map_eq_some_iff.mp hs
      obtain ⟨a, ha, hstep⟩ := Option.bind_eq_some_iff.mp hstep
      obtain rfl : a = .persist .drain := by
        simp only [opOf, ha, Option.bind_some] at hop
        unfold Announcing.op at hop
        split at hop
        · rename_i p
          cases p <;> first | rfl | cases hop
        · cases hop
        · cases hop
      simp only [Announcing.step, Option.some.injEq, Prod.mk.injEq] at hstep
      obtain ⟨-, -, rfl, -⟩ := hstep
      obtain ⟨q, hq, hpend⟩ := hnext
      refine .inr ⟨.announceLoop, q, ?_, hpend⟩
      simp only [call, Option.bind_some]
      rw [show (Persisting.drain.step d.host d.disk).2.2 = some q from hq]
      rfl
    · obtain ⟨q, hq, hpend⟩ := hnext
      obtain rfl : p = .drain := by cases p <;> first | rfl | cases hdrain
      refine .inr ⟨.watchdog, q, ?_, hpend⟩
      rw [step, show d.persisting = some .drain from hp] at hs
      obtain rfl := Option.some.inj hs
      exact hq
  · obtain rfl := opOf_watchdogForceStop hs hop
    exact .inl (recorded_step hs hok hpresent (hok (by simp [Host.Draining, status_eq, he, hd])))

/-- Within a run a slice has come to a stop, and a call of `persist_drained_slices` that started
later has finished. -/
def Drained (cfg : NodeConfig) (ok : Daemon → Event → Prop) (key : SliceKey) (d d' : Daemon) :
    Prop :=
  ∃ ev d₁ es d₂ es' c, ok d ev ∧ d.step cfg ev = some d₁ ∧ ¬ d.host.Stopped key ∧
    d₁.host.Stopped key ∧ Run (step cfg) ok d₁ es d₂ ∧ d₂.call c = some .drain ∧
    Run (step cfg) ok d₂ es' d' ∧ d'.call c = none

/-- The range is in the sidecar, and a daemon that boots from it does not host it. -/
def StaysOff (key : SliceKey) (d : Daemon) : Prop :=
  d.disk.Recorded key ∧ ∀ peerId now seen,
    (boot peerId now seen d.disk).host.control.status key = none

/-- What holds in every state of a run of recording steps. -/
private structure Recording (key : SliceKey) (d : Daemon) : Prop where
  present : d.disk.Present key.1
  holds : d.CallsHold
  free : d.WatchdogFree

private theorem Recording.step (hs : d.step cfg ev = some d') (h : Recording key d) :
    Recording key d' :=
  ⟨present_step hs h.present, callsHold_step hs h.holds, watchdogFree_step hs h.free⟩

private theorem recorded_finish (hs : d.step cfg ev = some d') (hok : RecordingStep key d ev)
    (h : Recording key d) (hpending : RecordedOrPending key d) {c : Caller} {p : Persisting}
    (hp : d.call c = some p) (hnone : d'.call c = none) : d'.disk.Recorded key := by
  rcases recordedOrPending_step hs hok h.present h.holds h.free hpending with
    hrec | ⟨c', q, hq, hpend⟩
  · exact hrec
  have hc' : c' = c.other := by
    cases c <;> cases c' <;> simp_all [Caller.other]
  subst hc'
  rcases call_cases hs with ⟨c₀, p₀, hev, hp₀, -, hstep, hother⟩ | ⟨-, -, hcalls⟩
  · by_cases hcc : c = c₀
    · subst hcc
      obtain rfl : p = p₀ := by simpa [hp] using hp₀
      rw [hother] at hq
      exact absurd hpend ((hok.spares hev hp).2 (hstep.symm.trans hnone) q hq)
    · have hc : c = c₀.other := by cases c <;> cases c₀ <;> simp_all [Caller.other]
      rw [hc, hother, ← hc, hp] at hnone
      cases hnone
  · rcases hcalls c with heq | ⟨heq, -⟩
    · rw [heq, hp] at hnone
      cases hnone
    · rw [heq] at hnone
      cases hnone

private theorem recorded_of_finished {es : List Event} {c : Caller} (hp : d.call c = some .drain)
    (h : Recording key d) (hpending : RecordedOrPending key d)
    (hrun : Run (step cfg) (RecordingStep key) d es d') (hnone : d'.call c = none) :
    d'.disk.Recorded key := by
  have hinv : Recording key d' ∧ RecordedOrPending key d' ∧
      ((∃ p, d'.call c = some p) ∨ d'.disk.Recorded key) := by
    clear hnone
    refine hrun.invariant (I := fun d => Recording key d ∧ RecordedOrPending key d ∧
      ((∃ p, d.call c = some p) ∨ d.disk.Recorded key)) ⟨h, hpending, .inl ⟨_, hp⟩⟩ ?_
    intro x e y ⟨hx, hxp, hcall⟩ hok hs
    refine ⟨hx.step hs, recordedOrPending_step hs hok hx.present hx.holds hx.free hxp, ?_⟩
    rcases hcall with ⟨p, hp⟩ | hrec
    · cases hy : y.call c with
      | none => exact .inr (recorded_finish hs hok hx hxp hp hy)
      | some q => exact .inl ⟨q, rfl⟩
    · exact .inr (recorded_step hs hok hx.present hrec)
  rcases hinv.2.2 with ⟨p, hp'⟩ | hrec
  · rw [hp'] at hnone
    cases hnone
  · exact hrec

private theorem get_seed (kept : List KeptRanges) (st : ControlState)
    (hlists : ∀ k ∈ kept, ¬ k.Lists key) :
    (kept.foldl (fun st k =>
      k.kept.foldl (fun st r => st.upsertAnnouncing (k.modelCid, r) k.displayName) st) st).get key =
      st.get key := by
  induction kept generalizing st with
  | nil => rfl
  | cons k kept ih =>
      rw [List.foldl_cons, ih _ fun k' hk' => hlists k' (List.mem_cons_of_mem k hk')]
      have hk : ∀ r ∈ k.kept, key ≠ (k.modelCid, r) := fun r hr heq =>
        hlists k List.mem_cons_self ⟨by rw [heq], by rw [heq]; exact hr⟩
      clear hlists ih
      generalize k.kept = ranges at hk ⊢
      induction ranges generalizing st with
      | nil => rfl
      | cons r ranges ih =>
          rw [List.foldl_cons, ih _ fun r' hr' => hk r' (List.mem_cons_of_mem r hr'),
            get_upsertAnnouncing, if_neg (hk r List.mem_cons_self)]

private theorem boot_recorded {disk : Shards} (hfiled : disk.Filed) (hrec : disk.Recorded key)
    (peerId : String) (now : Nat) (seen : Seen) :
    (boot peerId now seen disk).host.control.status key = none := by
  have hlists : ∀ k ∈ scanKeptRanges disk seen.dirs, ¬ k.Lists key := by
    rintro k hk ⟨hcid, hmem⟩
    obtain ⟨dir, -, hdir⟩ := List.mem_filterMap.mp hk
    obtain ⟨k₀, hk₀, hif⟩ := Option.bind_eq_some_iff.mp hdir
    obtain ⟨-, hif⟩ := Option.ite_none_left_eq_some.mp hif
    obtain rfl := Option.some.inj hif
    obtain rfl : k₀.modelCid = dir := hfiled dir k₀ hk₀
    have hkept : (disk.loadDisabled k₀.modelCid).contains key.2.1 key.2.2 = false := by
      simpa using (List.mem_filter.mp hmem).2
    rw [show k₀.modelCid = key.1 from hcid] at hkept
    exact Bool.false_ne_true (hkept.symm.trans hrec)
  rw [ControlState.status, boot, get_seed _ _ hlists, ControlState.get_new]
  rfl

private theorem boot_calls (peerId : String) (now : Nat) (seen : Seen) (disk : Shards) :
    (boot peerId now seen disk).CallsHold ∧ (boot peerId now seen disk).WatchdogFree := by
  refine ⟨fun c p hp => ?_, fun _ => rfl⟩
  cases c
  · simp only [call, boot] at hp
    split_ifs at hp <;> cases hp
  · cases hp

/-- Completed drains last: once a persisting call that started after the slice had stopped is over,
the range is in its sidecar and a restart does not host it, at every later point of the run. -/
theorem drain_durable (cfg : NodeConfig) (peerId : String) (now : Nat) (seen : Seen) (disk : Shards)
    (hfiled : disk.Filed) (es : List Event) (d : Daemon)
    (hboot : Run (step cfg) (fun _ _ => True) (boot peerId now seen disk) es d) (key : SliceKey)
    (hpresent : d.disk.Present key.1) (d₁ : Daemon)
    (hdrained : Drained cfg (RecordingStep key) key d d₁) (es' : List Event) (d₂ : Daemon)
    (hrun : Run (step cfg) (RecordingStep key) d₁ es' d₂) : StaysOff key d₂ := by
  have hstart : d.CallsHold ∧ d.WatchdogFree :=
    hboot.invariant (I := fun d => d.CallsHold ∧ d.WatchdogFree) (boot_calls ..)
      fun _ _ _ h _ hs => ⟨callsHold_step hs h.1, watchdogFree_step hs h.2⟩
  have hf : d.disk.Filed := hboot.invariant (I := fun d => d.disk.Filed) hfiled
    fun _ _ _ h _ hs => filed_step hs h
  obtain ⟨ev, a, es₁, b, es₂, c, hok, hs, hbefore, hafter, hrun₁, hcall, hrun₂, hnone⟩ := hdrained
  have ha : Recording key a := .step hs ⟨hpresent, hstart.1, hstart.2⟩
  have hpending := recordedOrPending_stop hs hok hpresent hbefore hafter
  have hb : Recording key b ∧ RecordedOrPending key b :=
    hrun₁.invariant (I := fun d => Recording key d ∧ RecordedOrPending key d) ⟨ha, hpending⟩
      fun _ _ _ ⟨h, hp⟩ hok hs =>
        ⟨h.step hs, recordedOrPending_step hs hok h.present h.holds h.free hp⟩
  have hrec := recorded_of_finished hcall hb.1 hb.2 hrun₂ hnone
  have hd₁ : Recording key d₁ ∧ d₁.disk.Filed :=
    hrun₂.invariant (I := fun d => Recording key d ∧ d.disk.Filed)
      ⟨hb.1, (hrun₁.invariant (I := fun d => d.disk.Filed) (filed_step hs hf)
        fun _ _ _ h _ hs => filed_step hs h)⟩
      fun _ _ _ ⟨h, hf⟩ _ hs => ⟨h.step hs, filed_step hs hf⟩
  have hd₂ : Recording key d₂ ∧ d₂.disk.Filed ∧ d₂.disk.Recorded key :=
    hrun.invariant (I := fun d => Recording key d ∧ d.disk.Filed ∧ d.disk.Recorded key)
      ⟨hd₁.1, hd₁.2, hrec⟩
      fun _ _ _ ⟨h, hf, hr⟩ hok hs =>
        ⟨h.step hs, filed_step hs hf, recorded_step hs hok h.present hr⟩
  exact ⟨hd₂.2.2, fun peerId now seen => boot_recorded hd₂.2.1 hd₂.2.2 peerId now seen⟩

private def bootConfig : NodeConfig := ⟨"host", [], none, none⟩

private def bootSeen : Seen := ⟨["m"], 0, none⟩

private def bootKey : SliceKey := ("m", 0, 4)

private def bootDisk : Shards :=
  Shards.writeKept ∅ "m" (some ⟨"m", "", 4, "", [(0, 4)]⟩)

private theorem bootDisk_filed : bootDisk.Filed :=
  Shards.Filed.writeKept (show Shards.Filed ∅ from fun _ _ hk => by cases hk)
    ⟨"m", "", 4, "", [(0, 4)]⟩

/-- The call is at its `drain_idle`. -/
private def drains (call : Option Persisting) : Bool := call matches some .drain

private theorem drains_iff {call : Option Persisting} : drains call = true ↔
    call = some .drain := by
  unfold drains
  split
  · exact iff_of_true rfl rfl
  · rename_i h
    exact iff_of_false Bool.false_ne_true h

/-- The chain that ends last stops the slice, and the persisting call of the next tick has nothing
to record. -/
theorem drain_not_recorded :
    ¬ ∀ (cfg : NodeConfig) (peerId : String) (now : Nat) (seen : Seen) (disk : Shards),
      disk.Filed → ∀ (es : List Event) (d : Daemon),
        Run (step cfg) (fun _ _ => True) (boot peerId now seen disk) es d →
          ∀ (key : SliceKey), d.disk.Present key.1 → ∀ d₁, Drained cfg (fun _ _ => True) key d d₁ →
            ∀ (es' : List Event) (d₂ : Daemon),
              Run (step cfg) (fun _ _ => True) d₁ es' d₂ → StaysOff key d₂ := by
  intro hall
  let before : List Event := List.replicate 5 (.announce bootSeen) ++
    [.chain (.acceptChain bootKey), .request (.leave "m" 0 4), .chain (.dropGuard ⟨0, bootKey⟩)]
  have hfacts : (exec (step bootConfig) (boot "host" 0 bootSeen bootDisk) before).any (fun d =>
      decide (¬ d.host.Stopped bootKey) && (d.disk.lookup "m").isSome &&
      (d.step bootConfig (.chain (.detachedRelease ⟨0, bootKey⟩))).any fun a =>
        decide (a.host.Stopped bootKey) &&
        (a.step bootConfig .announceTick).any fun b =>
          drains (b.call .announceLoop) &&
          (b.step bootConfig (.announce bootSeen)).any fun d₁ =>
            (d₁.call .announceLoop).isNone && decide (¬ d₁.disk.Recorded bootKey)) = true := by
    decide
  obtain ⟨d, hd, hfacts⟩ := (Option.any_eq_true _ _).mp hfacts
  simp only [Bool.and_eq_true, decide_eq_true_eq] at hfacts
  obtain ⟨⟨hbefore, hpresent⟩, hfacts⟩ := hfacts
  obtain ⟨a, ha, hfacts⟩ := (Option.any_eq_true _ _).mp hfacts
  simp only [Bool.and_eq_true, decide_eq_true_eq] at hfacts
  obtain ⟨hafter, hfacts⟩ := hfacts
  obtain ⟨b, hb, hfacts⟩ := (Option.any_eq_true _ _).mp hfacts
  simp only [Bool.and_eq_true] at hfacts
  obtain ⟨hcall, hfacts⟩ := hfacts
  obtain ⟨d₁, hd₁, hfacts⟩ := (Option.any_eq_true _ _).mp hfacts
  simp only [Bool.and_eq_true, decide_eq_true_eq] at hfacts
  obtain ⟨hnone, hnot⟩ := hfacts
  have hdrain : b.call .announceLoop = some .drain := drains_iff.mp hcall
  refine hnot (hall bootConfig "host" 0 bootSeen bootDisk bootDisk_filed _ d
    (Run.of_exec _ hd fun _ _ _ => trivial) bootKey hpresent d₁
    ⟨_, a, [.announceTick], b, [.announce bootSeen], .announceLoop, trivial, ha, hbefore, hafter,
      ?_, hdrain, ?_, Option.isNone_iff_eq_none.mp hnone⟩ [] d₁ .nil).1
  · exact .snoc (.nil : Run _ _ _ [] _) trivial hb
  · exact .snoc (.nil : Run _ _ _ [] _) trivial hd₁

/-- A step of the announce loop while the watchdog is idle, with no saved list lacking the slice. -/
private def checkStep (d : Daemon) : Event → Bool
  | .announceTick => true
  | .announce _ =>
      d.persisting.isNone &&
        match d.announce with
        | some (.persist (.loaded ..)) => decide (¬ d.disk.Recorded bootKey)
        | some (.persist (.truncated _ disabled _)) => disabled.contains bootKey.2.1 bootKey.2.2
        | _ => true
  | _ => false

private theorem checkStep_recording (d : Daemon) (ev : Event) (h : checkStep d ev = true) :
    RecordingStep bootKey d ev := by
  cases ev with
  | announceTick => exact fun c hc => by cases c <;> cases hc
  | announce seen =>
      simp only [checkStep, Bool.and_eq_true, Option.isNone_iff_eq_none] at h
      obtain ⟨hidle, h⟩ := h
      intro c hc p hp
      obtain rfl : c = .announceLoop := by cases c <;> first | rfl | cases hc
      obtain ⟨a, ha, hcall⟩ := Option.bind_eq_some_iff.mp hp
      refine ⟨?_, fun _ q hq => by rw [Caller.other, call, hidle] at hq; cases hq⟩
      rw [ha] at h
      cases a with
      | persist p' =>
          obtain rfl : p' = p := Option.some.inj hcall
          cases p' with
          | loaded k disabled todo => exact fun _ => of_decide_eq_true h
          | truncated k disabled todo => exact fun _ _ => h
          | _ => trivial
      | _ => cases hcall
  | _ => cases h

/-- With no chain attached the announce loop stops the slice itself and records it: the persisting
call of the next tick finds it done. -/
theorem drain_durable_idle :
    ∃ d d₁, exec (step bootConfig) (boot "host" 0 bootSeen bootDisk)
        (List.replicate 5 (.announce bootSeen) ++ [.request (.leave "m" 0 4), .announceTick]) =
          some d ∧
      Drained bootConfig (RecordingStep bootKey) bootKey d d₁ ∧ StaysOff bootKey d₁ := by
  let before : List Event := List.replicate 5 (.announce bootSeen) ++
    [.request (.leave "m" 0 4), .announceTick]
  have hfacts : (exec (step bootConfig) (boot "host" 0 bootSeen bootDisk) before).any (fun d =>
      decide (¬ d.host.Stopped bootKey) && (d.disk.lookup "m").isSome &&
      checkStep d (.announce bootSeen) &&
      (d.step bootConfig (.announce bootSeen)).any fun a =>
        decide (a.host.Stopped bootKey) &&
        (execChecked (step bootConfig) checkStep a
          (List.replicate 8 (.announce bootSeen) ++ [.announceTick])).any fun b =>
            drains (b.call .announceLoop) &&
            (execChecked (step bootConfig) checkStep b [.announce bootSeen]).any fun d₁ =>
              (d₁.call .announceLoop).isNone) = true := by
    decide
  obtain ⟨d, hd, hfacts⟩ := (Option.any_eq_true _ _).mp hfacts
  simp only [Bool.and_eq_true, decide_eq_true_eq] at hfacts
  obtain ⟨⟨⟨hbefore, hpresent⟩, hcheck⟩, hfacts⟩ := hfacts
  obtain ⟨a, ha, hfacts⟩ := (Option.any_eq_true _ _).mp hfacts
  simp only [Bool.and_eq_true, decide_eq_true_eq] at hfacts
  obtain ⟨hafter, hfacts⟩ := hfacts
  obtain ⟨b, hb, hfacts⟩ := (Option.any_eq_true _ _).mp hfacts
  simp only [Bool.and_eq_true] at hfacts
  obtain ⟨hcall, hfacts⟩ := hfacts
  obtain ⟨d₁, hd₁, hnone⟩ := (Option.any_eq_true _ _).mp hfacts
  have hdrain : b.call .announceLoop = some .drain := drains_iff.mp hcall
  have hdrained : Drained bootConfig (RecordingStep bootKey) bootKey d d₁ :=
    ⟨_, a, _, b, _, .announceLoop, checkStep_recording d _ hcheck, ha, hbefore, hafter,
      .of_execChecked hb checkStep_recording, hdrain, .of_execChecked hd₁ checkStep_recording,
      Option.isNone_iff_eq_none.mp hnone⟩
  exact ⟨d, d₁, hd, hdrained, drain_durable bootConfig "host" 0 bootSeen bootDisk bootDisk_filed _ d
    (Run.of_exec _ hd fun _ _ _ => trivial) bootKey hpresent d₁ hdrained [] d₁ .nil⟩

end Daemon

end IntelNav.App
