import IntelNav.App.SwarmNode

/-! After a leave: what the daemon's own tasks may still do to the slice. -/

set_option autoImplicit false
set_option relaxedAutoImplicit false

namespace IntelNav.App

open IntelNav.Transition IntelNav.Net

def KeptRanges.Lists (k : KeptRanges) (key : SliceKey) : Prop :=
  k.modelCid = key.1 ∧ key.2 ∈ k.kept

namespace Shards

variable {disk disk' : Shards} {key : SliceKey}

/-- The `kept_ranges.json` of the model does not name the slice. -/
def Lacks (disk : Shards) (key : SliceKey) : Prop :=
  ∀ k, disk.kept key.1 = some k → ¬ k.Lists key

/-- A scan would not return the slice: it is not kept, or it is disabled. -/
def Hides (disk : Shards) (key : SliceKey) : Prop :=
  disk.Lacks key ∨ (disk.loadDisabled key.1).contains key.2.1 key.2.2 = true

/-- Every sidecar is in the directory of its model, as contributions file them. -/
def Filed (disk : Shards) : Prop := ∀ dir k, disk.kept dir = some k → k.modelCid = dir

/-- `disk'` keeps no range of `key` that `disk` does not, and disables the same. -/
def NotMore (disk disk' : Shards) (key : SliceKey) : Prop :=
  (disk.Lacks key → disk'.Lacks key) ∧ disk'.loadDisabled key.1 = disk.loadDisabled key.1

theorem Hides.of_notMore (hle : NotMore disk disk' key) (h : disk.Hides key) :
    disk'.Hides key := by
  rcases h with h | h
  · exact .inl (hle.1 h)
  · exact .inr (by rw [hle.2]; exact h)

theorem NotMore.refl (disk : Shards) (key : SliceKey) : NotMore disk disk key :=
  ⟨id, rfl⟩

theorem Filed.writeKept (hf : Filed disk) (k : KeptRanges) :
    Filed (disk.writeKept k.modelCid (some k)) := by
  intro dir k' hk'
  rw [kept_writeKept] at hk'
  split_ifs at hk' with h
  · obtain rfl := Option.some.inj hk'
    exact h.symm
  · exact hf dir k' hk'

private theorem Filed.truncateKept (hf : Filed disk) (cid : String) :
    Filed (disk.writeKept cid none) := by
  intro dir k' hk'
  rw [kept_writeKept] at hk'
  split_ifs at hk'
  exact hf dir k' hk'

theorem Filed.writeDisabled (hf : Filed disk) (dir : String) (contents : Option DisabledRanges) :
    Filed (disk.writeDisabled dir contents) := by
  intro dir' k' hk'
  rw [kept_writeDisabled] at hk'
  exact hf dir' k' hk'

private theorem notMore_writeKept {k : KeptRanges} (hk : ¬ k.Lists key) :
    NotMore disk (disk.writeKept k.modelCid (some k)) key := by
  refine ⟨fun hl k' hk' => ?_, by simp⟩
  rw [kept_writeKept] at hk'
  split_ifs at hk'
  · obtain rfl := Option.some.inj hk'
    exact hk
  · exact hl k' hk'

private theorem notMore_truncateKept (cid : String) :
    NotMore disk (disk.writeKept cid none) key := by
  refine ⟨fun hl k' hk' => ?_, by simp⟩
  rw [kept_writeKept] at hk'
  split_ifs at hk'
  exact hl k' hk'

private theorem notMore_writeDisabled {dir : String} (contents : Option DisabledRanges)
    (h : dir ≠ key.1) : NotMore disk (disk.writeDisabled dir contents) key :=
  ⟨fun hl k' hk' => hl k' (by simpa using hk'),
    loadDisabled_writeDisabled_ne disk contents (Ne.symm h)⟩

private theorem lacks_writeDisabled {dir : String} {contents : Option DisabledRanges} :
    (disk.writeDisabled dir contents).Lacks key ↔ disk.Lacks key := by
  simp [Lacks]

private theorem hides_writeDisabled {disabled : DisabledRanges}
    (h : disabled.contains key.2.1 key.2.2 = true ∨ disk.Lacks key) :
    (disk.writeDisabled key.1 (some disabled)).Hides key := by
  rcases h with h | h
  · rcases loadDisabled_writeDisabled disk key.1 (some disabled) with heq | hnone
    · exact .inr (by rw [heq]; exact h)
    · refine .inl (lacks_writeDisabled.mpr fun k hk => ?_)
      rw [hnone] at hk
      cases hk
  · exact .inl (lacks_writeDisabled.mpr h)

end Shards

namespace Persisting

/-- Once this call of `persist_drained_slices` is over, a scan will not return the slice. -/
def Covers (p : Persisting) (disk : Shards) (key : SliceKey) : Prop :=
  match p with
  | .drain => disk.Hides key
  | .range todo => key ∈ todo ∨ disk.Hides key
  | .loaded k disabled todo | .truncated k disabled todo =>
      key ∈ todo ∨
        if k.1 = key.1 then disabled.contains key.2.1 key.2.2 = true ∨ disk.Lacks key
        else disk.Hides key

def Avoids (p : Persisting) (cid : String) : Prop :=
  match p with
  | .drain => True
  | .range todo => ∀ k ∈ todo, k.1 ≠ cid
  | .loaded k _ todo | .truncated k _ todo => k.1 ≠ cid ∧ ∀ k ∈ todo, k.1 ≠ cid

variable {p : Persisting} {host : Host} {disk disk' : Shards} {key : SliceKey}

theorem Covers.of_notMore (hle : Shards.NotMore disk disk' key) (h : p.Covers disk key) :
    p.Covers disk' key := by
  cases p with
  | drain => exact Shards.Hides.of_notMore hle h
  | range todo => exact h.imp id (Shards.Hides.of_notMore hle)
  | loaded k disabled todo | truncated k disabled todo =>
      simp only [Covers] at h ⊢
      split_ifs at h ⊢
      · exact h.imp id (Or.imp id hle.1)
      · exact h.imp id (Shards.Hides.of_notMore hle)

private theorem covers_next {todo : List SliceKey} (h : key ∈ todo ∨ disk.Hides key) :
    ((next todo).elim (disk.Hides key) fun p => p.Covers disk key) := by
  cases todo with
  | nil => simpa [next] using h
  | cons k todo => simpa [next, Covers] using h

/-- One step of the call keeps it covered; a slice that `drain_idle` stops gets covered. -/
private theorem covers_step
    (h : p.Covers disk key ∨ p = .drain ∧ key ∈ host.control.drainIdle.1) :
    ((p.step host disk).2.2.elim ((p.step host disk).2.1.Hides key)
      fun p' => p'.Covers (p.step host disk).2.1 key) := by
  cases p with
  | drain =>
      refine covers_next ?_
      rcases h with h | ⟨-, h⟩
      · exact .inr h
      · exact .inl h
  | range todo =>
      have h : key ∈ todo ∨ disk.Hides key := by simpa [Covers] using h
      cases todo with
      | nil => simpa [step] using h
      | cons k todo =>
          simp only [step, Option.elim_some, Covers]
          rcases h with h | h
          · rcases List.mem_cons.mp h with rfl | h
            · simp
            · exact .inl h
          · right
            split_ifs with hk
            · rw [hk]
              rcases h with h | h
              · exact .inr h
              · exact .inl (by simp [h])
            · exact h
  | loaded k disabled todo =>
      have h : key ∈ todo ∨ if k.1 = key.1 then
          disabled.contains key.2.1 key.2.2 = true ∨ disk.Lacks key else disk.Hides key := by
        simpa [Covers] using h
      simp only [step, Option.elim_some, Covers]
      refine h.imp id fun h => ?_
      split_ifs at h ⊢ with hk
      · simpa only [Shards.lacks_writeDisabled] using h
      · exact Shards.Hides.of_notMore (Shards.notMore_writeDisabled none hk) h
  | truncated k disabled todo =>
      have h : key ∈ todo ∨ if k.1 = key.1 then
          disabled.contains key.2.1 key.2.2 = true ∨ disk.Lacks key else disk.Hides key := by
        simpa [Covers] using h
      refine covers_next (h.imp id fun h => ?_)
      split_ifs at h with hk
      · simp only [step, hk]
        exact Shards.hides_writeDisabled h
      · exact Shards.Hides.of_notMore (Shards.notMore_writeDisabled (some disabled) hk) h

private theorem notMore_step (h : p.Avoids key.1) :
    Shards.NotMore disk (p.step host disk).2.1 key := by
  cases p with
  | drain => exact .refl _ _
  | range todo => cases todo <;> exact .refl _ _
  | loaded k disabled todo => exact Shards.notMore_writeDisabled none h.1
  | truncated k disabled todo => exact Shards.notMore_writeDisabled (some disabled) h.1

private theorem avoids_next {todo : List SliceKey} {cid : String} (h : ∀ k ∈ todo, k.1 ≠ cid) :
    ∀ p ∈ next todo, p.Avoids cid := by
  cases todo with
  | nil => simp [next]
  | cons k todo =>
      intro p hp
      obtain rfl : Persisting.range (k :: todo) = p := by simpa [next] using hp
      exact h

private theorem avoids_step {cid : String} (h : p.Avoids cid)
    (hdrain : p = .drain → ∀ k ∈ host.control.drainIdle.1, k.1 ≠ cid) :
    ∀ p' ∈ (p.step host disk).2.2, p'.Avoids cid := by
  cases p with
  | drain => exact avoids_next (hdrain rfl)
  | range todo =>
      cases todo with
      | nil => simp [step]
      | cons k todo =>
          intro p' hp'
          obtain rfl := Option.some.inj hp'
          exact ⟨h k (by simp), fun k' hk' => h k' (by simp [hk'])⟩
  | loaded k disabled todo =>
      intro p' hp'
      obtain rfl := Option.some.inj hp'
      exact h
  | truncated k disabled todo => exact avoids_next h.2

theorem filed_step (h : disk.Filed) : (p.step host disk).2.1.Filed := by
  cases p with
  | drain => exact h
  | range todo => cases todo <;> exact h
  | loaded k disabled todo => exact h.writeDisabled _ _
  | truncated k disabled todo => exact h.writeDisabled _ _

end Persisting

namespace Announcing

/-- The round in progress will not come upon the slice, and after it a scan will not either. -/
def Sealed (a : Announcing) (disk : Shards) (key : SliceKey) : Prop :=
  match a with
  | .idle | .scan => disk.Hides key
  | .persist p => p.Covers disk key
  | .readKept _ out => disk.Hides key ∧ ∀ k ∈ out, ¬ k.Lists key
  | .readDisabled dir k _ out =>
      disk.Hides key ∧ (∀ k ∈ out, ¬ k.Lists key) ∧
        (k.Lists key → dir = key.1 ∧ (disk.loadDisabled key.1).contains key.2.1 key.2.2 = true)
  | .model _ todo => disk.Hides key ∧ ∀ k ∈ todo, ¬ k.Lists key
  | .range _ k _ ranges todo =>
      disk.Hides key ∧ (k.modelCid = key.1 → key.2 ∉ ranges) ∧ ∀ k ∈ todo, ¬ k.Lists key

def Commits (a : Announcing) (key : SliceKey) : Prop :=
  match a with
  | .range .upsert k _ (r :: _) _ | .range .publish k _ (r :: _) _ => (k.modelCid, r) = key
  | _ => False

variable {cfg : NodeConfig} {seen : Seen} {a a' : Announcing} {host host' : Host}
variable {disk disk' : Shards} {log : List Published} {key : SliceKey}

theorem Sealed.of_notMore (hle : Shards.NotMore disk disk' key) (h : a.Sealed disk key) :
    a.Sealed disk' key := by
  cases a with
  | persist p => exact Persisting.Covers.of_notMore hle h
  | readDisabled dir k todo out =>
      exact ⟨Shards.Hides.of_notMore hle h.1, h.2.1, fun hl => by rw [hle.2]; exact h.2.2 hl⟩
  | idle | scan => exact Shards.Hides.of_notMore hle h
  | readKept | model | range => exact ⟨Shards.Hides.of_notMore hle h.1, h.2⟩

/-- What `retain` leaves of a sidecar does not name a disabled slice. -/
private theorem not_lists_retain {k : KeptRanges} {disabled : DisabledRanges}
    (h : k.Lists key → disabled.contains key.2.1 key.2.2 = true) :
    ¬ (k.retain disabled).Lists key := by
  rintro ⟨hcid, hmem⟩
  obtain ⟨hkept, henabled⟩ := List.mem_filter.mp hmem
  have hdis := h ⟨hcid, hkept⟩
  rw [hdis] at henabled
  cases henabled

/-- One step of the loop keeps the slice sealed; one that `drain_idle` stops gets sealed. -/
theorem sealed_step (hs : a.step cfg seen host disk = some (host', disk', a', log))
    (hfiled : disk.Filed)
    (h : a.Sealed disk key ∨ a = .persist .drain ∧ key ∈ host.control.drainIdle.1) :
    a'.Sealed disk' key := by
  have hsealed : (∀ p, a ≠ .persist p) → a.Sealed disk key := by
    intro hother
    exact h.resolve_right fun ⟨ha, _⟩ => hother .drain ha
  cases moves_of_step hs with
  | persist p =>
      have hcovers : p.Covers disk key ∨ p = .drain ∧ key ∈ host.control.drainIdle.1 :=
        h.imp id fun ⟨ha, hmem⟩ => ⟨Announcing.persist.inj ha, hmem⟩
      have hcov := Persisting.covers_step hcovers
      cases hp : (p.step host disk).2.2 with
      | none => simpa [hp, Sealed] using hcov
      | some p' => simpa [hp, Sealed] using hcov
  | scan hperm => exact ⟨hsealed nofun, by simp⟩
  | scanned out => exact hsealed nofun
  | noSidecar todo out hnone => exact hsealed nofun
  | @sidecar dir k todo out hkept =>
      obtain ⟨hhid, hout⟩ := hsealed nofun
      refine ⟨hhid, hout, fun hl => ?_⟩
      have hdir : dir = key.1 := (hfiled dir k hkept).symm.trans hl.1
      refine ⟨hdir, hhid.resolve_left fun hlacks => ?_⟩
      exact hlacks k (hdir ▸ hkept) hl
  | retain dir k todo out =>
      obtain ⟨hhid, hout, hk⟩ := hsealed nofun
      refine ⟨hhid, fun k' hk' => ?_⟩
      split_ifs at hk'
      · exact hout k' hk'
      · rcases List.mem_append.mp hk' with hk' | hk'
        · exact hout k' hk'
        · obtain rfl := List.mem_singleton.mp hk'
          apply not_lists_retain
          intro hl
          obtain ⟨rfl, hdis⟩ := hk hl
          exact hdis
  | finish mintedAt => exact (hsealed nofun).1
  | model mintedAt k todo =>
      obtain ⟨hhid, htodo⟩ := hsealed nofun
      refine ⟨hhid, ?_, fun k' hk' => htodo k' (List.mem_cons_of_mem _ hk')⟩
      intro hcid hmem
      exact htodo k List.mem_cons_self ⟨hcid, hmem⟩
  | envelope phase k record todo =>
      obtain ⟨hhid, -, htodo⟩ := hsealed nofun
      exact ⟨hhid, htodo⟩
  | check | absent | upsert => exact hsealed nofun
  | skip | publish =>
      obtain ⟨hhid, hranges, htodo⟩ := hsealed nofun
      exact ⟨hhid, fun hcid hmem => hranges hcid (List.mem_cons_of_mem _ hmem), htodo⟩

private theorem commits_step (hs : a.step cfg seen host disk = some (host', disk', a', log))
    (hnot : ¬ a.Commits key) (h : host.control.status key = some .draining ∨
      host.control.status key = some .stopped ∧ a.Sealed disk key) :
    ¬ a'.Commits key ∧ ∀ record, .shard key record ∉ log := by
  have hann : host.control.isAnnouncing key = false := by
    by_contra hann
    have hstatus := (isAnnouncing_iff host.control key).mp (by simpa using hann)
    rcases h with h | ⟨h, -⟩
    · simp [h] at hstatus
    · simp [h] at hstatus
  cases moves_of_step hs with
  | persist p => cases (p.step host disk).2.2 <;> simp [Commits]
  | check k record r ranges todo =>
      refine ⟨?_, by simp⟩
      by_cases hkey : (k.modelCid, r) = key
      · simp [hkey, hann, Commits]
      · split_ifs <;> simp [Commits, hkey]
  | @absent k r record ranges todo hstatus =>
      refine ⟨?_, by simp⟩
      -- A slice that is gone from the control state, or stopped, is not sealed where the round is.
      rintro rfl
      rcases h with h | ⟨h, -, hranges, -⟩
      · simp [h] at hstatus
      · exact hranges rfl List.mem_cons_self
  | upsert k record r ranges todo => exact ⟨hnot, by simp⟩
  | publish k record r ranges todo =>
      refine ⟨by simp [Commits], fun record' hmem => hnot ?_⟩
      obtain ⟨hkey, -⟩ := Published.shard.inj (List.mem_singleton.mp hmem)
      exact hkey.symm
  | _ => simp [Commits]

theorem filed_step (hs : a.step cfg seen host disk = some (host', disk', a', log))
    (h : disk.Filed) : disk'.Filed := by
  cases moves_of_step hs with
  | persist p => exact Persisting.filed_step h
  | _ => exact h

end Announcing

/-- What an operation other than a new announcement does to a slice that is not Announcing. -/
theorem Op.onEntry_left {o : Op} {now : Nat} {key : SliceKey} {e e' : SliceEntry}
    (h : o.onEntry now key (some e) = some e') (hout : e.state ≠ .announcing)
    (hup : ∀ name, o ≠ .upsertAnnouncing key name) :
    e'.state = e.state ∨ e.state = .draining ∧ e'.state = .stopped ∧
      (o.releases key = true ∧ e.activeChains.toNat ≤ 1 ∨
        o = .drainIdle ∧ ControlState.idle e = true ∨ o = .watchdogForceStop) := by
  cases o with
  | release g | detachedRelease g =>
      have hpred := le_one_of_saturatingPred_eq_zero (n := e.activeChains)
      grind [onEntry, releases, ControlState.releaseEntry]
  | _ => grind [onEntry, releases, ControlState.upsertEntry, ControlState.idle]

namespace Daemon

variable {cfg : NodeConfig} {d d' : Daemon} {ev : Event} {key : SliceKey}

/-- Neither the round in progress nor a later scan comes upon the slice. -/
def Sealed (d : Daemon) (key : SliceKey) : Prop := ∀ a ∈ d.announce, a.Sealed d.disk key

def Quiet (key : SliceKey) : Event → Prop
  | .request (.join cid start stop) => (cid, start, stop) ≠ key
  | .contribute k => ¬ k.Lists key
  | _ => True

/-- Steps that do not stop the slice behind the back of the announce loop: a chain that ends and a
force-stop stop it only when no scan would find it any more, and the watchdog's own
`persist_drained_slices` finds no slice of the model to record. -/
def DurableStep (key : SliceKey) (d : Daemon) : Event → Prop
  | .chain (.release g) | .chain (.detachedRelease g) =>
      g.key = key → ∀ e, d.host.entry key = some e → e.state = .draining →
        e.activeChains.toNat ≤ 1 → d.Sealed key
  | .watchdogForceStop => d.host.Draining key → d.Sealed key
  | .watchdogPersist =>
      ∀ p ∈ d.persisting, p matches .drain → ∀ k ∈ d.host.control.drainIdle.1, k.1 ≠ key.1
  | _ => True

/-- The leave of the slice finds no task in the middle of announcing it, and the watchdog not in
the middle of recording drains of its model. -/
def LeftCleanly (key : SliceKey) (d : Daemon) : Prop :=
  (∀ a ∈ d.announce, ¬ a.Commits key) ∧ ∀ p ∈ d.persisting, p.Avoids key.1

/-- The slice was left and is out of the daemon's hands. -/
structure Left (key : SliceKey) (d : Daemon) : Prop where
  out : d.host.Draining key ∨ d.host.Stopped key ∧ d.Sealed key
  cleanly : LeftCleanly key d
  filed : d.disk.Filed

private theorem opOf_ne_upsert (hl : Left key d) (hq : Quiet key ev) (hs : d.step cfg ev = some d')
    (name : String) : d.opOf ev ≠ some (.upsertAnnouncing key name) := by
  intro hop
  cases ev with
  | chain o =>
      obtain rfl : o = .upsertAnnouncing key name := Option.some.inj hop
      simp [step, Op.isChain] at hs
  | request req => cases req <;> grind [opOf, Quiet]
  | announce seen =>
      obtain ⟨a, ha, hop⟩ := Option.bind_eq_some_iff.mp hop
      refine hl.cleanly.1 a ha ?_
      unfold Announcing.op at hop
      split at hop
      · rename_i p
        cases p <;> cases hop
      · obtain ⟨hkey, -⟩ := Op.upsertAnnouncing.inj (Option.some.inj hop)
        exact hkey
      · cases hop
  | watchdogPersist =>
      obtain ⟨p, -, hop⟩ := Option.bind_eq_some_iff.mp hop
      cases p <;> cases hop
  | shutdownDrain =>
      obtain ⟨todo, -, hop⟩ := Option.bind_eq_some_iff.mp hop
      cases todo <;> cases hop
  | _ => cases hop

theorem status_eq (key : SliceKey) : d.host.control.status key = (d.host.entry key).map (·.state) :=
  rfl

private theorem left_status (hl : Left key d) (hq : Quiet key ev) (hs : d.step cfg ev = some d') :
    (d'.host.control.status key = d.host.control.status key ∧
      (d.host.Draining key ∨ d.host.Stopped key ∧ d.Sealed key)) ∨
    ∃ e o, d.host.entry key = some e ∧ e.state = .draining ∧ d'.host.Stopped key ∧
      d.opOf ev = some o ∧
      (o.releases key = true ∧ e.activeChains.toNat ≤ 1 ∨
        o = .drainIdle ∧ ControlState.idle e = true ∨ o = .watchdogForceStop) := by
  have hperf := step_performs hs
  cases hop : d.opOf ev with
  | none =>
      rw [hop] at hperf
      exact .inl ⟨by rw [show d'.host = d.host from hperf], hl.out⟩
  | some o =>
      rw [hop] at hperf
      obtain ⟨e, he, hstate⟩ : ∃ e, d.host.entry key = some e ∧ e.state ≠ .announcing := by
        rcases hl.out with h | ⟨h, -⟩ <;>
        · obtain ⟨e, he, hst⟩ := Option.map_eq_some_iff.mp h
          exact ⟨e, he, by simp [hst]⟩
      have hentry := Host.step_entry hperf key
      rw [he] at hentry
      cases he' : d'.host.entry key with
      | none => exact absurd (hentry.symm.trans he') Op.onEntry_some_ne_none
      | some e' =>
          have hup : ∀ name, o ≠ .upsertAnnouncing key name := fun name h =>
            opOf_ne_upsert hl hq hs name (by rw [hop, h])
          rcases Op.onEntry_left (hentry.symm.trans he') hstate hup with hsame | ⟨hd, hst, hwhy⟩
          · exact .inl ⟨by rw [status_eq, status_eq, he, he', Option.map_some, Option.map_some,
              hsame], hl.out⟩
          · exact .inr ⟨e, o, he, hd, by simp [Host.Stopped, status_eq, he', hst], rfl, hwhy⟩

private theorem notMore_step (hl : Left key d) (hq : Quiet key ev) (hs : d.step cfg ev = some d')
    (hann : ∀ seen, ev ≠ .announce seen) : Shards.NotMore d.disk d'.disk key := by
  cases ev with
  | contributing cid =>
      obtain rfl := Option.some.inj hs
      exact Shards.notMore_truncateKept cid
  | contribute k =>
      obtain rfl := Option.some.inj hs
      exact Shards.notMore_writeKept hq
  | announce seen => exact absurd rfl (hann seen)
  | watchdogPersist =>
      obtain ⟨p, hp, rfl⟩ := Option.map_eq_some_iff.mp hs
      exact Persisting.notMore_step (hl.cleanly.2 p hp)
  | chain o => cases o <;> grind [step, Option.map_eq_some_iff, Shards.NotMore.refl]
  | _ => grind [step, Option.map_eq_some_iff, Shards.NotMore.refl]

/-- The announce loop moves in its own steps only; a tick starts a round. -/
theorem announce_step (hs : d.step cfg ev = some d') (hann : ∀ seen, ev ≠ .announce seen) :
    d'.announce = d.announce ∨ d.announce = some .idle ∧ d'.announce = some (.persist .drain) := by
  cases ev with
  | announce seen => exact absurd rfl (hann seen)
  | chain o => cases o <;> grind [step, Option.map_eq_some_iff]
  | announceTick =>
      obtain ⟨hidle, hs⟩ := Option.ite_none_right_eq_some.mp hs
      obtain rfl := Option.some.inj hs
      refine .inr ⟨?_, rfl⟩
      grind
  | _ => grind [step, Option.map_eq_some_iff]

theorem Sealed.step (hl : Left key d) (hq : Quiet key ev) (hs : d.step cfg ev = some d')
    (hann : ∀ seen, ev ≠ .announce seen) (h : d.Sealed key) : d'.Sealed key := by
  have hle := notMore_step hl hq hs hann
  intro a' ha'
  rcases announce_step hs hann with heq | ⟨hidle, hdrain⟩
  · exact (h a' (heq ▸ ha')).of_notMore hle
  · obtain rfl : Announcing.persist .drain = a' := by simpa [hdrain] using ha'
    exact Shards.Hides.of_notMore hle (h .idle (by simp [hidle]))

/-- The announce loop persists what its own `drain_idle` stops, and stays sealed from it. -/
private theorem sealed_announce {seen : Seen} (hl : Left key d)
    (hs : d.step cfg (.announce seen) = some d')
    (h : d.Sealed key ∨ ∃ e, d.opOf (.announce seen) = some .drainIdle ∧
      d.host.entry key = some e ∧ ControlState.idle e = true) : d'.Sealed key := by
  obtain ⟨⟨host, disk, a', log⟩, hstep, rfl⟩ := Option.map_eq_some_iff.mp hs
  obtain ⟨a, ha, hstep⟩ := Option.bind_eq_some_iff.mp hstep
  intro a'' ha''
  obtain rfl : a' = a'' := by simpa using ha''
  refine Announcing.sealed_step hstep hl.filed (h.imp (fun h => h a ha) ?_)
  rintro ⟨e, hop, he, hidle⟩
  refine ⟨?_, (mem_drainIdle d.host.control key).mpr ⟨e, he, hidle⟩⟩
  simp only [opOf, ha, Option.bind_some] at hop
  unfold Announcing.op at hop
  split at hop
  · rename_i p
    cases p <;> first | rfl | cases hop
  · cases hop
  · cases hop

theorem opOf_releases {o : Op} (hop : d.opOf ev = some o) (hrel : o.releases key = true) :
    ev = .chain o := by
  cases ev with
  | chain o' => rw [Option.some.inj hop]
  | request req => cases req <;> cases hop <;> cases hrel
  | announce seen =>
      obtain ⟨a, -, hop⟩ := Option.bind_eq_some_iff.mp hop
      unfold Announcing.op at hop
      split at hop
      · rename_i p
        cases p <;> cases hop
        cases hrel
      · cases hop
        cases hrel
      · cases hop
  | watchdogPersist =>
      obtain ⟨p, -, hop⟩ := Option.bind_eq_some_iff.mp hop
      cases p <;> cases hop
      cases hrel
  | shutdownDrain =>
      obtain ⟨todo, -, hop⟩ := Option.bind_eq_some_iff.mp hop
      cases todo <;> cases hop
      cases hrel
  | _ => cases hop <;> cases hrel

theorem opOf_watchdogForceStop (hs : d.step cfg ev = some d')
    (hop : d.opOf ev = some .watchdogForceStop) : ev = .watchdogForceStop := by
  cases ev with
  | chain o =>
      obtain rfl := Option.some.inj hop
      simp [step, Op.isChain] at hs
  | request req => cases req <;> cases hop
  | announce seen =>
      obtain ⟨a, -, hop⟩ := Option.bind_eq_some_iff.mp hop
      unfold Announcing.op at hop
      split at hop
      · rename_i p
        cases p <;> cases hop
      · cases hop
      · cases hop
  | watchdogPersist =>
      obtain ⟨p, -, hop⟩ := Option.bind_eq_some_iff.mp hop
      cases p <;> cases hop
  | shutdownDrain =>
      obtain ⟨todo, -, hop⟩ := Option.bind_eq_some_iff.mp hop
      cases todo <;> cases hop
  | watchdogForceStop => rfl
  | _ => cases hop

theorem opOf_drainIdle (hs : d.step cfg ev = some d') (hop : d.opOf ev = some .drainIdle) :
    (∃ seen, ev = .announce seen) ∨ ev = .watchdogPersist ∧ ∃ p ∈ d.persisting,
      p matches .drain := by
  cases ev with
  | chain o =>
      obtain rfl := Option.some.inj hop
      simp [step, Op.isChain] at hs
  | request req => cases req <;> cases hop
  | announce seen => exact .inl ⟨seen, rfl⟩
  | watchdogPersist =>
      obtain ⟨p, hp, hop⟩ := Option.bind_eq_some_iff.mp hop
      cases p <;> cases hop
      exact .inr ⟨rfl, _, hp, rfl⟩
  | shutdownDrain =>
      obtain ⟨todo, -, hop⟩ := Option.bind_eq_some_iff.mp hop
      cases todo <;> cases hop
  | _ => cases hop

private theorem out_step (hl : Left key d) (hq : Quiet key ev) (hok : DurableStep key d ev)
    (hs : d.step cfg ev = some d') :
    d'.host.Draining key ∨ d'.host.Stopped key ∧ d'.Sealed key := by
  rcases left_status hl hq hs with ⟨hsame, hout⟩ | ⟨e, o, he, hd, hstop, hop, hwhy⟩
  · refine hout.imp (hsame.trans ·) fun ⟨hst, hseal⟩ => ⟨hsame.trans hst, ?_⟩
    by_cases hann : ∃ seen, ev = .announce seen
    · obtain ⟨seen, rfl⟩ := hann
      exact sealed_announce hl hs (.inl hseal)
    · exact hseal.step hl hq hs fun seen h => hann ⟨seen, h⟩
  · refine .inr ⟨hstop, ?_⟩
    rcases hwhy with ⟨hrel, hactive⟩ | ⟨rfl, hidle⟩ | rfl
    · obtain rfl := opOf_releases hop hrel
      refine Sealed.step hl hq hs (fun seen => by simp) ?_
      cases o with
      | release g | detachedRelease g =>
        exact hok (by simpa [Op.releases] using hrel) e he hd hactive
      | _ => cases hrel
    · rcases opOf_drainIdle hs hop with ⟨seen, rfl⟩ | ⟨rfl, p, hp, hdrain⟩
      · exact sealed_announce hl hs (.inr ⟨e, hop, he, hidle⟩)
      · exact absurd rfl (hok p hp hdrain key
          ((mem_drainIdle d.host.control key).mpr ⟨e, he, hidle⟩))
    · obtain rfl := opOf_watchdogForceStop hs hop
      exact Sealed.step hl hq hs (fun seen => by simp)
        (hok (by simp [Host.Draining, status_eq, he, hd]))

def publications (d : Daemon) (key : SliceKey) : List Published :=
  d.published.filter fun
    | .shard k _ => k = key
    | .model _ => false

private theorem cleanly_step (hl : Left key d) (hok : DurableStep key d ev)
    (hs : d.step cfg ev = some d') :
    LeftCleanly key d' ∧ d'.publications key = d.publications key := by
  cases ev with
  | announce seen =>
      obtain ⟨⟨host, disk, a', log⟩, hstep, rfl⟩ := Option.map_eq_some_iff.mp hs
      obtain ⟨a, ha, hstep⟩ := Option.bind_eq_some_iff.mp hstep
      obtain ⟨hcommit, hlog⟩ := Announcing.commits_step hstep (hl.cleanly.1 a ha)
        (hl.out.imp id fun ⟨hst, hseal⟩ => ⟨hst, hseal a ha⟩)
      refine ⟨⟨fun a'' ha'' => ?_, hl.cleanly.2⟩, ?_⟩
      · obtain rfl : a' = a'' := by simpa using ha''
        exact hcommit
      · unfold publications
        rw [List.filter_append, List.append_left_eq_self, List.filter_eq_nil_iff]
        rintro (⟨k, record⟩ | env) hmem
        · rintro hkey
          obtain rfl : k = key := by simpa using hkey
          exact hlog record hmem
        · simp
  | watchdogPersist =>
      obtain ⟨p, hp, rfl⟩ := Option.map_eq_some_iff.mp hs
      refine ⟨⟨hl.cleanly.1, Persisting.avoids_step (hl.cleanly.2 p hp) fun hdrain => ?_⟩, rfl⟩
      exact hok p hp (by rw [hdrain])
  | watchdogForceStop =>
      obtain ⟨host, -, rfl⟩ := Option.map_eq_some_iff.mp hs
      refine ⟨⟨hl.cleanly.1, fun p hp => ?_⟩, rfl⟩
      obtain rfl := Option.some.inj hp
      trivial
  | announceTick =>
      obtain ⟨-, hs⟩ := Option.ite_none_right_eq_some.mp hs
      obtain rfl := Option.some.inj hs
      refine ⟨⟨fun a ha => ?_, hl.cleanly.2⟩, rfl⟩
      obtain rfl := Option.some.inj ha
      exact id
  | chain o =>
      have hsame : d'.announce = d.announce ∧ d'.persisting = d.persisting ∧
          d'.published = d.published := by
        cases o <;> grind [step, Option.map_eq_some_iff]
      obtain ⟨ha, hp, hpub⟩ := hsame
      exact ⟨⟨by rw [ha]; exact hl.cleanly.1, by rw [hp]; exact hl.cleanly.2⟩,
        by rw [publications, hpub, publications]⟩
  | _ =>
      have hsame : d'.announce = d.announce ∧ d'.persisting = d.persisting ∧
          d'.published = d.published := by
        grind [step, Option.map_eq_some_iff]
      obtain ⟨ha, hp, hpub⟩ := hsame
      exact ⟨⟨by rw [ha]; exact hl.cleanly.1, by rw [hp]; exact hl.cleanly.2⟩,
        by rw [publications, hpub, publications]⟩

theorem filed_step (hs : d.step cfg ev = some d') (h : d.disk.Filed) : d'.disk.Filed := by
  cases ev with
  | contributing cid =>
      obtain rfl := Option.some.inj hs
      exact h.truncateKept cid
  | contribute k =>
      obtain rfl := Option.some.inj hs
      exact h.writeKept k
  | announce seen =>
      obtain ⟨⟨host, disk, a', log⟩, hstep, rfl⟩ := Option.map_eq_some_iff.mp hs
      obtain ⟨a, ha, hstep⟩ := Option.bind_eq_some_iff.mp hstep
      exact Announcing.filed_step hstep h
  | watchdogPersist =>
      obtain ⟨p, hp, rfl⟩ := Option.map_eq_some_iff.mp hs
      exact Persisting.filed_step h
  | chain o => cases o <;> grind [step, Option.map_eq_some_iff]
  | _ => grind [step, Option.map_eq_some_iff]

theorem Left.step (hl : Left key d) (hq : Quiet key ev) (hok : DurableStep key d ev)
    (hs : d.step cfg ev = some d') : Left key d' where
  out := out_step hl hq hok hs
  cleanly := (cleanly_step hl hok hs).1
  filed := filed_step hs hl.filed

def Leaves (cfg : NodeConfig) (key : SliceKey) (d d' : Daemon) : Prop :=
  (dispatch d.host.control d.host.now (.leave key.1 key.2.1 key.2.2)).1 = .leaving ∧
    d.step cfg (.request (.leave key.1 key.2.1 key.2.2)) = some d'

/-- The slice is not Announcing, admits no chain, and was not published since `d`. -/
def NotUndone (key : SliceKey) (d d' : Daemon) : Prop :=
  d'.host.control.status key ≠ some .announcing ∧ d'.host.control.acceptChain key = none ∧
    d'.publications key = d.publications key

theorem Leaves.left (h : Leaves cfg key d d') (hclean : LeftCleanly key d) (hf : d.disk.Filed) :
    Left key d' := by
  obtain ⟨hanswer, hs⟩ := h
  obtain ⟨-, hs⟩ := Option.ite_none_left_eq_some.mp hs
  obtain rfl := Option.some.inj hs
  refine ⟨.inl ?_, hclean, hf⟩
  have hbegan : (d.host.control.beginDrain d.host.now key).1 = true := by
    by_contra hno
    simp only [dispatch, hno] at hanswer
    cases hanswer
  have hann := (beginDrain_accepted_iff d.host.control key d.host.now).mp hbegan
  obtain ⟨e, he, hst⟩ := Option.map_eq_some_iff.mp hann
  simp [Host.Draining, dispatch, hbegan, ControlState.status, get_beginDrain, he, hst]

private theorem Left.notUndone (hl : Left key d) :
    d.host.control.status key ≠ some .announcing ∧ d.host.control.acceptChain key = none := by
  have hne : d.host.control.status key ≠ some .announcing := by
    rcases hl.out with h | ⟨h, -⟩
    · simp [show d.host.control.status key = _ from h]
    · simp [show d.host.control.status key = _ from h]
  refine ⟨hne, ?_⟩
  by_contra hacc
  obtain ⟨st, hacc⟩ := Option.ne_none_iff_exists'.mp hacc
  obtain ⟨e, he, hann, -⟩ := acceptChain_eq_some.mp hacc
  exact hne (by simp [ControlState.status, he, hann])

/-- A leave is not undone by the daemon: in every run of durable steps without a new join or
contribution the slice stays out of Announcing, unpublished and closed to chains. -/
theorem leave_durable (cfg : NodeConfig) (peerId : String) (now : Nat) (seen : Seen) (disk : Shards)
    (hfiled : disk.Filed) (es : List Event) (d d₁ : Daemon)
    (hboot : Run (step cfg) (fun _ _ => True) (boot peerId now seen disk) es d) (key : SliceKey)
    (hleave : Leaves cfg key d d₁) (hclean : LeftCleanly key d) (es' : List Event) (d₂ : Daemon)
    (hrun : Run (step cfg) (fun d ev => Quiet key ev ∧ DurableStep key d ev) d₁ es' d₂) :
    NotUndone key d₁ d₂ := by
  have hf : d.disk.Filed := hboot.invariant (I := fun d => d.disk.Filed) hfiled
    fun _ _ _ h _ hs => filed_step hs h
  have hinv : Left key d₂ ∧ d₂.publications key = d₁.publications key :=
    hrun.invariant (I := fun d => Left key d ∧ d.publications key = d₁.publications key)
      ⟨hleave.left hclean hf, rfl⟩ fun _ _ _ ⟨hl, hpub⟩ ⟨hq, hok⟩ hs =>
        ⟨hl.step hq hok hs, (cleanly_step hl hok hs).2.trans hpub⟩
  exact ⟨hinv.1.notUndone.1, hinv.1.notUndone.2, hinv.2⟩

private def sampleConfig : NodeConfig := ⟨"host", [], none, none⟩

private def sampleSeen : Seen := ⟨["m"], 0, none⟩

private def sampleKey : SliceKey := ("m", 0, 4)

private def sampleDisk : Shards :=
  Shards.writeKept ∅ "m" (some ⟨"m", "", 4, "", [(0, 4)]⟩)

private theorem sampleDisk_filed : sampleDisk.Filed :=
  Shards.Filed.writeKept (show Shards.Filed ∅ from fun _ _ hk => by cases hk)
    ⟨"m", "", 4, "", [(0, 4)]⟩

private def hosting : List Event :=
  List.replicate 5 (.announce sampleSeen) ++ [.chain (.acceptChain sampleKey)]

private def chainEnds : List Event :=
  [.chain (.dropGuard ⟨0, sampleKey⟩), .chain (.detachedRelease ⟨0, sampleKey⟩), .announceTick] ++
    List.replicate 10 (.announce sampleSeen)

/-- A leave is undone: the chain that ends between two announce ticks stops the slice without a
trace on disk, and the next tick finds it there and announces it again. -/
theorem leave_undone :
    ¬ ∀ (cfg : NodeConfig) (peerId : String) (now : Nat) (seen : Seen) (disk : Shards),
      disk.Filed → ∀ (es : List Event) (d d₁ : Daemon),
        Run (step cfg) (fun _ _ => True) (boot peerId now seen disk) es d →
          ∀ key, Leaves cfg key d d₁ → ∀ (es' : List Event) (d₂ : Daemon),
            Run (step cfg) (fun _ ev => Quiet key ev) d₁ es' d₂ → NotUndone key d₁ d₂ := by
  intro hall
  have hfacts :
    (exec (step sampleConfig) (boot "host" 0 sampleSeen sampleDisk) hosting).any (fun d =>
      decide ((dispatch d.host.control d.host.now (.leave "m" 0 4)).1 = .leaving) &&
      (d.step sampleConfig (.request (.leave "m" 0 4))).any fun d₁ =>
        (exec (step sampleConfig) d₁ chainEnds).any fun d₂ =>
          decide (d₂.host.control.status sampleKey = some .announcing)) = true := by
    decide
  obtain ⟨d, hd, hfacts⟩ := (Option.any_eq_true _ _).mp hfacts
  obtain ⟨hanswer, hfacts⟩ := Bool.and_eq_true_iff.mp hfacts
  obtain ⟨d₁, hd₁, hfacts⟩ := (Option.any_eq_true _ _).mp hfacts
  obtain ⟨d₂, hd₂, hfacts⟩ := (Option.any_eq_true _ _).mp hfacts
  have hboot := Run.of_exec (fun _ _ => True) hd fun _ _ _ => trivial
  have hquiet := Run.of_exec (fun _ ev => Quiet sampleKey ev) hd₂ fun _ ev hev => by
    simp only [chainEnds, List.mem_append, List.mem_cons, List.mem_replicate] at hev
    rcases hev with (rfl | rfl | rfl | hev) | ⟨-, rfl⟩
    · trivial
    · trivial
    · trivial
    · cases hev
    · trivial
  exact (hall _ _ _ _ _ sampleDisk_filed _ _ _ hboot sampleKey ⟨of_decide_eq_true hanswer, hd₁⟩ _ _
    hquiet).1 (of_decide_eq_true hfacts)

def isIdle (d : Daemon) : Bool := d.announce matches some .idle

theorem isIdle_iff {d : Daemon} : d.isIdle = true ↔ d.announce = some .idle := by
  rw [isIdle]
  split
  · rename_i h
    exact iff_of_true rfl h
  · rename_i h
    exact iff_of_false Bool.false_ne_true h

/-- With no chain attached the same leave lasts: the announce loop's own `drain_idle` stops the
slice and records it. -/
theorem leave_durable_idle :
    ∃ d d₁ d₂, Leaves sampleConfig sampleKey d d₁ ∧
      exec (step sampleConfig) d₁ (.announceTick :: List.replicate 9 (.announce sampleSeen)) =
        some d₂ ∧
      d₂.host.Stopped sampleKey ∧ NotUndone sampleKey d₁ d₂ := by
  have hfacts : (exec (step sampleConfig) (boot "host" 0 sampleSeen sampleDisk)
        (List.replicate 5 (.announce sampleSeen))).any (fun d =>
      decide ((dispatch d.host.control d.host.now (.leave "m" 0 4)).1 = .leaving) &&
      d.isIdle && d.persisting.isNone &&
      (d.step sampleConfig (.request (.leave "m" 0 4))).any fun d₁ =>
        (exec (step sampleConfig) d₁
          (.announceTick :: List.replicate 9 (.announce sampleSeen))).any fun d₂ =>
            decide (d₂.host.Stopped sampleKey)) = true := by
    decide
  obtain ⟨d, hd, hfacts⟩ := (Option.any_eq_true _ _).mp hfacts
  simp only [Bool.and_eq_true, decide_eq_true_eq] at hfacts
  obtain ⟨⟨⟨hanswer, hidle⟩, hnone⟩, hfacts⟩ := hfacts
  obtain ⟨d₁, hd₁, hfacts⟩ := (Option.any_eq_true _ _).mp hfacts
  obtain ⟨d₂, hd₂, hfacts⟩ := (Option.any_eq_true _ _).mp hfacts
  have hboot := Run.of_exec (fun _ _ => True) hd fun _ _ _ => trivial
  have hclean : LeftCleanly sampleKey d := by
    refine ⟨fun a ha => ?_, fun p hp => by simp [Option.isNone_iff_eq_none.mp hnone] at hp⟩
    obtain rfl : a = .idle := Option.some.inj (ha.symm.trans (isIdle_iff.mp hidle))
    exact id
  have hrun := Run.of_exec (fun d ev => Quiet sampleKey ev ∧ DurableStep sampleKey d ev) hd₂
    fun x ev hev => by
      simp only [List.mem_cons, List.mem_replicate] at hev
      rcases hev with rfl | ⟨-, rfl⟩ <;> exact ⟨trivial, trivial⟩
  exact ⟨d, d₁, d₂, ⟨hanswer, hd₁⟩, hd₂, of_decide_eq_true hfacts,
    leave_durable sampleConfig "host" 0 sampleSeen sampleDisk sampleDisk_filed _ d d₁
      hboot sampleKey
      ⟨hanswer, hd₁⟩ hclean _ d₂ hrun⟩

end Daemon

end IntelNav.App
