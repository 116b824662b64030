import IntelNav.App.DrainRecord

/-! After a slice was left: what the next announce tick makes of a new contribution or a join. -/

set_option autoImplicit false
set_option relaxedAutoImplicit false

namespace IntelNav.App

open IntelNav.Transition IntelNav.Net

variable {key : SliceKey}

def Shards.Keeps (disk : Shards) (key : SliceKey) : Prop :=
  ∃ k, disk.kept key.1 = some k ∧ k.Lists key

private theorem Shards.kept_congr {disk disk' : Shards} {dir : String}
    (h : disk'.lookup dir = disk.lookup dir) : disk'.kept dir = disk.kept dir := by
  rw [Shards.kept, Shards.kept, h]

private theorem Shards.loadDisabled_congr {disk disk' : Shards} {dir : String}
    (h : disk'.lookup dir = disk.lookup dir) : disk'.loadDisabled dir = disk.loadDisabled dir := by
  rw [Shards.loadDisabled, Shards.loadDisabled, h]

private theorem Shards.not_recorded_writeDisabled {disk : Shards} {dir : String}
    {contents : Option DisabledRanges} (hrec : ¬ disk.Recorded key)
    (h : dir = key.1 → ¬ (contents.getD ⟨[]⟩).contains key.2.1 key.2.2 = true) :
    ¬ (disk.writeDisabled dir contents).Recorded key := by
  by_cases hdir : dir = key.1
  · subst hdir
    by_cases hpresent : disk.Present key.1
    · rw [Shards.Recorded, hpresent.loadDisabled]
      exact h rfl
    · have hnone : disk.lookup key.1 = none := by
        simpa [Shards.Present] using hpresent
      rw [Shards.writeDisabled, hnone]
      exact hrec
  · rw [Shards.Recorded, Shards.loadDisabled_writeDisabled_ne disk contents (Ne.symm hdir)]
    exact hrec

namespace Persisting

variable {p : Persisting} {host : Host} {disk : Shards}

def Shuns (p : Persisting) (key : SliceKey) : Prop :=
  match p with
  | .drain => True
  | .range todo => key ∉ todo
  | .loaded k disabled todo | .truncated k disabled todo =>
      k ≠ key ∧ key ∉ todo ∧ (k.1 = key.1 → ¬ disabled.contains key.2.1 key.2.2 = true)

private theorem shuns_next {todo : List SliceKey} (h : key ∉ todo) : ∀ p ∈ next todo,
    p.Shuns key := by
  cases todo with
  | nil => simp [next]
  | cons k todo =>
      intro p hp
      obtain rfl : Persisting.range (k :: todo) = p := by simpa [next] using hp
      exact h

private theorem shuns_step (h : p.Shuns key) (hrec : ¬ disk.Recorded key)
    (hst : host.control.status key ≠ some .draining) :
    (∀ p' ∈ (p.step host disk).2.2, p'.Shuns key) ∧ ¬ (p.step host disk).2.1.Recorded key := by
  cases p with
  | drain =>
      refine ⟨shuns_next fun hmem => ?_, hrec⟩
      obtain ⟨e, he, hidle⟩ := (mem_drainIdle host.control key).mp hmem
      simp only [ControlState.idle, decide_eq_true_eq] at hidle
      exact hst (by simp [ControlState.status, he, hidle])
  | range todo =>
      cases todo with
      | nil => exact ⟨by simp [step], hrec⟩
      | cons k todo =>
          refine ⟨fun p' hp' => ?_, hrec⟩
          obtain rfl := Option.some.inj hp'
          have hmem : key ∉ k :: todo := h
          rw [List.mem_cons, not_or] at hmem
          obtain ⟨hne, hmem⟩ := hmem
          refine ⟨Ne.symm hne, hmem, fun hcid hcon => ?_⟩
          rw [hcid, DisabledRanges.contains_add] at hcon
          rcases hcon with hcon | ⟨h₁, h₂⟩
          · exact hrec hcon
          · exact hne (Prod.ext hcid.symm (Prod.ext h₁ h₂))
  | loaded k disabled todo =>
      refine ⟨fun p' hp' => ?_, ?_⟩
      · obtain rfl := Option.some.inj hp'
        exact h
      · exact Shards.not_recorded_writeDisabled hrec fun _ => by simp [DisabledRanges.contains]
  | truncated k disabled todo =>
      exact ⟨shuns_next h.2.1, Shards.not_recorded_writeDisabled hrec h.2.2⟩

private theorem kept_step (p : Persisting) (host : Host) (disk : Shards) (dir : String) :
    (p.step host disk).2.1.kept dir = disk.kept dir := by
  cases p with
  | drain => rfl
  | range todo => cases todo <;> rfl
  | loaded k disabled todo => exact Shards.kept_writeDisabled _ _ _ _
  | truncated k disabled todo => exact Shards.kept_writeDisabled _ _ _ _

end Persisting

namespace Announcing

variable {cfg : NodeConfig} {seen : Seen} {a a' : Announcing} {host host' : Host}
variable {disk disk' : Shards} {log : List Published}

def Ahead (a : Announcing) (key : SliceKey) : Prop :=
  match a with
  | .idle => False
  | .persist _ | .scan => True
  | .readKept todo out => key.1 ∈ todo ∨ ∃ k ∈ out, k.Lists key
  | .readDisabled dir k todo out =>
      dir = key.1 ∧ k.Lists key ∨ key.1 ∈ todo ∨ ∃ k ∈ out, k.Lists key
  | .model _ todo => ∃ k ∈ todo, k.Lists key
  | .range _ k _ ranges todo => (k.modelCid = key.1 ∧ key.2 ∈ ranges) ∨ ∃ k ∈ todo, k.Lists key

def Sure (a : Announcing) (host : Host) (key : SliceKey) : Prop :=
  match a with
  | .range .status k _ (r :: _) _ =>
      (k.modelCid, r) = key → host.control.status key ≠ some .announcing
  | .range .publish k _ (r :: _) _ =>
      (k.modelCid, r) = key → host.control.status key = some .announcing
  | _ => True

private theorem status_step (hs : a.step cfg seen host disk = some (host', disk', a', log))
    (hst : host.control.status key ≠ some .draining) :
    host'.control.status key = host.control.status key ∨
      host'.control.status key = some .announcing := by
  cases moves_of_step hs with
  | persist p =>
      cases p with
      | drain =>
          left
          simp only [Persisting.step, ControlState.status, get_drainIdle, Option.map_map]
          cases he : host.control.get key with
          | none => rfl
          | some e =>
              have hne : ControlState.idle e = false := by
                by_contra hidle
                simp only [ControlState.idle, Bool.not_eq_false, decide_eq_true_eq] at hidle
                exact hst (by simp [ControlState.status, he, hidle])
              simp [hne]
      | range todo => cases todo <;> exact .inl rfl
      | _ => exact .inl rfl
  | upsert k record r ranges todo =>
      simp only [ControlState.status, get_upsertAnnouncing]
      split_ifs with hkey
      · right
        rw [← hkey]
        cases host.control.get key <;> rfl
      · exact .inl rfl
  | _ => exact .inl rfl

/-- `retain` leaves a range that is not disabled. -/
private theorem lists_retain {k : KeptRanges} {disabled : DisabledRanges} (hk : k.Lists key)
    (h : ¬ disabled.contains key.2.1 key.2.2 = true) : (k.retain disabled).Lists key := by
  refine ⟨hk.1, List.mem_filter.mpr ⟨hk.2, ?_⟩⟩
  simpa using h

private theorem sure_step (hs : a.step cfg seen host disk = some (host', disk', a', log))
    (h : a.Sure host key) : a'.Sure host' key := by
  cases moves_of_step hs with
  | persist p => cases (p.step host disk).2.2 <;> exact trivial
  | model mintedAt k todo => cases hk : k.kept <;> simp [Sure]
  | check k record r ranges todo =>
      split_ifs with hann
      · rintro rfl
        exact (isAnnouncing_iff host.control _).mp hann
      · rintro rfl hst
        exact hann ((isAnnouncing_iff host.control _).mpr hst)
  | skip record ranges todo => cases ranges <;> exact trivial
  | upsert k record r ranges todo =>
      rintro rfl
      simp only [ControlState.status, get_upsertAnnouncing, if_true]
      cases host.control.get (k.modelCid, r) <;> rfl
  | publish k record r ranges todo => cases ranges <;> exact trivial
  | _ => exact trivial

/-- The rest of the ranges, when the one at the head is another slice. -/
private theorem rest_ahead {k : KeptRanges} {r : UInt16 × UInt16} {ranges : List (UInt16 × UInt16)}
    {todo : List KeptRanges} (hne : (k.modelCid, r) ≠ key)
    (h : k.modelCid = key.1 ∧ key.2 ∈ r :: ranges ∨ ∃ k ∈ todo, k.Lists key) :
    k.modelCid = key.1 ∧ key.2 ∈ ranges ∨ ∃ k ∈ todo, k.Lists key := by
  apply h.imp_left
  rintro ⟨hcid, hmem⟩
  refine ⟨hcid, ?_⟩
  rcases List.mem_cons.mp hmem with heq | hmem
  · exact absurd (Prod.ext hcid heq.symm) hne
  · exact hmem

/-- The ranges read from a directory are retained where one of them lists the slice. -/
private theorem ahead_retain {dir : String} {k : KeptRanges} {todo : List String}
    {out : List KeptRanges} (hrec : ¬ disk.Recorded key)
    (h : (Announcing.readDisabled dir k todo out).Ahead key) :
    (Announcing.readKept todo (if (k.retain (disk.loadDisabled dir)).kept = [] then out
      else out ++ [k.retain (disk.loadDisabled dir)])).Ahead key := by
  rcases h with ⟨rfl, hk⟩ | htodo | ⟨k', hk', hl⟩
  · have hretained := lists_retain hk hrec
    refine .inr ⟨k.retain (disk.loadDisabled key.1), ?_, hretained⟩
    rw [if_neg fun hnil => by simpa [hnil] using hretained.2]
    exact List.mem_append_right _ (List.mem_singleton_self _)
  · exact .inl htodo
  · refine .inr ⟨k', ?_, hl⟩
    split_ifs
    · exact hk'
    · exact List.mem_append_left _ hk'

/-- One step of a round that is to come upon a slice: it still is, or it publishes the slice. -/
theorem ahead_step (hs : a.step cfg seen host disk = some (host', disk', a', log))
    (hkeeps : disk.Keeps key) (hrec : ¬ disk.Recorded key)
    (hst : host.control.status key ≠ some .draining) (hsure : a.Sure host key)
    (h : a.Ahead key) :
    a'.Ahead key ∨
      host'.control.status key = some .announcing ∧ ∃ record, .shard key record ∈ log := by
  obtain ⟨kept, hkept, hlists⟩ := hkeeps
  cases moves_of_step hs with
  | persist p =>
      left
      cases (p.step host disk).2.2 <;> exact trivial
  | scan hperm =>
      refine .inl (.inl (hperm.mem_iff.mpr ?_))
      obtain ⟨shard, hshard, -⟩ := Option.bind_eq_some_iff.mp hkept
      exact AList.lookup_isSome.mp (by simp [hshard])
  | scanned out =>
      left
      simpa [Ahead] using h
  | noSidecar todo out hnone =>
      left
      rcases h with h | h
      · rcases List.mem_cons.mp h with rfl | h
        · rw [hkept] at hnone
          cases hnone
        · exact .inl h
      · exact .inr h
  | @sidecar dir k todo out hk =>
      left
      rcases h with h | h
      · rcases List.mem_cons.mp h with rfl | h
        · obtain rfl : kept = k := Option.some.inj (hkept.symm.trans hk)
          exact .inl ⟨rfl, hlists⟩
        · exact .inr (.inl h)
      · exact .inr (.inr h)
  | retain dir k todo out => exact .inl (ahead_retain hrec h)
  | finish mintedAt => simp [Ahead] at h
  | model mintedAt k todo =>
      left
      obtain ⟨k', hk', hl⟩ := h
      rcases List.mem_cons.mp hk' with rfl | hk'
      · exact .inl hl
      · exact .inr ⟨k', hk', hl⟩
  | envelope phase k record todo =>
      left
      simpa [Ahead] using h
  | check | absent | upsert => exact .inl h
  | @skip k r st record ranges todo hstatus hstopped =>
      refine .inl (rest_ahead ?_ h)
      rintro rfl
      cases st with
      | announcing => exact hsure rfl hstatus
      | draining => exact hst hstatus
      | stopped => exact hstopped rfl
  | publish k record r ranges todo =>
      by_cases hkey : (k.modelCid, r) = key
      · exact .inr ⟨hsure hkey, record, by simp [hkey]⟩
      · exact .inl (rest_ahead hkey h)

private theorem Sealed.not_mem_log (hs : a.step cfg seen host disk = some (host', disk', a', log))
    (h : a.Sealed disk key) (record : ProviderRecord) : .shard key record ∉ log := by
  cases moves_of_step hs with
  | publish k record' r ranges todo =>
      intro hmem
      obtain ⟨rfl, -⟩ := Published.shard.inj (List.mem_singleton.mp hmem)
      exact h.2.1 rfl List.mem_cons_self
  | envelope phase k record' todo => simp
  | _ => exact List.not_mem_nil

end Announcing

namespace Daemon

variable {cfg : NodeConfig} {d d' : Daemon} {ev : Event}

/-- A step of the announce loop, or one of another task that leaves the status and the sidecars of
the slice as they are. -/
def LeavesSlice (cfg : NodeConfig) (key : SliceKey) (d : Daemon) (ev : Event) : Prop :=
  (∃ seen, ev = .announce seen) ∨ ∀ d', d.step cfg ev = some d' →
    d'.host.control.status key = d.host.control.status key ∧
      d'.disk.lookup key.1 = d.disk.lookup key.1

/-- Since `d` the slice was published; in `d'` it admits chains, and its range passes the check of
`prepare_slice` on `disabled_ranges.json`. -/
structure HostedAgain (key : SliceKey) (d d' : Daemon) : Prop where
  published : (d.publications key).length < (d'.publications key).length
  admits : (d'.host.control.acceptChain key).isSome
  enabled : ¬ d'.disk.Recorded key

private theorem published_step (hs : d.step cfg ev = some d') (hann : ∀ seen, ev ≠ .announce seen) :
    d'.published = d.published := by
  cases ev with
  | announce seen => exact absurd rfl (hann seen)
  | chain o => cases o <;> grind [step, Option.map_eq_some_iff]
  | _ => grind [step, Option.map_eq_some_iff]

private theorem publications_append (x x' : Daemon) (key : SliceKey) {log : List Published}
    (h : x'.published = log ++ x.published) :
    (x.publications key).length ≤ (x'.publications key).length ∧
      ((∃ record, .shard key record ∈ log) →
        (x.publications key).length < (x'.publications key).length) ∧
      ((∀ record, .shard key record ∉ log) →
        (x'.publications key).length = (x.publications key).length) := by
  obtain ⟨new, hnew⟩ : ∃ new : Daemon, new.published = log := ⟨{ x with published := log }, rfl⟩
  have hlen : (x'.publications key).length =
      (new.publications key).length + (x.publications key).length := by
    rw [publications, publications, publications, h, hnew, List.filter_append, List.length_append]
  refine ⟨by omega, ?_, fun hnot => ?_⟩
  · rintro ⟨record, hmem⟩
    have hmem : Published.shard key record ∈ new.publications key := by
      simp [publications, hnew, hmem]
    have hpos := List.length_pos_of_mem hmem
    omega
  · have hnil : new.publications key = [] := by
      rw [publications, hnew, List.filter_eq_nil_iff]
      rintro (⟨k, record⟩ | env) hmem
      · rintro hkey
        obtain rfl : k = key := by simpa using hkey
        exact hnot record hmem
      · simp
    rw [hlen, hnil, List.length_nil, Nat.zero_add]

private theorem acceptChain_of_announcing {st : ControlState}
    (h : st.status key = some .announcing) :
    (st.acceptChain key).isSome := by
  obtain ⟨e, he, hstate⟩ := Option.map_eq_some_iff.mp h
  exact Option.isSome_iff_exists.mpr ⟨_, acceptChain_eq_some.mpr ⟨e, he, hstate, rfl⟩⟩

/-- What holds of a slice that is contributed and enabled while the ticks run: it is published
already, or the round in progress is to come upon it. -/
private structure Promised (key : SliceKey) (n : Nat) (d : Daemon) : Prop where
  keeps : d.disk.Keeps key
  enabled : ¬ d.disk.Recorded key
  status : d.host.control.status key ≠ some .draining
  grown : n ≤ (d.publications key).length
  loop : ∃ a, d.announce = some a ∧ a.Sure d.host key ∧ (∀ p ∈ a.call, p.Shuns key) ∧
    (a.Ahead key ∨
      n < (d.publications key).length ∧ d.host.control.status key = some .announcing)

/-- What holds of a slice that is recorded as disabled while the ticks run. -/
private structure Barred (key : SliceKey) (n : Nat) (d : Daemon) : Prop where
  filed : d.disk.Filed
  keeps : d.disk.Keeps key
  locked : d.Sealed key
  unpublished : (d.publications key).length = n

private theorem Shards.Keeps.congr {disk disk' : Shards} (hkeeps : disk.Keeps key)
    (h : disk'.kept key.1 = disk.kept key.1) : disk'.Keeps key := by
  obtain ⟨k, hk, hl⟩ := hkeeps
  exact ⟨k, h.trans hk, hl⟩

/-- A step of the announce loop that may go through `persist_drained_slices`: the sidecars of the
slice stay, and the call still shuns it. -/
private theorem Announcing.spares {a a' : Announcing} {host host' : Host} {disk disk' : Shards}
    {seen : Seen} {log : List Published}
    (hstep : a.step cfg seen host disk = some (host', disk', a', log))
    (henabled : ¬ disk.Recorded key) (hstatus : host.control.status key ≠ some .draining)
    (hshuns : ∀ p ∈ a.call, p.Shuns key) :
    disk'.kept key.1 = disk.kept key.1 ∧ ¬ disk'.Recorded key ∧ ∀ p ∈ a'.call, p.Shuns key := by
  cases a with
  | persist p =>
      simp only [Announcing.step, Option.some.injEq, Prod.mk.injEq] at hstep
      obtain ⟨-, rfl, rfl, -⟩ := hstep
      obtain ⟨hnext, hrec⟩ := Persisting.shuns_step (hshuns p rfl) henabled hstatus
      refine ⟨p.kept_step host disk key.1, hrec, ?_⟩
      cases hcall : (p.step host disk).2.2 with
      | none => simp [Announcing.call]
      | some p' =>
          intro q hq
          obtain rfl : p' = q := by simpa [Announcing.call] using hq
          exact hnext p' hcall
  | _ =>
      obtain ⟨rfl, hcall⟩ := Announcing.step_other hstep (by simp)
      refine ⟨rfl, henabled, ?_⟩
      rw [Announcing.call_eq_none hcall]
      simp

private theorem Promised.announce {n : Nat} {seen : Seen} (hp : Promised key n d)
    (hs : d.step cfg (.announce seen) = some d') : Promised key n d' := by
  obtain ⟨a, ha, hsure, hshuns, hloop⟩ := hp.loop
  obtain ⟨⟨host, disk, a', log⟩, hstep, rfl⟩ := Option.map_eq_some_iff.mp hs
  rw [ha, Option.bind_some] at hstep
  have hstatus := Announcing.status_step hstep hp.status
  obtain ⟨hkept, henabled, hshuns'⟩ := Announcing.spares hstep hp.enabled hp.status hshuns
  refine ⟨Shards.Keeps.congr hp.keeps hkept, henabled, ?_, ?_, a', rfl,
    Announcing.sure_step hstep hsure, hshuns', ?_⟩
  · rcases hstatus with heq | heq <;> dsimp only <;> rw [heq]
    · exact hp.status
    · simp
  · exact le_trans hp.grown (publications_append d _ key rfl).1
  · obtain ⟨hmore, hnew, -⟩ := publications_append d
      { d with host, disk, announce := some a', published := log ++ d.published } key rfl
    rcases hloop with hahead | ⟨hlt, hst⟩
    · rcases Announcing.ahead_step hstep hp.keeps hp.enabled hp.status hsure hahead with
        hahead | ⟨hst, record, hmem⟩
      · exact .inl hahead
      · exact .inr ⟨lt_of_le_of_lt hp.grown (hnew ⟨record, hmem⟩), hst⟩
    · refine .inr ⟨lt_of_lt_of_le hlt hmore, ?_⟩
      rcases hstatus with heq | heq
      · exact heq.trans hst
      · exact heq

private theorem Promised.step {n : Nat} (hp : Promised key n d) (hok : LeavesSlice cfg key d ev)
    (hs : d.step cfg ev = some d') : Promised key n d' := by
  by_cases hann : ∃ seen, ev = .announce seen
  · obtain ⟨seen, rfl⟩ := hann
    exact hp.announce hs
  · obtain ⟨a, ha, hsure, hshuns, hloop⟩ := hp.loop
    have hann : ∀ seen, ev ≠ .announce seen := fun seen h => hann ⟨seen, h⟩
    obtain ⟨hst, hlook⟩ := (hok.resolve_left (not_exists.mpr hann)) d' hs
    have hpubs : d'.publications key = d.publications key := by
      rw [publications, published_step hs hann, publications]
    refine ⟨Shards.Keeps.congr hp.keeps (Shards.kept_congr hlook), ?_, hst ▸ hp.status,
      hpubs ▸ hp.grown, ?_⟩
    · rw [Shards.Recorded, Shards.loadDisabled_congr hlook]
      exact hp.enabled
    · rcases announce_step hs hann with heq | ⟨-, hdrain⟩
      · refine ⟨a, heq.trans ha, ?_, hshuns, by rwa [hpubs, hst]⟩
        unfold Announcing.Sure at hsure ⊢
        split
        · simpa only [hst] using hsure
        · simpa only [hst] using hsure
        · trivial
      · refine ⟨_, hdrain, trivial, fun p hp => ?_, .inl trivial⟩
        obtain rfl : Persisting.drain = p := by simpa [Announcing.call] using hp
        trivial

private theorem Barred.step {n : Nat} (hb : Barred key n d) (hok : LeavesSlice cfg key d ev)
    (hs : d.step cfg ev = some d') : Barred key n d' := by
  by_cases hann : ∃ seen, ev = .announce seen
  · obtain ⟨seen, rfl⟩ := hann
    have hfiled := filed_step hs hb.filed
    obtain ⟨⟨host, disk, a', log⟩, hstep, rfl⟩ := Option.map_eq_some_iff.mp hs
    obtain ⟨a, ha, hstep⟩ := Option.bind_eq_some_iff.mp hstep
    have hsealed := hb.locked a ha
    refine ⟨hfiled, Shards.Keeps.congr hb.keeps ?_, fun a'' ha'' => ?_, ?_⟩
    · cases a with
      | persist p =>
          simp only [Announcing.step, Option.some.injEq, Prod.mk.injEq] at hstep
          obtain ⟨-, rfl, -⟩ := hstep
          exact p.kept_step d.host d.disk key.1
      | _ =>
          obtain ⟨rfl, -⟩ := Announcing.step_other hstep (by simp)
          rfl
    · obtain rfl : a' = a'' := by simpa using ha''
      exact Announcing.sealed_step hstep hb.filed (.inl hsealed)
    · rw [(publications_append d _ key rfl).2.2 (hsealed.not_mem_log hstep)]
      exact hb.unpublished
  · have hann : ∀ seen, ev ≠ .announce seen := fun seen h => hann ⟨seen, h⟩
    obtain ⟨hst, hlook⟩ := (hok.resolve_left (not_exists.mpr hann)) d' hs
    have hpubs : d'.publications key = d.publications key := by
      rw [publications, published_step hs hann, publications]
    have hle : Shards.NotMore d.disk d'.disk key := by
      refine ⟨fun hl k hk => hl k ?_, Shards.loadDisabled_congr hlook⟩
      rw [← Shards.kept_congr hlook]
      exact hk
    refine ⟨filed_step hs hb.filed, Shards.Keeps.congr hb.keeps (Shards.kept_congr hlook),
      fun a' ha' => ?_, hpubs ▸ hb.unpublished⟩
    rcases announce_step hs hann with heq | ⟨hidle, hdrain⟩
    · exact (hb.locked a' (heq ▸ ha')).of_notMore hle
    · obtain rfl : Announcing.persist .drain = a' := by simpa [hdrain] using ha'
      exact Shards.Hides.of_notMore hle (hb.locked .idle (by simp [hidle]))

/-- A slice that is kept, by a new contribution or by what a join finds there, is hosted again by
the announce ticks that follow exactly when `disabled_ranges.json` no longer lists its range. -/
theorem hosted_again_iff (cfg : NodeConfig) (peerId : String) (now : Nat) (seen : Seen)
    (disk : Shards) (hfiled : disk.Filed) (es : List Event) (d : Daemon)
    (hboot : Run (step cfg) (fun _ _ => True) (boot peerId now seen disk) es d) (key : SliceKey)
    (hkeeps : d.disk.Keeps key) (hst : d.host.control.status key ≠ some .draining) (d₁ : Daemon)
    (htick : d.step cfg .announceTick = some d₁) (ticks : List Event) (d₂ : Daemon)
    (hrun : Run (step cfg) (LeavesSlice cfg key) d₁ ticks d₂) (hdone : d₂.announce = some .idle) :
    HostedAgain key d d₂ ↔ ¬ d.disk.Recorded key := by
  have hf : d.disk.Filed := hboot.invariant (I := fun d => d.disk.Filed) hfiled
    fun _ _ _ h _ hs => filed_step hs h
  obtain ⟨-, htick⟩ := Option.ite_none_right_eq_some.mp htick
  obtain rfl := Option.some.inj htick
  constructor
  · intro hagain hrec
    have hbarred : Barred key (d.publications key).length d₂ :=
      hrun.invariant (I := Barred key (d.publications key).length)
        ⟨hf, hkeeps, fun a ha => by
          obtain rfl := Option.some.inj ha
          exact .inr hrec, rfl⟩ fun _ _ _ hb hok hs => hb.step hok hs
    have hlt := hagain.published
    rw [hbarred.unpublished] at hlt
    exact lt_irrefl _ hlt
  · intro hrec
    have hpromised : Promised key (d.publications key).length d₂ :=
      hrun.invariant (I := Promised key (d.publications key).length)
        ⟨hkeeps, hrec, hst, le_refl _, _, rfl, trivial, fun p hp => by
          obtain rfl : Persisting.drain = p := by simpa [Announcing.call] using hp
          trivial, .inl trivial⟩ fun _ _ _ hp hok hs => hp.step hok hs
    obtain ⟨a, ha, -, -, hloop⟩ := hpromised.loop
    obtain rfl : Announcing.idle = a := Option.some.inj (hdone.symm.trans ha)
    obtain ⟨hlt, hann⟩ := hloop.resolve_left id
    exact ⟨hlt, acceptChain_of_announcing hann, hpromised.enabled⟩

private def hostConfig : NodeConfig := ⟨"host", [], none, none⟩

private def hostSeen : Seen := ⟨["m"], 0, none⟩

private def hostKey : SliceKey := ("m", 0, 4)

private def hostKept : KeptRanges := ⟨"m", "", 4, "", [(0, 4)]⟩

private def hostDisk : Shards := Shards.writeKept ∅ "m" (some hostKept)

private theorem hostDisk_filed : hostDisk.Filed :=
  Shards.Filed.writeKept (show Shards.Filed ∅ from fun _ _ hk => by cases hk) hostKept

private def announced : List Event := List.replicate 5 (.announce hostSeen)

private def departing : List Event :=
  .request (.leave "m" 0 4) :: .announceTick :: List.replicate 9 (.announce hostSeen)

private def rejoining : List Event :=
  [.contributing "m", .contribute hostKept, .request (.join "m" 0 4)]

/-- A slice that was left, stopped and recorded stays out: after a new contribution and a join the
next tick publishes nothing, and its range still fails the check of `prepare_slice`. -/
theorem rejoined_not_hosted :
    ¬ ∀ (cfg : NodeConfig) (peerId : String) (now : Nat) (seen : Seen) (disk : Shards),
      disk.Filed → ∀ (es : List Event) (d₀ : Daemon),
        Run (step cfg) (fun _ _ => True) (boot peerId now seen disk) es d₀ →
        ∀ key, d₀.host.Stopped key → d₀.disk.Recorded key →
        ∀ (es' : List Event) (d : Daemon), Run (step cfg) (fun _ _ => True) d₀ es' d →
          (∃ k, k.Lists key ∧ .contribute k ∈ es') →
          .request (.join key.1 key.2.1 key.2.2) ∈ es' →
          ∀ (d₁ : Daemon), d.step cfg .announceTick = some d₁ →
          ∀ (ticks : List Event) (d₂ : Daemon), Run (step cfg) (LeavesSlice cfg key) d₁ ticks d₂ →
            d₂.announce = some .idle → HostedAgain key d d₂ := by
  intro hall
  have hfacts : (exec (step hostConfig) (boot "host" 0 hostSeen hostDisk)
      (announced ++ departing)).any (fun d₀ =>
        decide (d₀.host.Stopped hostKey) && decide (d₀.disk.Recorded hostKey) &&
        (exec (step hostConfig) d₀ rejoining).any fun d =>
          (d.step hostConfig .announceTick).any fun d₁ =>
            (exec (step hostConfig) d₁ (List.replicate 6 (.announce hostSeen))).any fun d₂ =>
              d₂.isIdle && decide (d₂.disk.Recorded hostKey)) = true := by
    decide
  obtain ⟨d₀, hd₀, hfacts⟩ := (Option.any_eq_true _ _).mp hfacts
  simp only [Bool.and_eq_true, decide_eq_true_eq] at hfacts
  obtain ⟨⟨hstopped, hrec⟩, hfacts⟩ := hfacts
  obtain ⟨d, hd, hfacts⟩ := (Option.any_eq_true _ _).mp hfacts
  obtain ⟨d₁, hd₁, hfacts⟩ := (Option.any_eq_true _ _).mp hfacts
  obtain ⟨d₂, hd₂, hfacts⟩ := (Option.any_eq_true _ _).mp hfacts
  simp only [Bool.and_eq_true, decide_eq_true_eq] at hfacts
  obtain ⟨hidle, hrec₂⟩ := hfacts
  have hdone : d₂.announce = some .idle := isIdle_iff.mp hidle
  have hticks := Run.of_exec (LeavesSlice hostConfig hostKey) hd₂ fun x ev hev =>
    .inl ⟨hostSeen, (List.mem_replicate.mp hev).2⟩
  exact (hall _ _ _ _ _ hostDisk_filed _ _ (Run.of_exec _ hd₀ fun _ _ _ => trivial) hostKey hstopped
    hrec _ _ (Run.of_exec _ hd fun _ _ _ => trivial)
      ⟨hostKept, ⟨rfl, by decide⟩, by simp [rejoining]⟩
    (by simp [rejoining, hostKey]) d₁ hd₁ _ d₂ hticks hdone).enabled hrec₂

/-- A slice that is left under a chain and joined again before the next tick is hosted by it. -/
theorem hosted_again_iff_joined_back :
    ∃ d₀ d d₂, Run (step hostConfig) (fun _ _ => True) (boot "host" 0 hostSeen hostDisk)
        (announced ++ [.chain (.acceptChain hostKey), .request (.leave "m" 0 4)]) d₀ ∧
      d₀.host.control.status hostKey = some .draining ∧
      d₀.step hostConfig (.request (.join "m" 0 4)) = some d ∧ HostedAgain hostKey d d₂ := by
  have hfacts : (exec (step hostConfig) (boot "host" 0 hostSeen hostDisk)
      (announced ++ [.chain (.acceptChain hostKey), .request (.leave "m" 0 4)])).any (fun d₀ =>
        decide (d₀.host.control.status hostKey = some .draining) &&
        (d₀.step hostConfig (.request (.join "m" 0 4))).any fun d =>
          decide (d.disk.kept "m" = some hostKept) && decide (¬ d.disk.Recorded hostKey) &&
          decide (d.host.control.status hostKey ≠ some .draining) &&
            (d.step hostConfig .announceTick).any fun d₁ =>
              (exec (step hostConfig) d₁ (List.replicate 10 (.announce hostSeen))).any fun d₂ =>
                d₂.isIdle) = true := by
    decide
  obtain ⟨d₀, hd₀, hfacts⟩ := (Option.any_eq_true _ _).mp hfacts
  simp only [Bool.and_eq_true, decide_eq_true_eq] at hfacts
  obtain ⟨hdraining, hfacts⟩ := hfacts
  obtain ⟨d, hd, hfacts⟩ := (Option.any_eq_true _ _).mp hfacts
  simp only [Bool.and_eq_true, decide_eq_true_eq] at hfacts
  obtain ⟨⟨⟨hkept, hrec⟩, hst⟩, hfacts⟩ := hfacts
  obtain ⟨d₁, hd₁, hfacts⟩ := (Option.any_eq_true _ _).mp hfacts
  obtain ⟨d₂, hd₂, hidle⟩ := (Option.any_eq_true _ _).mp hfacts
  have hdone : d₂.announce = some .idle := isIdle_iff.mp hidle
  have hkeeps : d.disk.Keeps hostKey := ⟨hostKept, hkept, rfl, by decide⟩
  have hrun := Run.of_exec (fun _ _ => True) hd₀ fun _ _ _ => trivial
  have hticks := Run.of_exec (LeavesSlice hostConfig hostKey) hd₂ fun x ev hev =>
    .inl ⟨hostSeen, (List.mem_replicate.mp hev).2⟩
  refine ⟨d₀, d, d₂, hrun, hdraining, hd, ?_⟩
  exact (hosted_again_iff hostConfig "host" 0 hostSeen hostDisk hostDisk_filed _ d
    (.snoc hrun trivial hd) hostKey hkeeps hst d₁ hd₁ _ d₂ hticks hdone).mpr hrec

end Daemon

end IntelNav.App
