import IntelNav.App.DrainRecord

/-! Which drains a range is disabled for: the user's leave, or the shutdown of the daemon. -/

set_option autoImplicit false
set_option relaxedAutoImplicit false

namespace IntelNav.App

open IntelNav.Transition IntelNav.Net

/-- The slices a call has still to add to their `disabled_ranges.json`. -/
def Persisting.todo : Persisting → List SliceKey
  | .drain => []
  | .range todo | .loaded _ _ todo | .truncated _ _ todo => todo

/-- The next step of the call adds the range to the list it loads, which lacks it. -/
def Persisting.Adds (p : Persisting) (disk : Shards) (key : SliceKey) : Prop :=
  match p with
  | .range (k :: _) => k = key ∧ ¬ disk.Recorded key
  | _ => False

private theorem Persisting.todo_next (todo : List SliceKey) : ∀ p ∈ next todo, p.todo = todo := by
  cases todo <;> simp [next, Persisting.todo]

/-- Only `drain_idle` gives a call slices to record. -/
private theorem Persisting.todo_step {p : Persisting} {host : Host} {disk : Shards}
    {key : SliceKey} :
    ∀ p' ∈ (p.step host disk).2.2, key ∈ p'.todo →
      key ∈ p.todo ∨ p = .drain ∧ key ∈ host.control.drainIdle.1 := by
  intro p' hp' hkey
  cases p with
  | drain =>
      rw [todo_next _ p' hp'] at hkey
      exact .inr ⟨rfl, hkey⟩
  | range todo =>
      cases todo with
      | nil => cases hp'
      | cons k todo =>
          obtain rfl := Option.some.inj hp'
          exact .inl (List.mem_cons_of_mem k hkey)
  | loaded k disabled todo =>
      obtain rfl := Option.some.inj hp'
      exact .inl hkey
  | truncated k disabled todo =>
      rw [todo_next _ p' hp'] at hkey
      exact .inl hkey

def leaveRequest (key : SliceKey) : Event := .request (.leave key.1 key.2.1 key.2.2)

namespace Daemon

variable {cfg : NodeConfig} {s d d' : Daemon} {es : List Event} {ev : Event} {key : SliceKey}

/-- The step is one of a persisting call that adds the range to a `disabled_ranges.json`. -/
def Adds (d : Daemon) (ev : Event) (key : SliceKey) : Prop :=
  ∃ c p, ev.isCallOf c = true ∧ d.call c = some p ∧ p.Adds d.disk key

/-- A leave of the slice was accepted, and the slice was not contributed since. -/
def LeftSince (cfg : NodeConfig) (key : SliceKey) (s : Daemon) (es : List Event) : Prop :=
  ∃ es₁ es₂ d, es = es₁ ++ leaveRequest key :: es₂ ∧ Run (step cfg) (fun _ _ => True) s es₁ d ∧
    d.booting = false ∧ d.host.control.status key = some .announcing ∧
    ∀ k, Event.contribute k ∈ es₂ → ¬ k.Lists key

/-- The shutdown put the slice in Draining, where it has been since. -/
def ShutDownSince (cfg : NodeConfig) (key : SliceKey) (s : Daemon) (es : List Event) (d : Daemon) :
    Prop :=
  ∃ es₁ es₂ d₁ d₂ rest, es = es₁ ++ .shutdownDrain :: es₂ ∧
    Run (step cfg) (fun _ _ => True) s es₁ d₁ ∧ d₁.leaving = some (key :: rest) ∧
    ¬ d₁.host.Draining key ∧ d₁.step cfg .shutdownDrain = some d₂ ∧
      Held (step cfg) (·.host.Draining key) d₂ es₂ d

/-- Steps of a run that record the user's leaves only: no `drain_idle` of a persisting call stops a
slice that the shutdown put in Draining, and no slice is contributed while it drains or waits to be
recorded. -/
def UserStep (cfg : NodeConfig) (s : Daemon) (es : List Event) (d : Daemon) (ev : Event) : Prop :=
  (∀ c, ev.isCallOf c = true → d.call c = some .drain → ∀ key ∈ d.host.control.drainIdle.1,
    ¬ ShutDownSince cfg key s es d) ∧
  ∀ k, ev = .contribute k → ∀ key, k.Lists key →
    ¬ d.host.Draining key ∧ ∀ c, ∀ p ∈ d.call c, key ∉ p.todo

theorem LeftSince.snoc (h : LeftSince cfg key s es)
    (hev : ∀ k, ev = .contribute k → ¬ k.Lists key) : LeftSince cfg key s (es ++ [ev]) := by
  obtain ⟨es₁, es₂, d, rfl, hrun, hboot, hann, hcontrib⟩ := h
  refine ⟨es₁, es₂ ++ [ev], d, by simp, hrun, hboot, hann, fun k hk => ?_⟩
  rcases List.mem_append.mp hk with hk | hk
  · exact hcontrib k hk
  · exact hev k (List.mem_singleton.mp hk).symm

theorem ShutDownSince.snoc (h : ShutDownSince cfg key s es d) (hs : d.step cfg ev = some d')
    (hd : d'.host.Draining key) : ShutDownSince cfg key s (es ++ [ev]) d' := by
  obtain ⟨es₁, es₂, d₁, d₂, rest, rfl, hrun, hleaving, hnot, hstep, hheld⟩ := h
  exact ⟨es₁, es₂ ++ [ev], d₁, d₂, rest, by simp, hrun, hleaving, hnot, hstep,
    .snoc hheld.1 hheld.2 hs, hd⟩

private theorem drains_cases (hs : d.step cfg ev = some d') (hbefore : ¬ d.host.Draining key)
    (hafter : d'.host.Draining key) :
    d.host.control.status key = some .announcing ∧
      (ev = leaveRequest key ∧ d.booting = false ∨
        ev = .shutdownDrain ∧ ∃ rest, d.leaving = some (key :: rest)) := by
  have hperf := step_performs hs
  obtain ⟨e', he', hst'⟩ := Option.map_eq_some_iff.mp hafter
  cases hop : d.opOf ev with
  | none =>
      rw [hop] at hperf
      rw [show d'.host = d.host from hperf] at hafter
      exact absurd hafter hbefore
  | some o =>
      rw [hop] at hperf
      have hentry := (Host.step_entry hperf key).symm.trans he'
      cases he : d.host.entry key with
      | none =>
          rw [he] at hentry
          obtain ⟨⟨name, rfl⟩, -⟩ := Op.onEntry_none hentry
          simp only [Op.onEntry, if_true, ControlState.upsertEntry, Option.some.injEq] at hentry
          rw [← hentry] at hst'
          cases hst'
      | some e =>
          rw [he] at hentry
          have hne : e.state ≠ .draining := fun h => hbefore (by
            simp [Host.Draining, status_eq, he, h])
          have hbegin : o = .beginDrain key ∧ e.state = .announcing := by
            cases o <;> grind [Op.onEntry, ControlState.releaseEntry, ControlState.idle,
              ControlState.upsertEntry]
          obtain ⟨rfl, hann⟩ := hbegin
          refine ⟨by rw [status_eq, he, Option.map_some, hann], ?_⟩
          cases ev with
          | chain o =>
              obtain rfl := Option.some.inj hop
              simp [step, Op.isChain] at hs
          | request req =>
              cases req with
              | leave cid start stop =>
                  obtain rfl := Op.beginDrain.inj (Option.some.inj hop)
                  obtain ⟨hboot, -⟩ := Option.ite_none_left_eq_some.mp hs
                  exact .inl ⟨rfl, by simpa using hboot⟩
              | _ => cases hop
          | announce seen =>
              obtain ⟨a, -, hop⟩ := Option.bind_eq_some_iff.mp hop
              unfold Announcing.op at hop
              split at hop
              · rename_i p
                cases p <;> cases hop
              · cases hop
              · cases hop
          | watchdogPersist =>
              obtain ⟨p, -, hop⟩ := Option.bind_eq_some_iff.mp hop
              cases p <;> cases hop
          | shutdownDrain =>
              obtain ⟨todo, htodo, hop⟩ := Option.bind_eq_some_iff.mp hop
              cases todo with
              | nil => cases hop
              | cons k rest =>
                  obtain rfl := Op.beginDrain.inj (Option.some.inj hop)
                  exact .inr ⟨rfl, rest, htodo⟩
          | _ => cases hop

private theorem boot_announcing {peerId : String} {now : Nat} {seen : Seen} {disk : Shards}
    {e : SliceEntry} (h : (boot peerId now seen disk).host.entry key = some e) :
    e.state = .announcing := by
  have hupsert : ∀ (st : ControlState) (k : SliceKey) (name : String),
      (∀ key e, st.get key = some e → e.state = .announcing) →
        ∀ key e, (st.upsertAnnouncing k name).get key = some e → e.state = .announcing := by
    intro st k name hst key e he
    rw [get_upsertAnnouncing] at he
    split_ifs at he
    · obtain rfl := Option.some.inj he
      cases st.get k <;> rfl
    · exact hst key e he
  have hranges : ∀ (k : KeptRanges) (ranges : List (UInt16 × UInt16)) (st : ControlState),
      (∀ key e, st.get key = some e → e.state = .announcing) → ∀ key e,
        (ranges.foldl (fun st r => st.upsertAnnouncing (k.modelCid, r) k.displayName) st).get key =
          some e → e.state = .announcing := by
    intro k ranges
    induction ranges with
    | nil => exact fun st hst => hst
    | cons r ranges ih => exact fun st hst => ih _ (hupsert st _ _ hst)
  have hkept : ∀ (kept : List KeptRanges) (st : ControlState),
      (∀ key e, st.get key = some e → e.state = .announcing) → ∀ key e,
        (kept.foldl (fun st k => k.kept.foldl (fun st r =>
          st.upsertAnnouncing (k.modelCid, r) k.displayName) st) st).get key = some e →
            e.state = .announcing := by
    intro kept
    induction kept with
    | nil => exact fun st hst => hst
    | cons k kept ih => exact fun st hst => ih _ (hranges k _ st hst)
  exact hkept _ _ (fun key e he => by rw [ControlState.get_new] at he; cases he) key e h

/-- Every slice that drains was left or shut down, and every slice a call has to record was left. -/
private structure Accounted (cfg : NodeConfig) (s : Daemon) (es : List Event)
    (d : Daemon) : Prop where
  draining : ∀ key, d.host.Draining key → LeftSince cfg key s es ∨ ShutDownSince cfg key s es d
  pending : ∀ c, ∀ p ∈ d.call c, ∀ key ∈ p.todo, LeftSince cfg key s es

private theorem accounted_draining (hrun : Run (step cfg) (fun _ _ => True) s es d)
    (hs : d.step cfg ev = some d') (hok : UserStep cfg s es d ev) (h : Accounted cfg s es d)
    (hd : d'.host.Draining key) :
    LeftSince cfg key s (es ++ [ev]) ∨ ShutDownSince cfg key s (es ++ [ev]) d' := by
  by_cases hbefore : d.host.Draining key
  · rcases h.draining key hbefore with hleft | hshut
    · exact .inl (hleft.snoc fun k hk hlists => (hok.2 k hk key hlists).1 hbefore)
    · exact .inr (hshut.snoc hs hd)
  · obtain ⟨hann, ⟨rfl, hboot⟩ | ⟨rfl, rest, hleaving⟩⟩ := drains_cases hs hbefore hd
    · exact .inl ⟨es, [], d, rfl, hrun, hboot, hann, by simp⟩
    · exact .inr ⟨es, [], d, d', rest, rfl, hrun, hleaving, hbefore, hs, .nil, hd⟩

private theorem accounted_pending (hs : d.step cfg ev = some d') (hok : UserStep cfg s es d ev)
    (h : Accounted cfg s es d) {c : Caller} {p' : Persisting} (hp' : d'.call c = some p')
    (hkey : key ∈ p'.todo) : LeftSince cfg key s (es ++ [ev]) := by
  have hold : ∀ {p : Persisting}, d.call c = some p → key ∈ p.todo →
      LeftSince cfg key s (es ++ [ev]) := fun hp hk =>
    (h.pending c _ hp key hk).snoc fun k hev hlists => (hok.2 k hev key hlists).2 c _ hp hk
  rcases call_cases hs with ⟨c₀, p, hev, hp, -, hstep, hother⟩ | ⟨-, -, hcalls⟩
  · by_cases hcc : c = c₀
    · subst hcc
      rcases Persisting.todo_step p' (hstep.symm.trans hp') hkey with hk | ⟨rfl, hidle⟩
      · exact hold hp hk
      · obtain ⟨e, he, hst⟩ := (mem_drainIdle d.host.control key).mp hidle
        have hdrain : d.host.Draining key := by
          have hst : e.state = .draining ∧ e.activeChains = 0 := of_decide_eq_true hst
          simp [Host.Draining, ControlState.status, he, hst.1]
        rcases h.draining key hdrain with hleft | hshut
        · refine hleft.snoc fun k hk => ?_
          subst hk
          cases c <;> cases hev
        · exact absurd hshut (hok.1 c hev hp key hidle)
    · have hc : c = c₀.other := by cases c <;> cases c₀ <;> simp_all [Caller.other]
      rw [hc, hother, ← hc] at hp'
      exact hold hp' hkey
  · rcases hcalls c with heq | ⟨heq, -⟩
    · exact hold (heq ▸ hp') hkey
    · obtain rfl : Persisting.drain = p' := by simpa [heq] using hp'
      cases hkey

/-- In every run of user steps a range is added to a `disabled_ranges.json` only for a leave
accepted since it was last contributed. -/
theorem only_leave_disables (cfg : NodeConfig) (peerId : String) (now : Nat) (seen : Seen)
    (disk : Shards) (es : List Event) (d : Daemon)
    (hrun : Run (step cfg) (fun _ _ => True) (boot peerId now seen disk) es d)
    (hok : ∀ es₁ es₂ ev d₁, es = es₁ ++ ev :: es₂ →
      Run (step cfg) (fun _ _ => True) (boot peerId now seen disk) es₁ d₁ →
        UserStep cfg (boot peerId now seen disk) es₁ d₁ ev)
    (ev : Event) (key : SliceKey) (hadds : d.Adds ev key) :
    LeftSince cfg key (boot peerId now seen disk) es := by
  have hall : Accounted cfg (boot peerId now seen disk) es d := by
    clear hadds
    induction hrun with
    | nil =>
        refine ⟨fun key hd => ?_, fun c p hp => ?_⟩
        · obtain ⟨e, he, hst⟩ := Option.map_eq_some_iff.mp hd
          rw [boot_announcing he] at hst
          cases hst
        · cases c
          · simp only [call, boot] at hp
            split_ifs at hp <;> cases hp
          · cases hp
    | @snoc es d d' ev hrun _ hs ih =>
        have hstep := hok es [] ev d rfl hrun
        have hbefore := ih fun es₁ es₂ ev' d₁ heq h =>
          hok es₁ (es₂ ++ [ev]) ev' d₁ (by rw [heq]; simp) h
        exact ⟨fun key hd => accounted_draining hrun hs hstep hbefore hd,
          fun c p hp key hk => accounted_pending hs hstep hbefore hp hk⟩
  obtain ⟨c, p, -, hp, hadd⟩ := hadds
  cases p with
  | range todo =>
      cases todo with
      | nil => exact hadd.elim
      | cons k todo =>
          obtain ⟨rfl, -⟩ := hadd
          exact hall.pending c _ hp k List.mem_cons_self
  | _ => exact hadd.elim

private def userConfig : NodeConfig := ⟨"host", [], none, none⟩

private def userSeen : Seen := ⟨["m"], 0, none⟩

private def userDisk : Shards :=
  Shards.writeKept ∅ "m" (some ⟨"m", "", 8, "", [(0, 4), (4, 8)]⟩)

private def userKey : SliceKey := ("m", 0, 4)

/-- A chain on one slice keeps the shutdown open, and a tick of the announce loop falls into it. -/
private def shuttingDown : List Event :=
  List.replicate 7 (.announce userSeen) ++ [.chain (.acceptChain ("m", 4, 8)), .signal,
    .shutdownDrain, .shutdownDrain, .announceTick, .announce userSeen]

/-- The user leaves, and the next tick of the announce loop finds the slice idle. -/
private def userLeaves : List Event :=
  List.replicate 7 (.announce userSeen) ++ [leaveRequest userKey, .announceTick,
    .announce userSeen]

/-- The call is about to add the range of the slice the user leaves. -/
private def addsUserRange : Option Persisting → Bool
  | some (.range [k]) => decide (k = userKey)
  | _ => false

private theorem addsUserRange_eq {call : Option Persisting} (h : addsUserRange call = true) :
    ∃ k, call = some (.range [k]) ∧ k = userKey := by
  unfold addsUserRange at h
  split at h
  · rename_i k
    exact ⟨k, rfl, of_decide_eq_true h⟩
  · cases h

/-- The range of a slice the user leaves is added. -/
theorem only_leave_disables_left :
    ∃ d, exec (step userConfig) (boot "host" 0 userSeen userDisk) userLeaves = some d ∧
      d.Adds (.announce userSeen) userKey ∧
      LeftSince userConfig userKey (boot "host" 0 userSeen userDisk) userLeaves := by
  have hfacts : (exec (step userConfig) (boot "host" 0 userSeen userDisk) userLeaves).any (fun d =>
      addsUserRange (d.call .announceLoop) && decide (¬ d.disk.Recorded userKey)) = true := by
    decide
  obtain ⟨d, hd, hfacts⟩ := (Option.any_eq_true _ _).mp hfacts
  obtain ⟨hcall, hnot⟩ := Bool.and_eq_true_iff.mp hfacts
  have hadds : d.Adds (.announce userSeen) userKey := by
    obtain ⟨k, hk, hkey⟩ := addsUserRange_eq hcall
    exact ⟨.announceLoop, _, rfl, hk, hkey, of_decide_eq_true hnot⟩
  refine ⟨d, hd, hadds, only_leave_disables userConfig "host" 0 userSeen userDisk userLeaves d
    (Run.of_exec _ hd fun _ _ _ => trivial) (fun es₁ es₂ ev d₁ heq _ => ⟨?_, ?_⟩)
    (.announce userSeen) userKey hadds⟩
  · rintro c - - key - ⟨a, b, -, -, -, hes₁, -⟩
    have hmem : Event.shutdownDrain ∈ userLeaves := by rw [heq, hes₁]; simp
    simp [userLeaves, leaveRequest] at hmem
  · rintro k rfl
    have hmem : Event.contribute k ∈ userLeaves := by rw [heq]; simp
    simp [userLeaves, leaveRequest] at hmem

/-- The announce loop takes a drain of the shutdown for a leave, and disables the range. -/
theorem shutdown_disables :
    ¬ ∀ (cfg : NodeConfig) (peerId : String) (now : Nat) (seen : Seen) (disk : Shards)
      (es : List Event) (d : Daemon),
        Run (step cfg) (fun _ _ => True) (boot peerId now seen disk) es d →
          ∀ (ev : Event) (key : SliceKey), d.Adds ev key →
            LeftSince cfg key (boot peerId now seen disk) es := by
  intro hall
  have hfacts :
    (exec (step userConfig) (boot "host" 0 userSeen userDisk) shuttingDown).any (fun d =>
      addsUserRange (d.call .announceLoop) && decide (¬ d.disk.Recorded userKey)) = true := by
    decide
  obtain ⟨d, hd, hfacts⟩ := (Option.any_eq_true _ _).mp hfacts
  obtain ⟨hcall, hnot⟩ := Bool.and_eq_true_iff.mp hfacts
  have hadds : d.Adds (.announce userSeen) userKey := by
    obtain ⟨k, hk, hkey⟩ := addsUserRange_eq hcall
    exact ⟨.announceLoop, _, rfl, hk, hkey, of_decide_eq_true hnot⟩
  obtain ⟨es₁, es₂, d₁, heq, -⟩ := hall userConfig "host" 0 userSeen userDisk _ d
    (Run.of_exec _ hd fun _ _ _ => trivial) _ userKey hadds
  have hmem : leaveRequest userKey ∈ shuttingDown := by rw [heq]; simp
  simp [shuttingDown, leaveRequest] at hmem

end Daemon

end IntelNav.App
