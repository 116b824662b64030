import IntelNav.App.DrainSafety

/-! What `active_chains` counts: the guards admitted since the last force-stop of their slice. -/

set_option autoImplicit false
set_option relaxedAutoImplicit false

namespace IntelNav.App

open IntelNav.Transition

def chainsOf (entry : Option SliceEntry) : Nat :=
  (entry.map fun e => e.activeChains.toNat).getD 0

/-- A host whose watchdog may force-stop at any time, and the first guard of each slice after its
most recent force-stop; guards are numbered in the order they are admitted. -/
structure Watched where
  host : Host
  since : SliceKey → Nat

namespace Watched

def new (peerId : String) (now : Nat) : Watched := ⟨.new peerId now, fun _ => 0⟩

def ready (w : Watched) : Op → Host
  | .watchdogForceStop => { w.host with watchdog := true }
  | _ => w.host

def sinceAfter (w : Watched) : Op → SliceKey → Nat
  | .watchdogForceStop => fun key => if w.host.Draining key then w.host.nextGuard else w.since key
  | _ => w.since

def step (w : Watched) (o : Op) : Option Watched :=
  ((w.ready o).step o).map fun host => ⟨host, w.sinceAfter o⟩

/-- The guard was admitted after the most recent force-stop of its slice. -/
def Recent (w : Watched) (g : ChainGuard) : Prop := w.since g.key ≤ g.id

instance (w : Watched) (g : ChainGuard) : Decidable (w.Recent g) :=
  inferInstanceAs (Decidable (_ ≤ _))

/-- The guards of a slice admitted after its most recent force-stop. -/
def recent (w : Watched) (key : SliceKey) (guards : List ChainGuard) : Nat :=
  guards.countP fun g => g.key = key ∧ w.Recent g

/-- `active_chains` of a slice. -/
def activeChains (w : Watched) (key : SliceKey) : Nat := chainsOf (w.host.entry key)

/-- The counter is at least the number of live guards admitted after the most recent force-stop,
and at most that of the guards not released yet. -/
def Counts (key : SliceKey) (w : Watched) : Prop :=
  w.recent key w.host.live ≤ w.activeChains key ∧ w.activeChains key ≤ w.host.held key

instance (key : SliceKey) (w : Watched) : Decidable (Counts key w) :=
  inferInstanceAs (Decidable (_ ∧ _))

/-- The counter does not saturate at an admission, and it is zero when a guard from before the most
recent force-stop of the slice is released. -/
def Undisturbed (key : SliceKey) (w : Watched) : Op → Prop
  | .acceptChain k => k = key → w.activeChains key < 2 ^ 32 - 1
  | .release g | .detachedRelease g => g.key = key → ¬ w.Recent g → w.activeChains key = 0
  | _ => True

instance (key : SliceKey) (w : Watched) : DecidablePred (Undisturbed key w) := by
  intro o
  cases o <;> unfold Undisturbed <;> infer_instance

variable {w w' : Watched} {o : Op} {key : SliceKey} {es : List Op} {ok : Watched → Op → Prop}

private theorem step_cases (hs : w.step o = some w') :
    (w.ready o).step o = some w'.host ∧ w'.since = w.sinceAfter o := by
  obtain ⟨host, hhost, rfl⟩ := Option.map_eq_some_iff.mp hs
  exact ⟨hhost, rfl⟩

@[simp] theorem ready_entry : (w.ready o).entry key = w.host.entry key := by
  cases o <;> rfl

@[simp] theorem ready_held : (w.ready o).held key = w.host.held key := by
  cases o <;> rfl

@[simp] theorem ready_guards : (w.ready o).guards = w.host.guards := by
  cases o <;> rfl

@[simp] theorem ready_nextGuard : (w.ready o).nextGuard = w.host.nextGuard := by
  cases o <;> rfl

/-- Guards are numbered below the next one, and no force-stop is ahead of it. -/
structure Numbered (w : Watched) : Prop where
  guards_lt : ∀ g ∈ w.host.guards, g.id < w.host.nextGuard
  since_le : ∀ key, w.since key ≤ w.host.nextGuard

theorem Numbered.new (peerId : String) (now : Nat) : Numbered (.new peerId now) where
  guards_lt := by
    intro g hg
    cases hg
  since_le _ := Nat.le_refl _

private theorem sinceAfter_of_ne (ho : o ≠ .watchdogForceStop) : w.sinceAfter o = w.since := by
  cases o with
  | watchdogForceStop => exact absurd rfl ho
  | _ => rfl

theorem Numbered.step (hn : w.Numbered) (hs : w.step o = some w') : w'.Numbered := by
  obtain ⟨hhost, hsince⟩ := step_cases hs
  have hguards := Host.step_guards hhost
  rw [ready_guards, ready_nextGuard] at hguards
  have hle : w.host.nextGuard ≤ w'.host.nextGuard := by
    rcases hguards with ⟨_, -, -, h⟩ | ⟨_, -, -, h⟩ | ⟨-, -, -, h⟩ <;> omega
  constructor
  · intro g hg
    rcases hguards with ⟨k, -, hcons, hnext⟩ | ⟨g', -, hperm, hnext⟩ | ⟨-, -, hperm, hnext⟩
    · rw [hcons] at hg
      rcases List.mem_cons.mp hg with rfl | hg
      · rw [hnext]
        exact Nat.lt_succ_self _
      · exact (hn.guards_lt g hg).trans_le hle
    · exact (hn.guards_lt g (hperm.mem_iff.mpr (List.mem_cons_of_mem _ hg))).trans_le hle
    · exact (hn.guards_lt g (hperm.mem_iff.mpr hg)).trans_le hle
  · intro k
    rw [hsince]
    refine le_trans ?_ hle
    cases o with
    | watchdogForceStop =>
        unfold sinceAfter
        dsimp only
        split_ifs
        · exact Nat.le_refl _
        · exact hn.since_le k
    | _ => exact hn.since_le k

private theorem sinceAfter_forceStop : w.sinceAfter .watchdogForceStop key =
    if w.host.Draining key then w.host.nextGuard else w.since key := rfl

private theorem recent_congr (hsince : w'.since key = w.since key) (guards : List ChainGuard) :
    w'.recent key guards = w.recent key guards := by
  unfold recent Recent
  refine List.countP_congr fun g _ => ?_
  simp only [decide_eq_true_eq]
  constructor
  · rintro ⟨rfl, h⟩
    exact ⟨rfl, hsince ▸ h⟩
  · rintro ⟨rfl, h⟩
    exact ⟨rfl, hsince ▸ h⟩

private theorem recent_forced (hn : w.Numbered) (hsince : w'.since key = w.host.nextGuard)
    (hguards : w'.host.guards.Perm w.host.guards) : w'.recent key w'.host.guards = 0 := by
  refine List.countP_eq_zero.mpr fun g hg => ?_
  have hlt := hn.guards_lt g (hguards.mem_iff.mp hg)
  rw [decide_eq_true_eq]
  rintro ⟨rfl, hrecent⟩
  rw [Recent, hsince] at hrecent
  omega

end Watched

namespace Op

variable {o : Op} {now : Nat} {key : SliceKey} {entry : Option SliceEntry}

private theorem chainsOf_accept {e : SliceEntry} :
    chainsOf ((acceptChain key).onEntry now key (some e)) =
      min (e.activeChains.toNat + 1) (2 ^ 32 - 1) := by
  have hlt := e.activeChains.toNat_lt
  simp only [onEntry, if_true, Option.map_some, chainsOf, Option.getD_some]
  by_cases hroom : e.activeChains.toNat + 1 < 2 ^ 32
  · rw [saturatingSucc_toNat hroom]
    omega
  · rw [saturatingSucc, if_neg hroom]
    omega

private theorem chainsOf_release {g : ChainGuard} (ho : o.released = some g) :
    chainsOf (o.onEntry now g.key entry) = chainsOf entry - 1 := by
  have hstep : chainsOf (entry.map ControlState.releaseEntry) = chainsOf entry - 1 := by
    cases entry with
    | none => rfl
    | some e =>
        have hpred := saturatingPred_toNat e.activeChains
        rw [Option.map_some, chainsOf, chainsOf, Option.map_some, Option.map_some,
          Option.getD_some, Option.getD_some, ← hpred]
        unfold ControlState.releaseEntry
        dsimp only
        split_ifs <;> rfl
  cases o with
  | release g' | detachedRelease g' =>
      obtain rfl : g' = g := Option.some.inj ho
      rw [onEntry, if_pos rfl, hstep]
  | _ => cases ho

private theorem chainsOf_other (hadm : o.admits key = false) (hrel : o.releases key = false)
    (ho : o ≠ .watchdogForceStop) : chainsOf (o.onEntry now key entry) = chainsOf entry := by
  cases o with
  | watchdogForceStop => exact absurd rfl ho
  | acceptChain k =>
      have hne : key ≠ k := fun h => by simp [admits, h] at hadm
      rw [onEntry, if_neg hne]
  | release g | detachedRelease g =>
      have hne : key ≠ g.key := fun h => by simp [releases, h] at hrel
      rw [onEntry, if_neg hne]
  | upsertAnnouncing k name =>
      rw [onEntry]
      split_ifs
      · cases entry <;> rfl
      · rfl
  | beginDrain k =>
      rw [onEntry]
      split_ifs
      · cases entry with
        | none => rfl
        | some e =>
            rw [Option.map_some]
            split_ifs <;> rfl
      · rfl
  | drainIdle =>
      cases entry with
      | none => rfl
      | some e =>
          rw [onEntry, Option.map_some]
          split_ifs <;> rfl
  | _ => rfl

private theorem chainsOf_forceStop (entry : Option SliceEntry) :
    chainsOf (watchdogForceStop.onEntry now key entry) =
      if entry.map SliceEntry.state = some .draining then 0 else chainsOf entry := by
  cases entry with
  | none => rfl
  | some e =>
      simp only [onEntry, Option.map_some, Option.some.injEq]
      split_ifs <;> rfl

end Op

namespace Watched

variable {w w' : Watched} {o : Op} {key : SliceKey} {es : List Op} {ok : Watched → Op → Prop}

private theorem activeChains_step (hs : w.step o = some w') :
    w'.activeChains key = chainsOf (o.onEntry w.host.now key (w.host.entry key)) := by
  obtain ⟨hhost, -⟩ := step_cases hs
  rw [activeChains, Host.step_entry hhost key, ready_entry]
  cases o <;> rfl

private theorem guards_forceStop (hs : w.step .watchdogForceStop = some w') :
    w'.host.guards = w.host.guards := by
  have hhost : some _ = some w'.host := (step_cases hs).1
  rw [← Option.some.inj hhost]
  rfl

private theorem step_forced (hn : w.Numbered) (hs : w.step .watchdogForceStop = some w')
    (hdrain : w.host.Draining key) :
    w'.activeChains key = 0 ∧ w'.recent key w'.host.guards = 0 := by
  obtain ⟨-, hsince⟩ := step_cases hs
  constructor
  · have hstatus : (w.host.entry key).map SliceEntry.state = some .draining := hdrain
    rw [activeChains_step hs, Op.chainsOf_forceStop, if_pos hstatus]
  · have hguards := guards_forceStop hs
    refine recent_forced hn ?_ (.of_eq hguards)
    rw [hsince, sinceAfter_forceStop, if_pos hdrain]

private theorem step_spared (hs : w.step .watchdogForceStop = some w')
    (hdrain : ¬ w.host.Draining key) :
    w'.activeChains key = w.activeChains key ∧
      w'.recent key w'.host.guards = w.recent key w.host.guards := by
  obtain ⟨-, hsince⟩ := step_cases hs
  constructor
  · have hstatus : (w.host.entry key).map SliceEntry.state ≠ some .draining := hdrain
    rw [activeChains_step hs, Op.chainsOf_forceStop, if_neg hstatus]
    rfl
  · have hguards := guards_forceStop hs
    have hsame : w'.since key = w.since key := by
      rw [hsince, sinceAfter_forceStop, if_neg hdrain]
    rw [recent_congr hsame, hguards]

/-- An operation admits a guard of the slice, releases one, force-stops the slice, or leaves its
counter and its guards as they are. -/
private theorem step_slice (hn : w.Numbered) (hs : w.step o = some w') (key : SliceKey) :
    (o = .acceptChain key ∧ w'.activeChains key = min (w.activeChains key + 1) (2 ^ 32 - 1) ∧
      w'.recent key w'.host.guards = w.recent key w.host.guards + 1) ∨
    (∃ g, o.released = some g ∧ g.key = key ∧ w'.activeChains key = w.activeChains key - 1 ∧
      w'.recent key w'.host.guards + (if w.Recent g then 1 else 0) =
        w.recent key w.host.guards) ∨
    (o = .watchdogForceStop ∧ w'.activeChains key = 0 ∧ w'.recent key w'.host.guards = 0) ∨
    (o.admits key = false ∧ o.releases key = false ∧
      w'.activeChains key = w.activeChains key ∧
      w'.recent key w'.host.guards = w.recent key w.host.guards) := by
  obtain ⟨hhost, hsince⟩ := step_cases hs
  have hactive : w'.activeChains key = _ := activeChains_step hs
  have hguards := Host.step_guards hhost
  rw [ready_guards, ready_nextGuard] at hguards
  rcases hguards with ⟨k, rfl, hcons, -⟩ | ⟨g, hrel, hperm, -⟩ | ⟨hrel, hadm, hperm, -⟩
  · rw [recent_congr (congrFun hsince key), hcons]
    by_cases hk : k = key
    · subst hk
      refine .inl ⟨rfl, ?_, ?_⟩
      · have hself : (Op.acceptChain k).admits k = true := by simp [Op.admits]
        obtain ⟨e, he, -⟩ := Host.step_admits hhost hself
        rw [ready_entry] at he
        rw [hactive, activeChains, he, Op.chainsOf_accept]
        rfl
      · have hrecent : w.Recent ⟨w.host.nextGuard, k⟩ := hn.since_le k
        exact List.countP_cons_of_pos (by simpa using hrecent)
    · have hadm : (Op.acceptChain k).admits key = false := by simp [Op.admits, hk]
      refine .inr (.inr (.inr ⟨hadm, rfl, ?_, ?_⟩))
      · rw [hactive, Op.chainsOf_other hadm rfl Op.noConfusion]
        rfl
      · exact List.countP_cons_of_neg (by simp [hk])
  · have ho : o ≠ .watchdogForceStop := by
      rintro rfl
      cases hrel
    rw [sinceAfter_of_ne ho] at hsince
    rw [recent_congr (congrFun hsince key)]
    have hcount : w.recent key w.host.guards = w.recent key w'.host.guards +
        (if g.key = key ∧ w.Recent g then 1 else 0) := by
      unfold recent
      rw [hperm.countP_eq, List.countP_cons]
      simp only [decide_eq_true_eq]
    by_cases hk : g.key = key
    · subst hk
      refine .inr (.inl ⟨g, hrel, rfl, ?_, ?_⟩)
      · rw [hactive, Op.chainsOf_release hrel]
        rfl
      · simpa using hcount.symm
    · have hadm := Op.admits_of_released hrel key
      have hrel' : o.releases key = false := by simp [Op.releases_eq, hrel, hk]
      refine .inr (.inr (.inr ⟨hadm, hrel', ?_, ?_⟩))
      · rw [hactive, Op.chainsOf_other hadm hrel' ho]
        rfl
      · simpa [hk] using hcount.symm
  · have hrel' : o.releases key = false := by simp [Op.releases_eq, hrel]
    by_cases ho : o = .watchdogForceStop
    · subst ho
      by_cases hdrain : w.host.Draining key
      · exact .inr (.inr (.inl ⟨rfl, step_forced hn hs hdrain⟩))
      · exact .inr (.inr (.inr ⟨rfl, rfl, step_spared hs hdrain⟩))
    · rw [sinceAfter_of_ne ho] at hsince
      rw [recent_congr (congrFun hsince key)]
      refine .inr (.inr (.inr ⟨hadm key, hrel', ?_, ?_⟩))
      · rw [hactive, Op.chainsOf_other (hadm key) hrel' ho]
        rfl
      · exact hperm.symm.countP_eq _

/-- The counter is the number of guards admitted since the last force-stop and not released yet. -/
def Tracks (key : SliceKey) (w : Watched) : Prop :=
  w.activeChains key = w.recent key w.host.guards

theorem Tracks.new (peerId : String) (now : Nat) : Tracks key (.new peerId now) := rfl

/-- An operation keeps the counter exact just where it is undisturbed. -/
private theorem Tracks.step_iff (hn : w.Numbered) (ht : Tracks key w) (hs : w.step o = some w') :
    Tracks key w' ↔ Undisturbed key w o := by
  unfold Tracks at ht ⊢
  rcases step_slice hn hs key with ⟨rfl, hactive, hrecent⟩ | ⟨g, hrel, rfl, hactive, hrecent⟩ |
    ⟨rfl, hactive, hrecent⟩ | ⟨hadm, hrel, hactive, hrecent⟩
  · simp only [Undisturbed, forall_const]
    rw [hactive, hrecent, ht]
    omega
  · have hund : Undisturbed g.key w o ↔ (¬ w.Recent g → w.activeChains g.key = 0) := by
      cases o with
      | release g' | detachedRelease g' =>
          obtain rfl : g' = g := Option.some.inj hrel
          simp only [Undisturbed, forall_const]
      | _ => cases hrel
    rw [hund, hactive, ht]
    by_cases hg : w.Recent g
    · rw [if_pos hg] at hrecent
      refine iff_of_true ?_ fun h => absurd hg h
      omega
    · rw [if_neg hg] at hrecent
      simp only [hg, not_false_eq_true, forall_const]
      omega
  · exact iff_of_true (hactive.trans hrecent.symm) trivial
  · refine iff_of_true (by rw [hactive, hrecent, ht]) ?_
    cases o with
    | acceptChain k =>
        intro hk
        simp [Op.admits, hk] at hadm
    | release g | detachedRelease g =>
        intro hk
        simp [Op.releases, hk] at hrel
    | _ => trivial

theorem Tracks.counts (ht : Tracks key w) : Counts key w := by
  unfold Tracks at ht
  have hlive : w.recent key w.host.live ≤ w.recent key w.host.guards := by
    unfold recent Host.guards
    rw [List.countP_append]
    exact Nat.le_add_right _ _
  have hheld : w.recent key w.host.guards ≤ w.host.held key := by
    refine List.countP_mono_left fun g _ hg => ?_
    rw [decide_eq_true_eq] at hg ⊢
    exact hg.1
  unfold Counts
  omega

theorem tracks_iff {peerId : String} {now : Nat} (hrun : Run step ok (.new peerId now) es w) :
    Held step (Tracks key) (.new peerId now) es w ↔
      Run step (Undisturbed key) (.new peerId now) es w :=
  held_iff_run hrun (.new peerId now) (.new peerId now) (fun _ _ _ hn hs => hn.step hs)
    fun _ _ _ hn ht hs => ht.step_iff hn hs

theorem Bounded.step (hb : Host.Bounded key w.host) (hs : w.step o = some w') :
    Host.Bounded key w'.host := by
  obtain ⟨hhost, -⟩ := step_cases hs
  have hready : Host.Bounded key (w.ready o) := by
    cases o <;> exact ⟨hb.unknown, hb.bounded⟩
  exact hready.step hhost

/-- In every run the counter never exceeds the guards not released yet, and where every step leaves
it undisturbed it is at least the number of live guards admitted after the last force-stop. -/
theorem chain_counter_counts (peerId : String) (now : Nat) (key : SliceKey) (es : List Op)
    (w : Watched) (hrun : Run step (fun _ _ => True) (.new peerId now) es w) :
    w.activeChains key ≤ w.host.held key ∧
      (Run step (Undisturbed key) (.new peerId now) es w →
        Held step (Counts key) (.new peerId now) es w) := by
  constructor
  · -- the bound from above needs no condition
    have hb : Host.Bounded key w.host := hrun.invariant (.new peerId now key)
      fun _ _ _ hb _ hs => Bounded.step hb hs
    unfold activeChains
    cases he : w.host.entry key with
    | none => exact Nat.zero_le _
    | some e => exact hb.bounded e he
  · intro hok
    obtain ⟨htracks, hlast⟩ := (tracks_iff hok).mpr hok
    exact ⟨htracks.weaken fun _ _ ht => ht.counts, hlast.counts⟩

private def slice : SliceKey := ("a", 0, 4)

/-- A guard that outlives a force-stop is released while the slice is still stopped. -/
private def restarted : List Op :=
  [.upsertAnnouncing slice "", .acceptChain slice, .acceptChain slice, .dropGuard ⟨0, slice⟩,
    .detachedRelease ⟨0, slice⟩, .beginDrain slice, .watchdogForceStop, .release ⟨1, slice⟩,
    .upsertAnnouncing slice "", .acceptChain slice]

theorem chain_counter_counts_restarted :
    ∃ w, Run step (Undisturbed slice) (.new "host" 0) restarted w ∧
      w.recent slice w.host.live = 1 ∧ w.activeChains slice ≤ w.host.held slice ∧
      Held step (Counts slice) (.new "host" 0) restarted w := by
  have hexec : (execChecked step (fun w o => decide (Undisturbed slice w o)) (.new "host" 0)
      restarted).any (fun w => decide (w.recent slice w.host.live = 1)) = true := by decide +kernel
  obtain ⟨w, hexec, hlive⟩ := (Option.any_eq_true _ _).mp hexec
  have hrun : Run step (Undisturbed slice) (.new "host" 0) restarted w :=
    Run.of_execChecked hexec fun _ _ h => of_decide_eq_true h
  obtain ⟨hle, hheld⟩ := chain_counter_counts "host" 0 slice restarted w
    (hrun.weaken fun _ _ _ => trivial)
  exact ⟨w, hrun, of_decide_eq_true hlive, hle, hheld hrun⟩

/-- A guard that outlives a force-stop is released once the slice has a chain again. -/
private def outlived : List Op :=
  [.upsertAnnouncing slice "", .acceptChain slice, .beginDrain slice, .watchdogForceStop,
    .upsertAnnouncing slice "", .acceptChain slice, .release ⟨0, slice⟩]

/-- The counter is zero under the new chain. -/
theorem stale_release_undercounts :
    ¬ ∀ (peerId : String) (now : Nat) (key : SliceKey) (es : List Op) (w : Watched),
      Run step (fun _ _ => True) (.new peerId now) es w → Counts key w := by
  intro hall
  have hexec : (exec step (.new "host" 0) outlived).any
      (fun w => decide (¬ Counts slice w)) = true := by decide +kernel
  obtain ⟨w, hexec, hfails⟩ := (Option.any_eq_true _ _).mp hexec
  have hrun := Run.of_exec (fun _ _ => True) hexec fun _ _ _ => trivial
  exact of_decide_eq_true hfails (hall _ _ _ _ _ hrun)

end Watched

end IntelNav.App
