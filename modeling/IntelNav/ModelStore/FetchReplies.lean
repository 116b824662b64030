import IntelNav.ModelStore.P2p
import IntelNav.Transition.Desk

/-! The replies of the swarm driver: what a fetch is told, and when it is told nothing. -/

set_option autoImplicit false
set_option relaxedAutoImplicit false

namespace IntelNav.ModelStore

open IntelNav.Transition

variable {Peer Query Request : Type} {h : Hashing}

def Observation.fetch? : Observation Peer Request → Option (Nat × String × UInt64)
  | .fetched waiter cid expectedSize => some (waiter, cid, expectedSize)
  | _ => none

def Observation.reply? : Observation Peer Request → Option (Nat × String × FetchReply)
  | .replied waiter cid reply => some (waiter, cid, reply)
  | _ => none

/-- Bytes are given out only with the CID asked for and in the size expected. -/
def Verified (h : Hashing) (cid : String) (expectedSize : UInt64) (reply : FetchReply) : Prop :=
  ∀ bytes, reply = .ok bytes → h.cidStringFor bytes = cid ∧
    (expectedSize = anySize ∨ UInt64.ofNat bytes.length = expectedSize)

private theorem PendingFetch.verified_check (pf : PendingFetch Peer) (cid : String)
    (bytes : Bytes) :
    Verified h cid pf.expectedSize (pf.check h cid bytes) := by
  intro bs hbs
  rcases pf.check_cases h cid bytes with ⟨hsize, hcid, hok⟩ | ⟨-, e, -, herror⟩
  · obtain rfl := Except.ok.inj (hok.symm.trans hbs)
    exact ⟨hcid, hsize⟩
  · cases herror.symm.trans hbs

private theorem verified_error (cid : String) (expectedSize : UInt64) (e : FetchError) :
    Verified h cid expectedSize (.error e) := by
  intro bytes hbytes
  cases hbytes

namespace Driver

variable {d d' : Driver Peer Query Request} {es : List (SwarmEvent Peer Query Request)}

def replies (d : Driver Peer Query Request) (waiter : Nat) : Nat :=
  (d.history.filterMap Observation.reply?).countP (·.1 = waiter)

def Waits (d : Driver Peer Query Request) (waiter : Nat) (cid : String) (expectedSize : UInt64) :
    Prop :=
  ∃ pf ∈ d.pendingFetch.lookup cid, pf.waiter = waiter ∧ pf.expectedSize = expectedSize

/-- Every fetch either waits and was told nothing, or left the map with exactly one reply. -/
def AnsweredOnce (d : Driver Peer Query Request) : Prop :=
  ∀ waiter cid expectedSize, .fetched waiter cid expectedSize ∈ d.history →
    d.Waits waiter cid expectedSize ∧ d.replies waiter = 0 ∨
      (∀ cid, ∀ pf ∈ d.pendingFetch.lookup cid, pf.waiter ≠ waiter) ∧ d.replies waiter = 1

def FreshFetch (d : Driver Peer Query Request) (e : SwarmEvent Peer Query Request) : Prop :=
  ∀ cid expectedSize, e = .fetch cid expectedSize → d.pendingFetch.lookup cid = none

def tickets (m : AList fun _ : String => PendingFetch Peer) (cid : String) :
    Option (Nat × UInt64) :=
  (m.lookup cid).map fun pf => (pf.waiter, pf.expectedSize)

def desk (d : Driver Peer Query Request) : Desk String UInt64 FetchReply where
  waiting := tickets d.pendingFetch
  drawn := d.history.filterMap Observation.fetch?
  served := d.history.filterMap Observation.reply?

def Counted (d : Driver Peer Query Request) : Prop := d.fetches = d.desk.drawn.length

private theorem tickets_insert (m : AList fun _ : String => PendingFetch Peer) (cid : String)
    (pf : PendingFetch Peer) :
    tickets (m.insert cid pf) =
      Function.update (tickets m) cid (some (pf.waiter, pf.expectedSize)) := by
  funext c
  by_cases hc : c = cid
  · subst hc
    simp [tickets]
  · simp [tickets, hc, AList.lookup_insert_ne]

private theorem tickets_erase (m : AList fun _ : String => PendingFetch Peer) (cid : String) :
    tickets (m.erase cid) = Function.update (tickets m) cid none := by
  funext c
  by_cases hc : c = cid
  · subst hc
    simp [tickets]
  · simp [tickets, hc, AList.lookup_erase_ne]

private theorem tickets_replace {m : AList fun _ : String => PendingFetch Peer} {cid : String}
    {pf pf' : PendingFetch Peer} (hpf : m.lookup cid = some pf) (hwaiter : pf'.waiter = pf.waiter)
    (hsize : pf'.expectedSize = pf.expectedSize) : tickets (m.insert cid pf') = tickets m := by
  rw [tickets_insert, hwaiter, hsize]
  refine Function.update_eq_self_iff.mpr ?_
  simp [tickets, hpf]

private theorem desk_settle {cid : String} {pf : PendingFetch Peer} (reply : FetchReply) :
    (d.settle cid pf reply).desk = d.desk.serve cid pf.waiter reply := by
  simp [desk, settle, Desk.serve, tickets_erase, Observation.fetch?, Observation.reply?,
    List.filterMap_cons]

/-- The desk stays as it is, or serves one ticket with a verified reply; no caller comes. -/
def Handles (h : Hashing) (d d' : Driver Peer Query Request) : Prop :=
  Desk.Serves (Verified h) d.desk d'.desk ∧ d'.fetches = d.fetches

private theorem Handles.of_desk (hdesk : d'.desk = d.desk) (hfetches : d'.fetches = d.fetches) :
    Handles h d d' :=
  ⟨.inl hdesk, hfetches⟩

private theorem handles_settle {cid : String} {pf : PendingFetch Peer} {reply : FetchReply}
    (hpf : d.pendingFetch.lookup cid = some pf) (hreply : Verified h cid pf.expectedSize reply) :
    Handles h d (d.settle cid pf reply) :=
  ⟨.inr ⟨cid, pf.waiter, pf.expectedSize, reply, by simp [desk, tickets, hpf], hreply,
    desk_settle reply⟩, rfl⟩

private theorem handles_replace {cid : String} {pf pf' : PendingFetch Peer}
    (hpf : d.pendingFetch.lookup cid = some pf) (hwaiter : pf'.waiter = pf.waiter)
    (hsize : pf'.expectedSize = pf.expectedSize) :
    Handles h d { d with pendingFetch := (d.pendingFetch.erase cid).insert cid pf' } := by
  refine .of_desk ?_ rfl
  simp only [desk]
  rw [tickets_insert, tickets_erase, Function.update_idem, ← tickets_insert,
    tickets_replace hpf hwaiter hsize]

def InOrder (h : Hashing) (d : Driver Peer Query Request) : Prop :=
  d.Counted ∧ d.desk.Sound (Verified h)

theorem InOrder.start : InOrder h ({} : Driver Peer Query Request) := ⟨rfl, .empty⟩

private theorem waiting_eq_some {waiter : Nat} {cid : String} {expectedSize : UInt64} :
    d.desk.waiting cid = some (waiter, expectedSize) ↔ d.Waits waiter cid expectedSize := by
  simp [desk, tickets, Waits]

private theorem mem_drawn {waiter : Nat} {cid : String} {expectedSize : UInt64} :
    (waiter, cid, expectedSize) ∈ d.desk.drawn ↔
      .fetched waiter cid expectedSize ∈ d.history := by
  simp only [desk, List.mem_filterMap]
  constructor
  · rintro ⟨o, ho, heq⟩
    cases o <;> simp only [Observation.fetch?, Option.some.injEq, Prod.mk.injEq,
      reduceCtorEq] at heq
    obtain ⟨rfl, rfl, rfl⟩ := heq
    exact ho
  · intro ho
    exact ⟨_, ho, rfl⟩

theorem mem_served {waiter : Nat} {cid : String} {reply : FetchReply} :
    (waiter, cid, reply) ∈ d.desk.served ↔ .replied waiter cid reply ∈ d.history := by
  simp only [desk, List.mem_filterMap]
  constructor
  · rintro ⟨o, ho, heq⟩
    cases o <;> simp only [Observation.reply?, Option.some.injEq, Prod.mk.injEq,
      reduceCtorEq] at heq
    obtain ⟨rfl, rfl, rfl⟩ := heq
    exact ho
  · intro ho
    exact ⟨_, ho, rfl⟩

private theorem InOrder.replies_eq (ho : InOrder h d) (waiter : Nat) :
    d.replies waiter = if waiter ∈ d.desk.served.map Prod.fst then 1 else 0 := by
  have hcount : d.replies waiter = (d.desk.served.map Prod.fst).count waiter := by
    rw [List.count, List.countP_map]
    refine List.countP_congr fun x _ => ?_
    simp
  rw [hcount]
  split
  · exact List.count_eq_one_of_mem ho.2.once ‹_›
  · exact List.count_eq_zero_of_not_mem ‹_›

private theorem answeredOnce_iff (ho : InOrder h d) : d.AnsweredOnce ↔ d.desk.Accounted := by
  constructor
  · intro ha waiter cid expectedSize hdrawn
    refine (ha waiter cid expectedSize (mem_drawn.mp hdrawn)).imp
      (fun hw => waiting_eq_some.mpr hw.1) fun hs => ?_
    by_contra hserved
    have hone := hs.2
    rw [ho.replies_eq, if_neg hserved] at hone
    cases hone
  · intro ha waiter cid expectedSize hfetched
    have hdrawn := mem_drawn.mpr hfetched
    rw [ho.replies_eq]
    rcases ha waiter cid expectedSize hdrawn with hwait | hserved
    · exact .inl ⟨waiting_eq_some.mp hwait, if_neg (ho.2.waits _ _ _ hwait).2⟩
    · refine .inr ⟨fun cid pf hpf hwaiter => ?_, if_pos hserved⟩
      have hwait : d.desk.waiting cid = some (waiter, pf.expectedSize) :=
        waiting_eq_some.mpr ⟨pf, hpf, hwaiter, rfl⟩
      exact (ho.2.waits _ _ _ hwait).2 hserved

section Request

variable [DecidableEq Request]

private theorem handles_takeRequest (id : Request) : Handles h d (d.takeRequest id) :=
    .of_desk rfl rfl

theorem Handles.sendRequest (hd : Handles h d d') (ids : Ids Query Request) (peer : Peer)
    (cid : String) : Handles h d (d'.sendRequest ids peer cid) := hd

private theorem handles_onOutboundFailure (id : Request) (error : String) :
    Handles h d (d.onOutboundFailure id error) := by
  cases hcid : d.reqToCid.lookup id with
  | none =>
      simp only [onOutboundFailure, hcid]
      exact handles_takeRequest id
  | some cid =>
      cases hpf : d.pendingFetch.lookup cid with
      | none =>
          simp only [onOutboundFailure, hcid, hpf]
          exact handles_takeRequest id
      | some pf =>
          simp only [onOutboundFailure, hcid, hpf]
          exact handles_settle (d := d.takeRequest id) hpf (verified_error _ _ _)

end Request

private theorem handles_onGetProvidersFailed (cid error : String) :
    Handles h d (d.onGetProvidersFailed cid error) := by
  cases hpf : d.pendingFetch.lookup cid with
  | none =>
      simp only [onGetProvidersFailed, hpf]
      exact .of_desk rfl rfl
  | some pf =>
      simp only [onGetProvidersFailed, hpf]
      exact handles_settle hpf (verified_error _ _ _)

private theorem desk_onFetch [DecidableEq Query] (ids : Ids Query Request) (cid : String)
    (expectedSize : UInt64) (hcount : d.Counted) :
    (d.onFetch ids cid expectedSize).desk = d.desk.draw cid expectedSize := by
  rw [Counted] at hcount
  simp [desk, onFetch, Desk.draw, tickets_insert, Observation.fetch?, Observation.reply?,
    List.filterMap_cons, hcount]

variable {ids : Ids Query Request} [DecidableEq Peer]

private theorem handles_onFinished (cid : String) : Handles h d (d.onFinished cid) := by
  cases hpf : d.pendingFetch.lookup cid with
  | none =>
      simp only [onFinished, hpf]
      exact .of_desk rfl rfl
  | some pf =>
      simp only [onFinished, hpf]
      split
      · exact handles_settle hpf (verified_error _ _ _)
      · exact handles_replace hpf rfl rfl

variable [DecidableEq Request]

private theorem handles_onFoundProviders (cid : String) (providers : List Peer) :
    Handles h d (d.onFoundProviders ids cid providers) := by
  cases hpf : d.pendingFetch.lookup cid with
  | none =>
      simp only [onFoundProviders, observe, hpf]
      exact .of_desk rfl rfl
  | some pf =>
      have hinsert : ∀ pf' : PendingFetch Peer, pf'.waiter = pf.waiter →
          pf'.expectedSize = pf.expectedSize →
          Handles h d { d with
            pendingFetch := d.pendingFetch.insert cid pf'
            history := .reported cid providers :: d.history } := by
        intro pf' hwaiter hsize
        refine .of_desk ?_ rfl
        simp only [desk]
        rw [tickets_replace hpf hwaiter hsize]
        rfl
      cases huntried : providers.find? (· ∉ pf.providersTried) with
      | none =>
          simp only [onFoundProviders, observe, hpf, huntried]
          exact hinsert _ rfl rfl
      | some peer =>
          simp only [onFoundProviders, observe, hpf, huntried]
          refine Handles.sendRequest (hinsert _ ?_ ?_) ids peer cid <;> rfl

/-- An answer `NotFound` moves the fetch on to the next provider, or ends it. -/
private theorem handles_onNotFound {cid : String} {pf : PendingFetch Peer} {order : List Peer}
    (hpf : d.pendingFetch.lookup cid = some pf) (hs : d.onNotFound ids cid pf order = some d') :
    Handles h d d' := by
  rw [onNotFound] at hs
  split at hs
  · cases huntried : order.find? (· ∉ pf.providersTried) with
    | none =>
        simp only [huntried, Option.some.injEq] at hs
        subst hs
        exact handles_settle hpf (verified_error _ _ _)
    | some peer =>
        simp only [huntried, Option.some.injEq] at hs
        subst hs
        refine Handles.sendRequest (handles_replace hpf ?_ ?_) ids peer cid <;> rfl
  · cases hs

private theorem handles_onResponse {id : Request} {response : ChunkResponse} {order : List Peer}
    (hs : d.onResponse h ids id response order = some d') : Handles h d d' := by
  rw [onResponse] at hs
  cases hcid : d.reqToCid.lookup id with
  | none =>
      simp only [hcid, Option.some.injEq] at hs
      exact hs ▸ handles_takeRequest id
  | some cid =>
      cases hpf : d.pendingFetch.lookup cid with
      | none =>
          simp only [hcid, hpf, Option.some.injEq] at hs
          exact hs ▸ handles_takeRequest id
      | some pf =>
          cases response with
          | bytes bytes =>
              simp only [hcid, hpf, Option.some.injEq] at hs
              subst hs
              exact handles_settle (d := d.takeRequest id) hpf (pf.verified_check cid bytes)
          | notFound =>
              simp only [hcid, hpf] at hs
              exact handles_onNotFound (d := d.takeRequest id) hpf hs

variable [DecidableEq Query]

private theorem handles_step {e : SwarmEvent Peer Query Request} (hs : d.step h ids e = some d')
    (he : ∀ cid expectedSize, e ≠ .fetch cid expectedSize) : Handles h d d' := by
  cases e with
  | fetch cid expectedSize => exact absurd rfl (he cid expectedSize)
  | foundProviders id providers =>
      rw [step] at hs
      split at hs <;> obtain rfl := Option.some.inj hs
      · exact .of_desk rfl rfl
      · exact handles_onFoundProviders _ _
  | finishedWithNoAdditionalRecord id =>
      rw [step] at hs
      split at hs <;> obtain rfl := Option.some.inj hs
      · exact .of_desk rfl rfl
      · exact handles_onFinished _
  | getProvidersFailed id error =>
      rw [step] at hs
      split at hs <;> obtain rfl := Option.some.inj hs
      · exact .of_desk rfl rfl
      · exact handles_onGetProvidersFailed _ _
  | response id response order => exact handles_onResponse hs
  | outboundFailure id error =>
      obtain rfl := Option.some.inj hs
      exact handles_onOutboundFailure id error
  | other =>
      obtain rfl := Option.some.inj hs
      exact .of_desk rfl rfl

theorem InOrder.step {e : SwarmEvent Peer Query Request} (ho : InOrder h d)
    (hs : d.step h ids e = some d') : InOrder h d' := by
  obtain ⟨hcount, hsound⟩ := ho
  by_cases he : ∃ cid expectedSize, e = .fetch cid expectedSize
  · obtain ⟨cid, expectedSize, rfl⟩ := he
    obtain rfl := Option.some.inj hs
    have hdesk := desk_onFetch ids cid expectedSize hcount
    refine ⟨?_, hdesk ▸ hsound.draw cid expectedSize⟩
    rw [Counted, hdesk]
    simp only [Desk.draw, onFetch, List.length_cons]
    rw [← hcount]
  · obtain ⟨hserves, hfetches⟩ :=
      handles_step hs fun cid expectedSize heq => he ⟨cid, expectedSize, heq⟩
    refine ⟨?_, hsound.serves hserves⟩
    rw [Counted, hfetches, hcount]
    obtain hdesk | ⟨_, _, _, _, -, -, hdesk⟩ := hserves <;> rw [hdesk]
    rfl

private theorem accounted_step {e : SwarmEvent Peer Query Request} (ho : InOrder h d)
    (ha : d.desk.Accounted) (hs : d.step h ids e = some d') :
    d'.desk.Accounted ↔ d.FreshFetch e := by
  obtain ⟨hcount, hsound⟩ := ho
  by_cases he : ∃ cid expectedSize, e = .fetch cid expectedSize
  · obtain ⟨cid, expectedSize, rfl⟩ := he
    obtain rfl := Option.some.inj hs
    rw [desk_onFetch ids cid expectedSize hcount,
      hsound.accounted_draw ha cid expectedSize]
    simp [FreshFetch, desk, tickets]
  · have hother : ∀ cid expectedSize, e ≠ .fetch cid expectedSize :=
      fun cid expectedSize heq => he ⟨cid, expectedSize, heq⟩
    exact iff_of_true (hsound.accounted_serves ha (handles_step hs hother).1)
      fun cid expectedSize heq => absurd heq (hother cid expectedSize)

/-- Bytes given out are those of the CID, in the size this caller expected, in every run; and every
fetch of a run is answered exactly once, on leaving the map, just when no fetch came for a CID that
another one waited for. -/
theorem fetch_answered_once (hrun : Run (step h ids) (fun _ _ => True) {} es d) :
    (∀ waiter cid bytes, .replied waiter cid (.ok bytes) ∈ d.history →
      h.cidStringFor bytes = cid ∧ ∃ expectedSize,
        .fetched waiter cid expectedSize ∈ d.history ∧
          (expectedSize = anySize ∨ UInt64.ofNat bytes.length = expectedSize)) ∧
    (Transition.Held (step h ids) AnsweredOnce {} es d ↔
      Run (step h ids) FreshFetch {} es d) := by
  have hstep : ∀ (x : Driver Peer Query Request) e y, InOrder h x → x.step h ids e = some y →
      InOrder h y := fun x e y hx hs => hx.step hs
  constructor
  · intro waiter cid bytes hreplied
    have ho : InOrder h d := hrun.invariant .start fun x e y hx _ hs => hstep x e y hx hs
    obtain ⟨expectedSize, hdrawn, hverified⟩ := ho.2.fitting _ _ _ (mem_served.mpr hreplied)
    obtain ⟨hcid, hsize⟩ := hverified bytes rfl
    exact ⟨hcid, expectedSize, mem_drawn.mp hdrawn, hsize⟩
  · refine held_iff_run hrun InOrder.start ?_ hstep fun x e y hx hax hs => ?_
    · intro waiter cid expectedSize hfetched
      cases hfetched
    · rw [answeredOnce_iff (hstep x e y hx hs)]
      exact accounted_step hx ((answeredOnce_iff hx).mp hax) hs

end Driver

def fetchTwice : List (SwarmEvent Nat Nat Nat) :=
  [.fetch "bafk123" 3, .fetch "bafk123" 3, .foundProviders 0 [7],
    .response 0 (.bytes [1, 2, 3]) []]

/-- The first of two fetches of one CID is never answered. -/
theorem first_fetch_unanswered :
    ¬ ∀ (h : Hashing) (ids : Ids Nat Nat) (es : List (SwarmEvent Nat Nat Nat))
      (d : Driver Nat Nat Nat), Run (Driver.step h ids) (fun _ _ => True) {} es d →
        d.AnsweredOnce := by
  intro hall
  have hfacts : (exec (Driver.step sampleHashing sampleIds) {} fetchTwice).any fun d =>
      (d.pendingFetch.lookup "bafk123").isNone && d.replies 0 = 0 &&
        (d.history.filterMap Observation.fetch?).contains (0, "bafk123", 3) := by
    decide +kernel
  obtain ⟨d, hd, hfacts⟩ := (Option.any_eq_true _ _).mp hfacts
  simp only [Bool.and_eq_true, decide_eq_true_eq, Option.isNone_iff_eq_none,
    List.contains_iff_mem] at hfacts
  obtain ⟨⟨hnone, hzero⟩, hmem⟩ := hfacts
  rcases hall _ _ _ d (Run.of_exec _ hd fun _ _ _ => trivial) 0 "bafk123" 3
    (Driver.mem_drawn.mp hmem) with ⟨⟨pf, hpf, -⟩, -⟩ | ⟨-, hone⟩
  · rw [hnone] at hpf
    cases hpf
  · rw [hzero] at hone
    cases hone

/-- A chunk whose first provider lacks it, and a manifest of unknown size. -/
def fetchTwo : List (SwarmEvent Nat Nat Nat) :=
  [.fetch "bafk123" 3, .fetch "bafk" anySize, .foundProviders 0 [7, 8], .foundProviders 1 [8],
    .response 0 .notFound [8, 7], .response 1 (.bytes [9]) [], .response 2 (.bytes [1, 2, 3]) []]

/-- The two fetches are answered once each, the first after a second provider was asked. -/
theorem fetch_answered_once_two :
    ∃ d : Driver Nat Nat Nat, exec (Driver.step sampleHashing sampleIds) {} fetchTwo = some d ∧
      d.pendingFetch.keys = [] ∧ .fetched 0 "bafk123" 3 ∈ d.history ∧
      Transition.Held (Driver.step sampleHashing sampleIds) Driver.AnsweredOnce {} fetchTwo d := by
  have hfacts : (execChecked (Driver.step sampleHashing sampleIds)
      (fun d e => match e with
        | .fetch cid _ => (d.pendingFetch.lookup cid).isNone
        | _ => true) {} fetchTwo).any fun d =>
      d.pendingFetch.keys = [] &&
        (d.history.filterMap Observation.fetch?).contains (0, "bafk123", 3) := by
    decide +kernel
  obtain ⟨d, hd, hfacts⟩ := (Option.any_eq_true _ _).mp hfacts
  simp only [Bool.and_eq_true, decide_eq_true_eq, List.contains_iff_mem] at hfacts
  have hfresh : Run (Driver.step sampleHashing sampleIds) Driver.FreshFetch {} fetchTwo d := by
    refine Run.of_execChecked hd fun x e he cid expectedSize heq => ?_
    subst heq
    exact Option.isNone_iff_eq_none.mp he
  have hrun := hfresh.weaken fun _ _ _ => trivial
  exact ⟨d, hrun.exec_eq, hfacts.1, Driver.mem_drawn.mp hfacts.2,
    (Driver.fetch_answered_once hrun).2.mpr hfresh⟩

end IntelNav.ModelStore
