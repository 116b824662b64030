import IntelNav.ModelStore.FetchReplies

/-! When the swarm driver gives a fetch up: the requests in flight and the providers left to ask. -/

set_option autoImplicit false
set_option relaxedAutoImplicit false

namespace IntelNav.ModelStore

open IntelNav.Transition

variable {Peer Query Request : Type}

section History

variable [DecidableEq Peer] [DecidableEq Request]

/-- The requests sent and not answered yet, with the CID each asks for. -/
def outstanding : List (Observation Peer Request) → List (Request × String)
  | .asked id _ cid :: history => (id, cid) :: outstanding history
  | .answered id :: history => (outstanding history).filter (·.1 ≠ id)
  | _ :: history => outstanding history
  | [] => []

def reportedSince (cid : String) : List (Observation Peer Request) → Finset Peer
  | .fetched _ c _ :: history => if c = cid then ∅ else reportedSince cid history
  | .reported c providers :: history =>
      if c = cid then providers.toFinset ∪ reportedSince cid history
      else reportedSince cid history
  | _ :: history => reportedSince cid history
  | [] => ∅

def askedSince (cid : String) : List (Observation Peer Request) → Finset Peer
  | .fetched _ c _ :: history => if c = cid then ∅ else askedSince cid history
  | .asked _ peer c :: history =>
      if c = cid then insert peer (askedSince cid history) else askedSince cid history
  | _ :: history => askedSince cid history
  | [] => ∅

/-- Nothing is left to wait for: no request for the CID is outstanding, and every provider reported
was asked. -/
def Exhausted (cid : String) (history : List (Observation Peer Request)) : Prop :=
  (∀ id, (id, cid) ∉ outstanding history) ∧ reportedSince cid history ⊆ askedSince cid history

/-- Whenever an answer made a fetch fail, nothing was left to wait for. -/
def GaveUpInTime : List (Observation Peer Request) → Prop
  | .replied _ cid (.error e) :: history =>
      (e.OfAnswer → Exhausted cid history) ∧ GaveUpInTime history
  | _ :: history => GaveUpInTime history
  | [] => True

end History

namespace Driver

variable {d d' : Driver Peer Query Request}

def OnlyRequest [DecidableEq Request] (d : Driver Peer Query Request) (id : Request)
    (cid : String) : Prop :=
  ∀ id' ≠ id, d.reqToCid.lookup id' ≠ some cid

/-- An answer that ends a fetch without bytes is that of the only request for the CID; an answer
other than `NotFound` finds no provider untried then. -/
def LastAnswer [DecidableEq Request] (h : Hashing) (d : Driver Peer Query Request) :
    SwarmEvent Peer Query Request → Prop
  | .response id (.bytes bytes) _ =>
      ∀ cid ∈ d.reqToCid.lookup id, ∀ pf ∈ d.pendingFetch.lookup cid,
        ¬ ((pf.expectedSize = anySize ∨ UInt64.ofNat bytes.length = pf.expectedSize) ∧
          h.cidStringFor bytes = cid) →
        d.OnlyRequest id cid ∧ pf.providersFound ⊆ pf.providersTried
  | .response id .notFound _ =>
      ∀ cid ∈ d.reqToCid.lookup id, ∀ pf ∈ d.pendingFetch.lookup cid,
        pf.providersFound ⊆ pf.providersTried → d.OnlyRequest id cid
  | .outboundFailure id _ =>
      ∀ cid ∈ d.reqToCid.lookup id, ∀ pf ∈ d.pendingFetch.lookup cid,
        d.OnlyRequest id cid ∧ pf.providersFound ⊆ pf.providersTried
  | _ => True

section Providers

variable [DecidableEq Peer] {history history' : List (Observation Peer Request)}

def TracksAt (m : AList fun _ : String => PendingFetch Peer)
    (history : List (Observation Peer Request)) (cid : String) : Prop :=
  ∀ pf ∈ m.lookup cid,
    pf.providersFound = reportedSince cid history ∧ pf.providersTried = askedSince cid history

/-- The observations between the two histories concern one CID only. -/
def Concerns (cid : String) (history history' : List (Observation Peer Request)) : Prop :=
  ∀ c ≠ cid, reportedSince c history' = reportedSince c history ∧
    askedSince c history' = askedSince c history

private theorem concerns_fetched (cid : String) (history : List (Observation Peer Request))
    (waiter : Nat) (expectedSize : UInt64) :
    Concerns cid history (.fetched waiter cid expectedSize :: history) := by
  intro c hc
  simp [reportedSince, askedSince, hc.symm]

private theorem concerns_reported (cid : String) (history : List (Observation Peer Request))
    (providers : List Peer) : Concerns cid history (.reported cid providers :: history) := by
  intro c hc
  simp [reportedSince, askedSince, hc.symm]

private theorem concerns_asked (cid : String) (history : List (Observation Peer Request))
    (id : Request) (peer : Peer) : Concerns cid history (.asked id peer cid :: history) := by
  intro c hc
  simp [reportedSince, askedSince, hc.symm]

theorem TracksAt.erase {m : AList fun _ : String => PendingFetch Peer} {c : String}
    (hm : TracksAt m history c) (cid : String) : TracksAt (m.erase cid) history c := by
  intro pf hpf
  by_cases hc : c = cid
  · subst hc
    simp at hpf
  · exact hm pf (by rwa [AList.lookup_erase_ne hc] at hpf)

theorem TracksAt.other {m : AList fun _ : String => PendingFetch Peer} {c cid : String}
    (hm : TracksAt m history c) (hc : c ≠ cid) (hconcerns : Concerns cid history history') :
    TracksAt m history' c := by
  intro pf hpf
  rw [(hconcerns c hc).1, (hconcerns c hc).2]
  exact hm pf hpf

private theorem tracksAt_insert {m : AList fun _ : String => PendingFetch Peer} {cid : String}
    {pf : PendingFetch Peer} (hm : ∀ c ≠ cid, TracksAt m history c)
    (hfound : pf.providersFound = reportedSince cid history)
    (htried : pf.providersTried = askedSince cid history) (c : String) :
    TracksAt (m.insert cid pf) history c := by
  intro pf' hpf'
  by_cases hc : c = cid
  · subst hc
    obtain rfl : pf = pf' := by simpa using hpf'
    exact ⟨hfound, htried⟩
  · exact hm c hc pf' (by rwa [AList.lookup_insert_ne hc] at hpf')

end Providers

section Requests

variable [DecidableEq Request] {history : List (Observation Peer Request)}

/-- The map of the requests is that of the outstanding ones, and their ids were drawn. -/
structure TracksRequests (ids : Ids Query Request) (m : AList fun _ : Request => String)
    (requests : Nat) (history : List (Observation Peer Request)) : Prop where
  lookup_iff : ∀ id cid, m.lookup id = some cid ↔ (id, cid) ∈ outstanding history
  drawn : ∀ id cid, (id, cid) ∈ outstanding history → ∃ n < requests, ids.request n = id

theorem TracksRequests.send {ids : Ids Query Request} (hids : Function.Injective ids.request)
    {m : AList fun _ : Request => String} {n : Nat} (hm : TracksRequests ids m n history)
    (peer : Peer) (cid : String) :
    TracksRequests ids (m.insert (ids.request n) cid) (n + 1)
      (.asked (ids.request n) peer cid :: history) where
  lookup_iff id c := by
    rw [outstanding, List.mem_cons, Prod.mk.injEq]
    by_cases hid : id = ids.request n
    · subst hid
      have hnew : (ids.request n, c) ∉ outstanding history := by
        intro hmem
        obtain ⟨k, hk, heq⟩ := hm.drawn _ _ hmem
        exact absurd (hids heq) (Nat.ne_of_lt hk)
      simp [hnew, eq_comm]
    · rw [AList.lookup_insert_ne hid, hm.lookup_iff]
      simp [hid]
  drawn id c h := by
    rcases List.mem_cons.mp h with h | h
    · exact ⟨n, Nat.lt_succ_self n, (Prod.mk.inj h).1.symm⟩
    · obtain ⟨k, hk, heq⟩ := hm.drawn id c h
      exact ⟨k, Nat.lt_succ_of_lt hk, heq⟩

theorem TracksRequests.take {ids : Ids Query Request} {m : AList fun _ : Request => String}
    {n : Nat} (hm : TracksRequests ids m n history) (id : Request) :
    TracksRequests ids (m.erase id) n (.answered id :: history) where
  lookup_iff id' c := by
    rw [outstanding, List.mem_filter, ← hm.lookup_iff]
    by_cases hid : id' = id
    · subst hid
      simp
    · simp [AList.lookup_erase_ne hid, hid]
  drawn id' c h := by
    rw [outstanding, List.mem_filter] at h
    exact hm.drawn id' c h.1

theorem TracksRequests.skip {ids : Ids Query Request} {m : AList fun _ : Request => String}
    {n : Nat} (hm : TracksRequests ids m n history) {o : Observation Peer Request}
    (ho : outstanding (o :: history) = outstanding history) :
    TracksRequests ids m n (o :: history) where
  lookup_iff id c := by rw [ho, hm.lookup_iff]
  drawn id c h := hm.drawn id c (ho ▸ h)

end Requests

variable [DecidableEq Peer] [DecidableEq Request] {ids : Ids Query Request} {h : Hashing}

structure Tracked (ids : Ids Query Request) (d : Driver Peer Query Request) : Prop where
  providers : ∀ cid, TracksAt d.pendingFetch d.history cid
  requests : TracksRequests ids d.reqToCid d.requests d.history

theorem Tracked.start : Tracked ids ({} : Driver Peer Query Request) where
  providers := fun cid pf hpf => by simp at hpf
  requests :=
    ⟨fun id cid => by simp [outstanding], fun id cid hmem => by simp [outstanding] at hmem⟩

theorem Tracked.settle (ht : Tracked ids d) (cid : String) (pf : PendingFetch Peer)
    (reply : FetchReply) : Tracked ids (d.settle cid pf reply) where
  providers c := (ht.providers c).erase cid
  requests := ht.requests.skip rfl

theorem Tracked.takeRequest (ht : Tracked ids d) (id : Request) :
    Tracked ids (d.takeRequest id) where
  providers := ht.providers
  requests := ht.requests.take id

private theorem tracked_ask (hids : Function.Injective ids.request) {cid : String}
    (m : AList fun _ : String => PendingFetch Peer) (pf : PendingFetch Peer) (peer : Peer)
    (hm : ∀ c ≠ cid, TracksAt m d.history c)
    (hfound : pf.providersFound = reportedSince cid d.history)
    (htried : pf.providersTried = askedSince cid d.history)
    (hrequests : TracksRequests ids d.reqToCid d.requests d.history) :
    Tracked ids (sendRequest ids
      { d with
        pendingFetch := m.insert cid { pf with providersTried := insert peer pf.providersTried } }
      peer cid) where
  providers := by
    refine tracksAt_insert (fun c hc => (hm c hc).other hc (concerns_asked _ _ _ _)) hfound ?_
    exact (congrArg (insert peer) htried).trans (if_pos rfl).symm
  requests := hrequests.send hids peer cid

theorem Tracked.onFetch [DecidableEq Query] (ht : Tracked ids d) (cid : String)
    (expectedSize : UInt64) : Tracked ids (d.onFetch ids cid expectedSize) where
  providers :=
    tracksAt_insert (fun c hc => (ht.providers c).other hc (concerns_fetched _ _ _ _))
      (if_pos rfl).symm (if_pos rfl).symm
  requests := ht.requests.skip rfl

theorem Tracked.onFoundProviders (hids : Function.Injective ids.request) (ht : Tracked ids d)
    (cid : String) (providers : List Peer) :
    Tracked ids (d.onFoundProviders ids cid providers) := by
  have hothers : ∀ c ≠ cid,
      TracksAt d.pendingFetch (.reported cid providers :: d.history) c :=
    fun c hc => (ht.providers c).other hc (concerns_reported _ _ _)
  have hrequests := ht.requests.skip (o := .reported cid providers) rfl
  cases hpf : d.pendingFetch.lookup cid with
  | none =>
      simp only [Driver.onFoundProviders, observe, hpf]
      refine ⟨fun c => ?_, hrequests⟩
      by_cases hc : c = cid
      · subst hc
        intro pf hpf'
        exact absurd (hpf.symm.trans hpf') (by simp)
      · exact hothers c hc
  | some pf =>
      obtain ⟨hfound, htried⟩ := ht.providers cid pf hpf
      have hfound' : providers.toFinset ∪ pf.providersFound =
          reportedSince cid (.reported cid providers :: d.history) := by
        simp [reportedSince, hfound]
      cases huntried : providers.find? (· ∉ pf.providersTried) with
      | none =>
          simp only [Driver.onFoundProviders, observe, hpf, huntried]
          exact ⟨tracksAt_insert hothers hfound' htried, hrequests⟩
      | some peer =>
          simp only [Driver.onFoundProviders, observe, hpf, huntried]
          exact tracked_ask (d := { d with history := .reported cid providers :: d.history }) hids
            d.pendingFetch { pf with providersFound := providers.toFinset ∪ pf.providersFound } peer
            hothers hfound' htried hrequests

private theorem exhausted_answered (ht : Tracked ids d) (id : Request) {cid : String}
    {pf : PendingFetch Peer} (hpf : d.pendingFetch.lookup cid = some pf) :
    Exhausted cid (.answered id :: d.history) ↔
      d.OnlyRequest id cid ∧ pf.providersFound ⊆ pf.providersTried := by
  obtain ⟨hfound, htried⟩ := ht.providers cid pf hpf
  refine and_congr ?_ (by rw [hfound, htried]; rfl)
  simp only [outstanding, List.mem_filter, ← ht.requests.lookup_iff, decide_eq_true_eq, not_and,
    OnlyRequest]
  exact forall_congr' fun id' => ⟨fun h hne heq => h heq hne, fun h heq hne => h hne heq⟩

/-- The maps still tell what was observed, and no fetch was given up too early just when none was
before and `c` holds. -/
def Keeps (ids : Ids Query Request) (d d' : Driver Peer Query Request) (c : Prop) : Prop :=
  Tracked ids d' ∧ (GaveUpInTime d'.history ↔ GaveUpInTime d.history ∧ c)

theorem Keeps.quiet {c : Prop} (ht : Tracked ids d')
    (hhistory : GaveUpInTime d'.history ↔ GaveUpInTime d.history) (hc : c) : Keeps ids d d' c :=
  ⟨ht, hhistory.trans (and_iff_left hc).symm⟩

private theorem keeps_settle_error (ht : Tracked ids d) (id : Request) {cid : String}
    {pf : PendingFetch Peer} (hpf : d.pendingFetch.lookup cid = some pf) {e : FetchError}
    (he : e.OfAnswer) :
    Keeps ids d ((d.takeRequest id).settle cid pf (.error e))
      (d.OnlyRequest id cid ∧ pf.providersFound ⊆ pf.providersTried) := by
  refine ⟨(ht.takeRequest id).settle cid pf _, ?_⟩
  rw [← exhausted_answered ht id hpf, and_comm]
  exact and_congr_left fun _ => ⟨fun h => h he, fun h _ => h⟩

private theorem keeps_onOutboundFailure (ht : Tracked ids d) (id : Request) (error : String) :
    Keeps ids d (d.onOutboundFailure id error) (d.LastAnswer h (.outboundFailure id error)) := by
  simp only [LastAnswer, Option.mem_def]
  cases hcid : d.reqToCid.lookup id with
  | none =>
      simp only [onOutboundFailure, hcid]
      exact .quiet (ht.takeRequest id) Iff.rfl (by simp)
  | some cid =>
      cases hpf : d.pendingFetch.lookup cid with
      | none =>
          simp only [onOutboundFailure, hcid, hpf]
          exact .quiet (ht.takeRequest id) Iff.rfl (by simp [hpf])
      | some pf =>
          simp only [onOutboundFailure, hcid, hpf, Option.some.injEq, forall_eq']
          exact keeps_settle_error ht id hpf trivial

private theorem keeps_onNotFound (hids : Function.Injective ids.request) (ht : Tracked ids d)
    (id : Request) {cid : String} {pf : PendingFetch Peer} {order : List Peer}
    (hpf : d.pendingFetch.lookup cid = some pf)
    (hs : (d.takeRequest id).onNotFound ids cid pf order = some d') :
    Keeps ids d d' (pf.providersFound ⊆ pf.providersTried → d.OnlyRequest id cid) := by
  obtain ⟨hfound, htried⟩ := ht.providers cid pf hpf
  rw [onNotFound] at hs
  split at hs
  · rename_i henum
    have hsub : pf.providersFound ⊆ pf.providersTried ↔ ∀ p ∈ order, p ∈ pf.providersTried := by
      rw [← henum.2]
      simp [Finset.subset_iff]
    cases huntried : order.find? (· ∉ pf.providersTried) with
    | none =>
        have hall : pf.providersFound ⊆ pf.providersTried := by
          rw [hsub]
          simpa using huntried
        simp only [huntried, Option.some.injEq] at hs
        subst hs
        have hkeeps := keeps_settle_error ht id hpf
          (show (FetchError.allNotFound pf.providersTried.card cid).OfAnswer from trivial)
        simpa only [hall, and_true, forall_const] using hkeeps
    | some peer =>
        have hpeer := List.find?_some huntried
        have hmem := List.mem_of_find?_eq_some huntried
        simp only [huntried, Option.some.injEq] at hs
        subst hs
        refine .quiet ?_ Iff.rfl fun hall => absurd (hsub.mp hall peer hmem) (by simpa using hpeer)
        exact tracked_ask hids _ pf peer (fun c _ => ((ht.takeRequest id).providers c).erase cid)
          hfound htried (ht.requests.take id)
  · cases hs

private theorem keeps_onResponse (hids : Function.Injective ids.request) (ht : Tracked ids d)
    {id : Request} {response : ChunkResponse} {order : List Peer}
    (hs : d.onResponse h ids id response order = some d') :
    Keeps ids d d' (d.LastAnswer h (.response id response order)) := by
  rw [onResponse] at hs
  cases hcid : d.reqToCid.lookup id with
  | none =>
      simp only [hcid, Option.some.injEq] at hs
      subst hs
      refine .quiet (ht.takeRequest id) Iff.rfl ?_
      cases response <;> simp [LastAnswer, hcid]
  | some cid =>
      cases hpf : d.pendingFetch.lookup cid with
      | none =>
          simp only [hcid, hpf, Option.some.injEq] at hs
          subst hs
          refine .quiet (ht.takeRequest id) Iff.rfl ?_
          cases response <;> simp [LastAnswer, hcid, hpf]
      | some pf =>
          cases response with
          | notFound =>
              simp only [hcid, hpf] at hs
              simp only [LastAnswer, Option.mem_def, hcid, Option.some.injEq, forall_eq', hpf]
              exact keeps_onNotFound hids ht id hpf hs
          | bytes bytes =>
              simp only [hcid, hpf, Option.some.injEq] at hs
              subst hs
              simp only [LastAnswer, Option.mem_def, hcid, Option.some.injEq, forall_eq', hpf]
              rcases pf.check_cases h cid bytes with ⟨hsize, hhash, hok⟩ | ⟨hbad, e, he, herror⟩
              · rw [hok]
                exact .quiet ((ht.takeRequest id).settle cid pf _) Iff.rfl
                  fun hbad => absurd ⟨hsize, hhash⟩ hbad
              · rw [herror]
                have hkeeps := keeps_settle_error ht id hpf he
                simpa only [hbad, not_false_eq_true, forall_const] using hkeeps

private theorem keeps_onFoundProviders (hids : Function.Injective ids.request) (ht : Tracked ids d)
    (cid : String) (providers : List Peer) :
    Keeps ids d (d.onFoundProviders ids cid providers) True := by
  refine .quiet (ht.onFoundProviders hids cid providers) ?_ trivial
  cases hpf : d.pendingFetch.lookup cid with
  | none =>
      simp only [onFoundProviders, observe, hpf]
      rfl
  | some pf =>
      cases huntried : providers.find? (· ∉ pf.providersTried) <;>
        simp only [onFoundProviders, observe, hpf, huntried] <;> rfl

private theorem keeps_onFinished (ht : Tracked ids d) (cid : String) :
    Keeps ids d (d.onFinished cid) True := by
  cases hpf : d.pendingFetch.lookup cid with
  | none =>
      simp only [onFinished, hpf]
      exact .quiet ht Iff.rfl trivial
  | some pf =>
      simp only [onFinished, hpf]
      split
      · exact .quiet (ht.settle cid pf _) (and_iff_right fun he => he.elim) trivial
      · obtain ⟨hfound, htried⟩ := ht.providers cid pf hpf
        exact .quiet ⟨tracksAt_insert (fun c _ => (ht.providers c).erase cid) hfound htried,
          ht.requests⟩ Iff.rfl trivial

private theorem keeps_onGetProvidersFailed (ht : Tracked ids d) (cid error : String) :
    Keeps ids d (d.onGetProvidersFailed cid error) True := by
  cases hpf : d.pendingFetch.lookup cid with
  | none =>
      simp only [onGetProvidersFailed, hpf]
      exact .quiet ht Iff.rfl trivial
  | some pf =>
      simp only [onGetProvidersFailed, hpf]
      exact .quiet (ht.settle cid pf _) (and_iff_right fun he => he.elim) trivial

variable [DecidableEq Query]

/-- An event gives no fetch up too early just when an answer it brings is the last one. -/
private theorem keeps_step (hids : Function.Injective ids.request) (ht : Tracked ids d)
    {e : SwarmEvent Peer Query Request} (hs : d.step h ids e = some d') :
    Keeps ids d d' (d.LastAnswer h e) := by
  cases e with
  | fetch cid expectedSize =>
      obtain rfl := Option.some.inj hs
      exact .quiet (ht.onFetch cid expectedSize) Iff.rfl trivial
  | foundProviders id providers =>
      rw [step] at hs
      split at hs <;> obtain rfl := Option.some.inj hs
      · exact .quiet ht Iff.rfl trivial
      · exact keeps_onFoundProviders hids ht _ providers
  | finishedWithNoAdditionalRecord id =>
      rw [step] at hs
      split at hs <;> obtain rfl := Option.some.inj hs
      · exact .quiet ht Iff.rfl trivial
      · exact keeps_onFinished ht _
  | getProvidersFailed id error =>
      rw [step] at hs
      split at hs <;> obtain rfl := Option.some.inj hs
      · exact .quiet ht Iff.rfl trivial
      · exact keeps_onGetProvidersFailed ht _ error
  | response id response order => exact keeps_onResponse hids ht hs
  | outboundFailure id error =>
      obtain rfl := Option.some.inj hs
      exact keeps_onOutboundFailure ht id error
  | other =>
      obtain rfl := Option.some.inj hs
      exact .quiet ht Iff.rfl trivial

/-- A run gives up fetches on an answer only with nothing left to wait for, just when every answer
that ends a fetch without bytes is the last one. -/
theorem fetch_gives_up_in_time (hids : Function.Injective ids.request)
    {es : List (SwarmEvent Peer Query Request)}
    (hrun : Run (step h ids) (fun _ _ => True) {} es d) :
    Transition.Held (step h ids) (fun d => GaveUpInTime d.history) {} es d ↔
      Run (step h ids) (LastAnswer h) {} es d := by
  refine held_iff_run hrun (I := Tracked ids) .start trivial
    (fun x e y hx hs => (keeps_step hids hx hs).1) fun x e y hx hin hs => ?_
  rw [(keeps_step hids hx hs).2]
  exact and_iff_right hin

end Driver

/-- The only request of a fetch fails while a provider it was told of is left. -/
def failingProvider : List (SwarmEvent Nat Nat Nat) :=
  [.fetch "bafk123" 3, .foundProviders 0 [7, 8], .outboundFailure 0 "Timeout"]

/-- The newest entry fails a fetch on an answer, with a provider reported that was not asked. -/
private def leavesOneOut : List (Observation Nat Nat) → Bool
  | .replied _ cid (.error (.outboundFailure _)) :: history =>
      ¬ reportedSince cid history ⊆ askedSince cid history
  | _ => false

private theorem leavesOneOut_late {history : List (Observation Nat Nat)}
    (h : leavesOneOut history = true) : ¬ GaveUpInTime history := by
  intro hin
  unfold leavesOneOut at h
  split at h
  · exact of_decide_eq_true h (hin.1 trivial).2
  · cases h

/-- A fetch is given up without a word to the second of its two providers. -/
theorem provider_left_out :
    ¬ ∀ (h : Hashing) (ids : Ids Nat Nat), Function.Injective ids.request →
      ∀ (es : List (SwarmEvent Nat Nat Nat)) (d : Driver Nat Nat Nat),
        Run (Driver.step h ids) (fun _ _ => True) {} es d → GaveUpInTime d.history := by
  intro hall
  have hfacts : (exec (Driver.step sampleHashing sampleIds) {} failingProvider).any
      fun d => leavesOneOut d.history := by
    decide +kernel
  obtain ⟨d, hd, hfacts⟩ := (Option.any_eq_true _ _).mp hfacts
  exact leavesOneOut_late hfacts (hall sampleHashing sampleIds Function.injective_id _ d
    (Run.of_exec _ hd fun _ _ _ => trivial))

def bothNotFound : List (SwarmEvent Nat Nat Nat) :=
  [.fetch "bafk123" 3, .foundProviders 0 [7, 8], .response 0 .notFound [7, 8],
    .response 1 .notFound [8, 7]]

/-- The fetch is given up after both. -/
theorem fetch_gives_up_in_time_both :
    ∃ d : Driver Nat Nat Nat,
      exec (Driver.step sampleHashing sampleIds) {} bothNotFound = some d ∧
        d.replies 0 = 1 ∧
        Transition.Held (Driver.step sampleHashing sampleIds) (fun d => GaveUpInTime d.history) {}
          bothNotFound d := by
  have hfacts : (execChecked (Driver.step sampleHashing sampleIds)
      (fun d e => match e with
        | .response id .notFound _ => d.reqToCid.keys = [id]
        | .response _ (.bytes _) _ | .outboundFailure _ _ => false
        | _ => true) {} bothNotFound).any fun d => d.replies 0 = 1 := by
    decide +kernel
  obtain ⟨d, hd, hfacts⟩ := (Option.any_eq_true _ _).mp hfacts
  have hlast : Run (Driver.step sampleHashing sampleIds) (Driver.LastAnswer sampleHashing) {}
      bothNotFound d := by
    refine Run.of_execChecked hd fun x e he => ?_
    cases e with
    | response id response order =>
        cases response with
        | bytes bytes => cases he
        | notFound =>
            intro cid _ pf _ _ id' hid' hlookup
            have hmem : id' ∈ x.reqToCid.keys :=
              AList.mem_keys.mp (AList.lookup_isSome.mp (by rw [hlookup]; rfl))
            rw [of_decide_eq_true he] at hmem
            exact hid' (List.mem_singleton.mp hmem)
    | outboundFailure id error => cases he
    | _ => trivial
  have hrun := hlast.weaken fun _ _ _ => trivial
  exact ⟨d, hrun.exec_eq, of_decide_eq_true hfacts,
    (Driver.fetch_gives_up_in_time Function.injective_id hrun).mpr hlast⟩

end IntelNav.ModelStore
