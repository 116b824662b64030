import IntelNav.App.CacheLength
import IntelNav.Runtime.Exchanges

/-! Requests and replies of a chain: which reply the driver takes for which request, and how often a
peer runs a request of one number. -/

set_option autoImplicit false
set_option relaxedAutoImplicit false

namespace IntelNav.App

open IntelNav.Cache IntelNav.Core IntelNav.Ggml IntelNav.Runtime IntelNav.Stream IntelNav.Transition
  IntelNav.Wire

variable {F K : Type}

/-- The listener with, for each connection, the numbers of the forwards that its handler has run on
its slice since the last session request. -/
structure Sessions (F K : Type) where
  hub : Hub F K
  ran : Nat → List Nat

def Sessions.new (s : Server F K) : Sessions F K := ⟨.new s, fun _ => []⟩

def Sessions.Once (s : Sessions F K) : Prop := ∀ i, (s.ran i).Nodup

section Machine

variable [F32 F] (cd : Codec)

def Sessions.step (s : Sessions F K) (e : Nat × Msg) : Option (Sessions F K) :=
  some
    { hub := (s.hub.step cd e.1 e.2).2
      ran :=
        match s.hub.conns e.1, e.2 with
        | some _, .sessionInit .. => Function.update s.ran e.1 []
        | some c, .forwardHidden f =>
            if c.reaches f then Function.update s.ran e.1 (f.seq :: s.ran e.1) else s.ran
        | _, _ => s.ran }

/-- A forward numbered zero reaches its slice only as the first of its session. -/
def Sessions.ZeroFirst (s : Sessions F K) (e : Nat × Msg) : Prop :=
  match s.hub.conns e.1, e.2 with
  | some c, .forwardHidden f => c.reaches f = true → f.seq = 0 → s.ran e.1 = []
  | _, _ => True

instance (s : Sessions F K) (e : Nat × Msg) : Decidable (s.ZeroFirst e) := by
  unfold Sessions.ZeroFirst
  split <;> infer_instance

def Sessions.Counted (s : Sessions F K) : Prop :=
  ∀ i c, s.hub.conns i = some c → ∀ n ∈ s.ran i, n ≤ c.lastSeq

private theorem lastSeq_handleMessage (s : Server F K) (c : Connection) (m : Msg)
    (hnext : (handleMessage cd s c m).1.2 = .next) :
    (handleMessage cd s c m).2.2.lastSeq =
      match m with
      | .sessionInit .. => 0
      | .forwardHidden f => f.seq
      | _ => c.lastSeq := by
  cases m with
  | sessionInit sid pub cid range n =>
      simp only [handleMessage] at hnext ⊢
      cases hacc : s.host.step (.acceptChain (cid, range.start, range.stop)) with
      | none =>
          rw [hacc] at hnext
          exact absurd hnext (writeFrame_ne_next cd (by simp))
      | some host =>
          rw [hacc] at hnext
          dsimp only at hnext ⊢
          split at hnext
          · exact absurd hnext (writeFrame_ne_next cd (by simp))
          · rfl
  | forwardHidden f =>
      simp only [handleMessage] at hnext ⊢
      cases hsid : c.sessionId with
      | none =>
          rw [hsid] at hnext
          cases hnext
      | some cur =>
          rw [hsid] at hnext
          dsimp only at hnext ⊢
          split_ifs at hnext ⊢ with hcur hseq
          cases hload : c.loaded.bind fun i => (s.slices[i]?).map fun slice => (i, slice) with
          | none => rfl
          | some found =>
              cases hactive : c.activeSlice with
              | none => rfl
              | some key =>
                  dsimp only
                  split <;> rfl
  | _ => rfl

private theorem reaches_of_next (s : Server F K) (c : Connection) (f : Forward)
    (hnext : (handleMessage cd s c (.forwardHidden f)).1.2 = .next) : c.reaches f = true := by
  by_contra hreach
  obtain ⟨out, c', hne, heq⟩ :=
    handleMessage_refused (F := F) (K := K) cd (Bool.eq_false_iff.mpr hreach)
  have hrefused := heq s c.guard
  rw [hrefused] at hnext
  exact hne hnext

private theorem conns_step {h : Hub F K} {i : Nat} {c : Connection}
    (hc : h.conns i = some c) (m : Msg) :
    (h.step cd i m).2.conns =
      Function.update h.conns i
        (if (handleMessage cd h.server c m).1.2 = .next then
          some (handleMessage cd h.server c m).2.2
        else none) := by
  rw [Hub.step, hc]
  dsimp only
  split
  · rename_i hnext
    rw [if_pos hnext]
  · rename_i hnext
    rw [if_neg hnext]

private theorem Sessions.step_counted {s t : Sessions F K} {e : Nat × Msg} (h : s.Counted)
    (hstep : s.step cd e = some t) : t.Counted := by
  obtain ⟨i, m⟩ := e
  obtain rfl := Option.some.inj hstep
  intro j d hd n hn
  cases hc : s.hub.conns i with
  | none =>
      have hsame : (s.hub.step cd i m).2 = s.hub := by rw [Hub.step, hc]
      simp only [hc, hsame] at hd hn
      exact h j d hd n hn
  | some c =>
      rw [conns_step cd hc m] at hd
      by_cases hij : j = i
      · subst hij
        rw [Function.update_self] at hd
        split_ifs at hd with hnext
        obtain rfl := Option.some.inj hd
        rw [lastSeq_handleMessage cd s.hub.server c m hnext]
        cases m with
        | sessionInit sid pub cid range k =>
            simp only [hc, Function.update_self] at hn
            cases hn
        | forwardHidden f =>
            have hreach := reaches_of_next cd s.hub.server c f hnext
            simp only [hc, hreach, if_true, Function.update_self] at hn
            rcases List.mem_cons.mp hn with rfl | hn
            · exact Nat.le_refl _
            · have hle := h j c hc n hn
              obtain ⟨-, hseq, -⟩ := Connection.reaches_iff.mp hreach
              show n ≤ f.seq
              omega
        | _ =>
            simp only [hc] at hn
            exact h j c hc n hn
      · rw [Function.update_of_ne hij] at hd
        have hran : n ∈ s.ran j := by
          cases m with
          | sessionInit sid pub cid range k =>
              simpa only [hc, Function.update_of_ne hij] using hn
          | forwardHidden f =>
              simp only [hc] at hn
              split_ifs at hn
              · simpa only [Function.update_of_ne hij] using hn
              · exact hn
          | _ => simpa only [hc] using hn
        exact h j d hd n hran

/-- A message has each number of a session run once just when it is not a forward numbered zero
after the first of its session. -/
private theorem Sessions.once_iff {s t : Sessions F K} {e : Nat × Msg} (h : s.Counted)
    (honce : s.Once) (hstep : s.step cd e = some t) : t.Once ↔ s.ZeroFirst e := by
  obtain ⟨i, m⟩ := e
  obtain rfl := Option.some.inj hstep
  rw [Sessions.ZeroFirst]
  cases hc : s.hub.conns i with
  | none =>
      refine iff_of_true ?_ trivial
      simpa only [Sessions.Once, hc] using honce
  | some c =>
      cases m with
      | forwardHidden f =>
          cases hreach : c.reaches f with
          | false =>
              refine iff_of_true ?_ (fun h => by cases hreach.symm.trans h)
              simpa only [Sessions.Once, hc, hreach, Bool.false_eq_true, if_false] using honce
          | true =>
              obtain ⟨-, hseq, -⟩ := Connection.reaches_iff.mp hreach
              have hle := h i c hc
              have hfresh : f.seq ∉ s.ran i ↔ (f.seq = 0 → s.ran i = []) := by
                constructor
                · intro hnot hzero
                  refine List.eq_nil_iff_forall_not_mem.mpr fun n hn => hnot ?_
                  have hn0 : n = f.seq := by
                    have := hle n hn
                    omega
                  exact hn0 ▸ hn
                · intro hfirst hmem
                  have := hle _ hmem
                  rw [hfirst (by omega)] at hmem
                  cases hmem
              have hnodup : (∀ j, (Function.update s.ran i (f.seq :: s.ran i) j).Nodup) ↔
                  f.seq ∉ s.ran i := by
                constructor
                · intro hall
                  have hi := hall i
                  rw [Function.update_self] at hi
                  exact (List.nodup_cons.mp hi).1
                · intro hnot j
                  by_cases hij : j = i
                  · subst hij
                    rw [Function.update_self]
                    exact List.nodup_cons.mpr ⟨hnot, honce j⟩
                  · rw [Function.update_of_ne hij]
                    exact honce j
              simp only [Sessions.Once, hreach, if_true, hnodup, hfresh]
              exact ⟨fun h _ => h, fun h => h trivial⟩
      | sessionInit sid pub cid range k =>
          refine iff_of_true (fun j => ?_) trivial
          show (Function.update s.ran i [] j).Nodup
          by_cases hij : j = i
          · subst hij
            rw [Function.update_self]
            exact List.nodup_nil
          · rw [Function.update_of_ne hij]
            exact honce j
      | _ =>
          refine iff_of_true ?_ trivial
          simpa only [Sessions.Once, hc] using honce

/-- In any run of the listener each number of a session is run at most once just when no forward
numbered zero reaches its slice after the first of its session. -/
private theorem once_iff_zeroFirst (s : Server F K) {es : List (Nat × Msg)} {t : Sessions F K}
    (hrun : Run (Sessions.step cd) (fun _ _ => True) (.new s) es t) :
    Held (Sessions.step cd) Sessions.Once (.new s) es t ↔
      Run (Sessions.step cd) Sessions.ZeroFirst (.new s) es t := by
  refine held_iff_run (I := Sessions.Counted) hrun ?_ (fun _ => List.nodup_nil) ?_ ?_
  · intro i c _ n hn
    cases hn
  · intro x e y hx hy
    exact Sessions.step_counted cd hx hy
  · intro x e y hx honce hy
    exact Sessions.once_iff cd hx honce hy

/-- Requests and replies pair, and each number is run once, just in the runs in which no request
goes out on a link where an answer is waiting, and none but the first forward of a session is
numbered zero. -/
theorem requests_and_replies_pair {Addr Conn W : Type} :
    (∀ (net : Net Addr Conn W), cd.RoundTrips → Answering net cd →
      ∀ (d d' : Driver Addr Conn W) (calls : List (StepCall F)),
        LinksOwed net cd d.chain.links d.world → d.log = [] →
        Run (Driver.step net cd) (fun _ _ => True) d calls d' →
        (Held (Driver.step net cd) Driver.Paired d calls d' ↔
          Run (Driver.step net cd) (Driver.ClearAt net cd) d calls d')) ∧
    ∀ (s : Server F K) (es : List (Nat × Msg)) (t : Sessions F K),
      Run (Sessions.step cd) (fun _ _ => True) (.new s) es t →
      (Held (Sessions.step cd) Sessions.Once (.new s) es t ↔
        Run (Sessions.step cd) Sessions.ZeroFirst (.new s) es t) :=
  ⟨fun _ hcd hnet _ _ _ howed hlog hrun => paired_iff_clear hcd hnet howed hlog hrun,
    fun s _ _ hrun => once_iff_zeroFirst cd s hrun⟩

end Machine

section Mirror

/-- The peer behind one connection answers a request with itself; the first one too late, if
`slow`. -/
def mirrorNet (slow : Bool) : Net Unit Unit (List (Arrival UInt8) × Nat) where
  dial _ w := (.done (), w)
  write _ bytes w :=
    (.done (),
      (w.1 ++ (if slow ∧ w.2 = 0 then [.stall, .units bytes] else [.units bytes]), w.2 + 1))
  incoming _ w := w.1
  leave _ rest w := (rest, w.2)
  session w := (sessionZero, w)

private theorem frameBytes_of_not_fits {cd : Codec} {m : Msg} (h : ¬ cd.Fits m) :
    frameBytes cd m = [] := by
  rw [frameBytes, encodeFrame, encode]
  cases henc : cd.encode m with
  | error e => rfl
  | ok b =>
      have hbig : b.length > maxFrameBytes := by
        by_contra hle
        exact h ⟨b, henc, by omega⟩
      simp only [if_pos hbig]

private theorem answering_mirrorNet (slow : Bool) (cd : Codec) : Answering (mirrorNet slow) cd where
  incoming_leave _ _ _ := rfl
  incoming_leave_ne _ _ _ _ h := absurd rfl h
  incoming_write _ req w := by
    have hbytes : arrived (if slow ∧ w.2 = 0 then
        [Arrival.stall, .units (frameBytes cd (.forwardHidden req))]
        else [.units (frameBytes cd (.forwardHidden req))]) =
          frameBytes cd (.forwardHidden req) := by
      split_ifs <;> simp [arrived]
    by_cases hfits : cd.Fits (.forwardHidden req)
    · refine ⟨_, [.forwardHidden req], rfl, by simpa using hfits, by simpa using hbytes, ?_⟩
      intro f hf _
      obtain rfl := Msg.forwardHidden.inj (List.mem_singleton.mp hf)
      rfl
    · refine ⟨_, [], rfl, by simp, ?_, by simp⟩
      exact hbytes.trans (frameBytes_of_not_fits hfits)
  incoming_write_ne _ _ _ _ h := absurd rfl h

private def mirrored (seq : Nat) : Msg :=
  .forwardHidden
    { sessionId := sessionZero, seq, phase := .decode, dtype := .fp16, shape := ⟨1, 1, 1⟩,
      payload := [0, 0x3c], kvDelta := none, kvTruncateTo := none }

private def mirrorCodec : Codec where
  encode m :=
    if m ∈ [mirrored 1, mirrored 2] then .ok (Cbor.msg (fun _ => []) m) else .error "unsupported"
  decode b :=
    match [mirrored 1, mirrored 2].find? fun m => Cbor.msg (fun _ => []) m = b with
    | some m => .ok m
    | none => .error "unsupported"

private theorem mirrorCodec_roundTrips : mirrorCodec.RoundTrips := by
  have hself : ∀ m ∈ [mirrored 1, mirrored 2],
      [mirrored 1, mirrored 2].find?
        (fun m' => Cbor.msg (fun _ => []) m' = Cbor.msg (fun _ => []) m) =
        some m := by decide +kernel
  intro m b henc
  simp only [mirrorCodec] at henc ⊢
  split_ifs at henc with hm
  rw [← Except.ok.inj henc, hself m hm]

private def mirrorDriver : Driver Unit Unit (List (Arrival UInt8) × Nat) where
  chain :=
    { cfg :=
        { peers := [()], splits := [1], protoVer := 1, modelCid := "m", maxSeq := 2048,
          wireDtype := .fp16 }
      links :=
        [{ addr := (), layers := ⟨1, 2⟩, session := sessionZero, sock := (), rx := [], seq := 0 }]
      frontEnd := 1 }
  world := ([], 0)
  log := []

private theorem mirrorDriver_owed (slow : Bool) :
    LinksOwed (mirrorNet slow) mirrorCodec mirrorDriver.chain.links mirrorDriver.world where
  apart := by decide
  owed link hlink := by
    obtain rfl := List.mem_singleton.mp hlink
    exact ⟨[], by simp, rfl, by simp⟩

private def mirrorCall : StepCall ℚ := ⟨⟨[1], [1, 1, 1]⟩, .decode, none⟩

private def listeningServer : Server ℚ (PositionCache Unit) :=
  { host := pulledHost, files := pulledFiles, cache := ∅, slices := [] }

/-- Two steps answered in time, and two forwards numbered in turn. -/
theorem requests_and_replies_pair_mirrored :
    (∃ d', Held (Driver.step (mirrorNet false) mirrorCodec) Driver.Paired mirrorDriver
        [mirrorCall, mirrorCall] d' ∧ d'.pairs = [(1, some 1), (2, some 2)]) ∧
      ∃ t, Held (Sessions.step plainCodec) Sessions.Once (.new listeningServer)
        [openZero, forwardKeeping 1 none, forwardKeeping 2 none] t ∧ t.ran 0 = [2, 1] := by
  constructor
  · obtain ⟨d', hexec, hpairs⟩ := Option.map_eq_some_iff.mp (show
      (execChecked (Driver.step (mirrorNet false) mirrorCodec)
        (fun d c => decide (d.ClearAt (mirrorNet false) mirrorCodec c)) mirrorDriver
        [mirrorCall, mirrorCall]).map Driver.pairs = some [(1, some 1), (2, some 2)] by
      decide +kernel)
    have hclear : Run (Driver.step (mirrorNet false) mirrorCodec)
        (Driver.ClearAt (mirrorNet false) mirrorCodec) mirrorDriver [mirrorCall, mirrorCall] d' :=
      .of_execChecked hexec fun d c h => of_decide_eq_true h
    exact ⟨d', ((requests_and_replies_pair (K := PositionCache Unit) mirrorCodec).1
      (mirrorNet false) mirrorCodec_roundTrips (answering_mirrorNet false mirrorCodec) mirrorDriver
      d' _ (mirrorDriver_owed false) rfl (hclear.weaken fun _ _ _ => trivial)).mpr hclear, hpairs⟩
  · obtain ⟨t, hexec, hran⟩ := Option.map_eq_some_iff.mp (show
      (execChecked (Sessions.step plainCodec) (fun s e => decide (s.ZeroFirst e))
        (.new listeningServer) [openZero, forwardKeeping 1 none, forwardKeeping 2 none]).map
          (fun t => t.ran 0) = some [2, 1] by decide +kernel)
    have hzero : Run (Sessions.step plainCodec) Sessions.ZeroFirst (.new listeningServer)
        [openZero, forwardKeeping 1 none, forwardKeeping 2 none] t :=
      .of_execChecked hexec fun s e h => of_decide_eq_true h
    exact ⟨t, ((@requests_and_replies_pair ℚ (PositionCache Unit) _ plainCodec Unit
      Unit Unit).2 listeningServer _ t (hzero.weaken fun _ _ _ => trivial)).mpr hzero, hran⟩

/-- A step times out, and the next one takes the late answer to its request; a forward numbered zero
is sent twice, and runs twice. -/
theorem late_reply_taken :
    (∃ d', Run (Driver.step (mirrorNet true) mirrorCodec) (fun _ _ => True) mirrorDriver
        [mirrorCall, mirrorCall] d' ∧ d'.pairs = [(1, none), (2, some 1)] ∧ ¬ d'.Paired) ∧
      ∃ t, Run (Sessions.step plainCodec) (fun _ _ => True) (.new listeningServer)
        [openZero, forwardKeeping 0 none, forwardKeeping 0 none] t ∧ ¬ t.Once := by
  constructor
  · obtain ⟨d', hexec, hpairs⟩ := Option.map_eq_some_iff.mp (show
      (exec (Driver.step (mirrorNet true) mirrorCodec) mirrorDriver [mirrorCall, mirrorCall]).map
        Driver.pairs = some [(1, none), (2, some 1)] by decide +kernel)
    refine ⟨d', .of_exec _ hexec fun _ _ _ => trivial, hpairs, fun hpaired => ?_⟩
    obtain ⟨x, hx, hpair⟩ := List.mem_map.mp (show (2, some 1) ∈ d'.pairs by rw [hpairs]; simp)
    obtain ⟨hseq, htaken⟩ := Prod.mk.inj hpair
    obtain ⟨f, hf, hnumber⟩ := Option.map_eq_some_iff.mp htaken
    have hsame := hpaired x hx f hf
    omega
  · obtain ⟨t, hexec, hran⟩ := Option.map_eq_some_iff.mp (show
      (exec (Sessions.step plainCodec) (.new listeningServer)
        [openZero, forwardKeeping 0 none, forwardKeeping 0 none]).map (fun t => t.ran 0) =
          some [0, 0] by decide +kernel)
    refine ⟨t, .of_exec _ hexec fun _ _ _ => trivial, fun honce => ?_⟩
    have hnodup := honce 0
    rw [hran] at hnodup
    exact absurd hnodup (by decide)

end Mirror

end IntelNav.App
