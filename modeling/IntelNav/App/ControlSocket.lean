import IntelNav.App.Chains
import IntelNav.Stream.Lines
import IntelNav.Text.Json
import IntelNav.Text.Lossy
import IntelNav.Transition.Run
import IntelNav.Tui.Input

/-! The control socket (`crates/app/src/control.rs`): clients whose requests come in pieces, a task
for each of them, and one control state that other tasks change as well. -/

set_option autoImplicit false
set_option relaxedAutoImplicit false

namespace IntelNav.App.ControlSocket

open IntelNav.Stream IntelNav.Text IntelNav.Transition

abbrev Bytes := List UInt8

/-- `serde_json` for the requests and the responses. -/
structure ControlJson where
  requestToStr : Request → String
  requestFromStr : String → Except String Request
  responseToStr : Response → String
  responseFromStr : String → Option Response

def newline : UInt8 := 10

def chomp (cs : List Char) : List Char :=
  match cs.reverse with
  | '\n' :: '\r' :: before => before.reverse
  | '\n' :: before => before.reverse
  | _ => cs

section Server

variable (json : ControlJson)

def reply (r : Response) : Bytes := encode (json.responseToStr r).toList ++ [newline]

/-- What the task of a client does with a line, and what it writes; `none` when the line is no
text. -/
def answer (host : Host) (line : Bytes) : Option (Host × Bytes) :=
  (String.fromUTF8? ⟨line.toArray⟩).map fun s =>
    let text := chomp s.toList
    if text.all Tui.isWhitespace then (host, [])
    else
      match json.requestFromStr (String.ofList text) with
      | .ok req =>
          let (r, control) := dispatch host.control host.now req
          ({ host with control }, reply json r)
      | .error e => (host, reply json (.error s!"bad request: {e}"))

end Server

/-- What `call` makes of what it was sent. -/
def received (json : ControlJson) (ended : Bool) (bytes : Bytes) : Option Response := do
  let (line, _) ← nextLine newline ended bytes
  let s ← String.fromUTF8? ⟨line.toArray⟩
  json.responseFromStr (String.ofList (chomp s.toList))

/-- A client, with what it has sent and its task has not taken off, and what was written to it. -/
structure Client where
  inbox : Bytes
  closed : Bool
  outbox : Bytes
  finished : Bool
  deriving DecidableEq

def Client.accepted : Client := ⟨[], false, [], false⟩

structure Server where
  host : Host
  clients : List Client

/-- A client connects, sends a piece, shuts its side down or is lost; its task takes the next line,
and the write of the answer may fail after some bytes; another task acts on the control state. -/
inductive Event
  | connect
  | send (client : Nat) (bytes : Bytes)
  | shutdown (client : Nat)
  | lose (client : Nat)
  | serve (client : Nat) (cut : Option Nat)
  | other (o : Op)

section Step

variable (json : ControlJson)

/-- A round of `handle_client`. -/
def serveClient (host : Host) (c : Client) (cut : Option Nat) : Option (Host × Client) :=
  if c.finished then none
  else
    match nextLine newline c.closed c.inbox with
    | none => if c.closed then some (host, { c with finished := true }) else none
    | some (line, inbox) =>
        match answer json host line with
        | none => some (host, { c with inbox, finished := true })
        | some (host, bytes) =>
            match cut with
            | none => some (host, { c with inbox, outbox := c.outbox ++ bytes })
            | some n =>
                if n < bytes.length then
                  some
                    (host, { c with inbox, outbox := c.outbox ++ bytes.take n, finished := true })
                else none

def step (s : Server) : Event → Option Server
  | .connect => some { s with clients := s.clients ++ [.accepted] }
  | .send i bytes => do
      let c ← s.clients[i]?
      if c.closed then none
      else some { s with clients := s.clients.set i { c with inbox := c.inbox ++ bytes } }
  | .shutdown i => do
      let c ← s.clients[i]?
      if c.closed then none
      else some { s with clients := s.clients.set i { c with closed := true } }
  | .lose i => do
      let c ← s.clients[i]?
      some { s with clients := s.clients.set i { c with finished := true } }
  | .serve i cut => do
      let c ← s.clients[i]?
      let (host, c) ← serveClient json s.host c cut
      some ⟨host, s.clients.set i c⟩
  | .other o => do
      let host ← s.host.step o
      some { s with host }

end Step

/-- What acts on the control state: a line of a client, or another task. -/
inductive Entry
  | line (client : Nat) (line : Bytes)
  | op (o : Op)

section Replay

variable (json : ControlJson)

def replayNext (s : Host × List (Nat × Bytes)) : Entry → Host × List (Nat × Bytes)
  | .line i line =>
      match answer json s.1 line with
      | some (host, bytes) => (host, s.2 ++ [(i, bytes)])
      | none => s
  | .op o => ((s.1.step o).getD s.1, s.2)

/-- The lines served one after the other: the control state in the end, and the answers. -/
def replay (host : Host) (log : List Entry) : Host × List (Nat × Bytes) :=
  log.foldl (replayNext json) (host, [])

end Replay

def linesOf (i : Nat) (log : List Entry) : List Bytes :=
  log.filterMap fun
    | .line j line => if j = i then some line else none
    | .op _ => none

def answersTo (i : Nat) (answers : List (Nat × Bytes)) : Bytes :=
  (answers.filter fun a => a.1 = i).flatMap Prod.snd

def sentBy (i : Nat) (events : List Event) : Bytes :=
  events.flatMap fun
    | .send j bytes => if j = i then bytes else []
    | _ => []

def opsOf (log : List Entry) : List Op :=
  log.filterMap fun
    | .line _ _ => none
    | .op o => some o

def opsIn (events : List Event) : List Op :=
  events.filterMap fun
    | .other o => some o
    | _ => none

/-- The clients were served as if their lines had been served one after the other, in some order in
which the lines of each are in its own order: the lines taken off, with those left, are all it sent,
and it was written the answers to its lines, all of them unless its connection has ended. -/
structure Served (json : ControlJson) (start : Host) (events : List Event) (s : Server)
    (log : List Entry) : Prop where
  host : s.host = (replay json start log).1
  others : opsOf log = opsIn events
  taken : ∀ i c, s.clients[i]? = some c →
    linesOf i log ++ lines newline c.closed c.inbox = lines newline c.closed (sentBy i events)
  answered : ∀ i c, s.clients[i]? = some c → c.outbox <+: answersTo i (replay json start log).2 ∧
    (c.finished = false → c.outbox = answersTo i (replay json start log).2)
  nobody : ∀ i, s.clients.length ≤ i → linesOf i log = []

section Logs

variable {i j : Nat} {log log' : List Entry} {l : Bytes} {o : Op} {e : Entry}

private theorem linesOf_append (log log' : List Entry) :
    linesOf i (log ++ log') = linesOf i log ++ linesOf i log' :=
  List.filterMap_append

@[simp] theorem linesOf_line : linesOf i [.line j l] = if j = i then [l] else [] := by
  unfold linesOf
  split_ifs with h <;> simp [h]

@[simp] theorem linesOf_op : linesOf i [.op o] = [] := rfl

private theorem opsOf_append (log log' : List Entry) :
    opsOf (log ++ log') = opsOf log ++ opsOf log' :=
  List.filterMap_append

private theorem opsIn_append (es es' : List Event) : opsIn (es ++ es') = opsIn es ++ opsIn es' :=
  List.filterMap_append

private theorem sentBy_append (es es' : List Event) :
    sentBy i (es ++ es') = sentBy i es ++ sentBy i es' :=
  List.flatMap_append

private theorem sentBy_quiet {es : List Event} {e : Event} (h : sentBy i [e] = []) :
    sentBy i (es ++ [e]) = sentBy i es := by
  rw [sentBy_append, h, List.append_nil]

private theorem answersTo_append (as bs : List (Nat × Bytes)) :
    answersTo i (as ++ bs) = answersTo i as ++ answersTo i bs := by
  rw [answersTo, List.filter_append, List.flatMap_append]
  rfl

@[simp] theorem answersTo_one : answersTo i [(j, l)] = if j = i then l else [] := by
  by_cases h : j = i <;> simp [answersTo, h]

variable (json : ControlJson) (start : Host)

private theorem replay_append (log log' : List Entry) :
    replay json start (log ++ log') = log'.foldl (replayNext json) (replay json start log) :=
  List.foldl_append

private theorem replay_snoc (log : List Entry) (e : Entry) :
    replay json start (log ++ [e]) = replayNext json (replay json start log) e :=
  replay_append json start log [e]

private theorem answersTo_foldl (s : Host × List (Nat × Bytes)) (h : linesOf i log = []) :
    answersTo i (log.foldl (replayNext json) s).2 = answersTo i s.2 := by
  induction log generalizing s with
  | nil => rfl
  | cons e log ih =>
      obtain ⟨he, hlog⟩ := List.append_eq_nil_iff.mp ((linesOf_append [e] log).symm.trans h)
      rw [List.foldl_cons, ih _ hlog]
      cases e with
      | op o => rfl
      | line j l =>
          have hj : j ≠ i := by
            intro hj
            rw [linesOf_line, if_pos hj] at he
            cases he
          rw [replayNext]
          cases answer json s.1 l with
          | none => rfl
          | some a => rw [answersTo_append, answersTo_one, if_neg hj, List.append_nil]

end Logs

section Linear

variable {json : ControlJson} {start : Host} {events : List Event} {s s' : Server}
variable {log : List Entry} {i : Nat} {c c' : Client} {e : Event}

/-- `Served`, with each client's stream as its task has left it. -/
structure Linear (json : ControlJson) (start : Host) (events : List Event) (s : Server)
    (log : List Entry) : Prop where
  host : s.host = (replay json start log).1
  others : opsOf log = opsIn events
  taken : ∀ i c, s.clients[i]? = some c →
    Taken newline c.closed (sentBy i events) (linesOf i log) c.inbox
  answered : ∀ i c, s.clients[i]? = some c → c.outbox <+: answersTo i (replay json start log).2 ∧
    (c.finished = false → c.outbox = answersTo i (replay json start log).2)
  nobody : ∀ i, s.clients.length ≤ i → linesOf i log = [] ∧ sentBy i events = []

theorem Linear.served (h : Linear json start events s log) : Served json start events s log where
  host := h.host
  others := h.others
  taken i c hc := (h.taken i c hc).lines_eq
  answered := h.answered
  nobody i hi := (h.nobody i hi).1

theorem Linear.update (h : Linear json start events s log) (hc : s.clients[i]? = some c)
    {more : List Entry} {host : Host} (hhost : host = (replay json start (log ++ more)).1)
    (hops : opsOf more = opsIn [e]) (hlines : ∀ j, j ≠ i → linesOf j more = [])
    (hsent : ∀ j, j ≠ i → sentBy j [e] = [])
    (htaken : Taken newline c'.closed (sentBy i (events ++ [e])) (linesOf i (log ++ more)) c'.inbox)
    (hanswered : c'.outbox <+: answersTo i (replay json start (log ++ more)).2 ∧
      (c'.finished = false → c'.outbox = answersTo i (replay json start (log ++ more)).2)) :
    Linear json start (events ++ [e]) ⟨host, s.clients.set i c'⟩ (log ++ more) := by
  obtain ⟨hi, -⟩ := List.getElem?_eq_some_iff.mp hc
  have hsame : ∀ j, j ≠ i → linesOf j (log ++ more) = linesOf j log ∧
      sentBy j (events ++ [e]) = sentBy j events := by
    intro j hj
    rw [linesOf_append, hlines j hj, List.append_nil]
    exact ⟨rfl, sentBy_quiet (hsent j hj)⟩
  refine ⟨hhost, ?_, ?_, ?_, ?_⟩
  · rw [opsOf_append, opsIn_append, h.others, hops]
  · intro j d hd
    rcases get_replaced hd with ⟨rfl, rfl⟩ | ⟨hj, hold⟩
    · exact htaken
    · rw [(hsame j hj).1, (hsame j hj).2]
      exact h.taken j d hold
  · intro j d hd
    rcases get_replaced hd with ⟨rfl, rfl⟩ | ⟨hj, hold⟩
    · exact hanswered
    · rw [replay_append, answersTo_foldl json _ (hlines j hj)]
      exact h.answered j d hold
  · intro j hj
    rw [List.length_set] at hj
    have hne : j ≠ i := by omega
    rw [(hsame j hne).1, (hsame j hne).2]
    exact h.nobody j hj

theorem Linear.quiet (h : Linear json start events s log) (hc : s.clients[i]? = some c)
    (hops : opsIn [e] = []) (hsent : ∀ j, j ≠ i → sentBy j [e] = [])
    (htaken : Taken newline c'.closed (sentBy i (events ++ [e])) (linesOf i log) c'.inbox)
    (houtbox : c'.outbox = c.outbox) (hfinished : c'.finished = false → c.finished = false) :
    ∃ more, Linear json start (events ++ [e]) ⟨s.host, s.clients.set i c'⟩ (log ++ more) := by
  refine ⟨[], ?_⟩
  have hanswered := h.answered i c hc
  refine h.update hc ?_ hops.symm (fun _ _ => rfl) hsent ?_ ?_
  · rw [List.append_nil]
    exact h.host
  · rw [List.append_nil]
    exact htaken
  · rw [List.append_nil, houtbox]
    exact ⟨hanswered.1, fun hf => hanswered.2 (hfinished hf)⟩

theorem Linear.serve (h : Linear json start events s log) (hc : s.clients[i]? = some c)
    {cut : Option Nat} {host : Host} (hserve : serveClient json s.host c cut = some (host, c')) :
    ∃ more, Linear json start (events ++ [.serve i cut]) ⟨host, s.clients.set i c'⟩
    (log ++ more) := by
  have hsent : ∀ j, sentBy j [.serve i cut] = [] := fun _ => rfl
  have htaken := h.taken i c hc
  rw [← sentBy_quiet (hsent i)] at htaken
  obtain ⟨hwritten, hall⟩ := h.answered i c hc
  have hfinished : ¬c.finished := by
    intro hf
    rw [serveClient, if_pos hf] at hserve
    cases hserve
  have hlive := hall (Bool.eq_false_iff.mpr hfinished)
  rw [serveClient, if_neg hfinished] at hserve
  split at hserve
  · split_ifs at hserve with hclosed
    obtain ⟨rfl, rfl⟩ := Prod.mk.inj (Option.some.inj hserve)
    exact h.quiet hc rfl (fun j _ => hsent j) htaken rfl fun hf => by cases hf
  · rename_i line inbox hnext
    have hline := htaken.take hnext
    rw [show [line] = linesOf i [.line i line] by rw [linesOf_line, if_pos rfl], ← linesOf_append]
      at hline
    have hothers : ∀ j, j ≠ i → linesOf j [.line i line] = [] := by
      intro j hj
      rw [linesOf_line, if_neg (Ne.symm hj)]
    have hreplay := replay_snoc json start log (.line i line)
    rw [replayNext, ← h.host] at hreplay
    split at hserve
    · rename_i hanswer
      obtain ⟨rfl, rfl⟩ := Prod.mk.inj (Option.some.inj hserve)
      rw [hanswer] at hreplay
      refine ⟨[.line i line], h.update hc ?_ rfl hothers (fun j _ => hsent j) hline ?_⟩
      · rw [hreplay]
        exact h.host
      · rw [hreplay]
        exact ⟨hwritten, fun hf => by cases hf⟩
    · rename_i host' bytes hanswer
      rw [hanswer] at hreplay
      have hanswers : answersTo i (replay json start (log ++ [.line i line])).2 =
          c.outbox ++ bytes := by
        rw [hreplay, answersTo_append, answersTo_one, if_pos rfl, ← hlive]
      cases cut with
      | none =>
          obtain ⟨rfl, rfl⟩ := Prod.mk.inj (Option.some.inj hserve)
          refine ⟨[.line i line], h.update hc ?_ rfl hothers (fun j _ => hsent j) hline ?_⟩
          · rw [hreplay]
          · rw [hanswers]
            exact ⟨List.prefix_refl _, fun _ => rfl⟩
      | some n =>
          dsimp only at hserve
          split_ifs at hserve with hn
          obtain ⟨rfl, rfl⟩ := Prod.mk.inj (Option.some.inj hserve)
          refine ⟨[.line i line], h.update hc ?_ rfl hothers (fun j _ => hsent j) hline ?_⟩
          · rw [hreplay]
          · rw [hanswers]
            exact ⟨(List.prefix_append_right_inj _).mpr (List.take_prefix n bytes),
              fun hf => by cases hf⟩

private theorem Linear.connected (h : Linear json start events s log) :
    Linear json start (events ++ [.connect])
    { s with clients := s.clients ++ [.accepted] } log := by
  have hnew := h.nobody s.clients.length (le_refl _)
  have hsent : ∀ j, sentBy j (events ++ [.connect]) = sentBy j events :=
    fun _ => sentBy_quiet rfl
  refine ⟨h.host, ?_, ?_, ?_, ?_⟩
  · rw [opsIn_append, h.others]
    exact (List.append_nil _).symm
  · intro j d hd
    rw [hsent]
    rcases get_snoc hd with hold | ⟨rfl, rfl⟩
    · exact h.taken j d hold
    · rw [hnew.1, hnew.2]
      exact Taken.none newline []
  · intro j d hd
    rcases get_snoc hd with hold | ⟨rfl, rfl⟩
    · exact h.answered j d hold
    · have hnone : answersTo s.clients.length (replay json start log).2 = [] :=
        answersTo_foldl json _ hnew.1
      rw [hnone]
      exact ⟨List.prefix_refl _, fun _ => rfl⟩
  · intro j hj
    rw [List.length_append, List.length_singleton] at hj
    rw [hsent]
    exact h.nobody j (by omega)

private theorem Linear.other (h : Linear json start events s log) {o : Op} {host : Host}
    (hhost : s.host.step o = some host) :
    Linear json start (events ++ [.other o]) { s with host } (log ++ [.op o]) := by
  have hreplay := replay_snoc json start log (.op o)
  rw [replayNext, ← h.host, hhost] at hreplay
  have hsent : ∀ j, sentBy j (events ++ [.other o]) = sentBy j events :=
    fun _ => sentBy_quiet rfl
  have hlines : ∀ j, linesOf j (log ++ [.op o]) = linesOf j log := by
    intro j
    rw [linesOf_append, linesOf_op, List.append_nil]
  refine ⟨?_, ?_, ?_, ?_, ?_⟩
  · rw [hreplay]
    rfl
  · rw [opsOf_append, opsIn_append, h.others]
    rfl
  · intro j d hd
    rw [hsent, hlines]
    exact h.taken j d hd
  · intro j d hd
    rw [hreplay]
    exact h.answered j d hd
  · intro j hj
    rw [hsent, hlines]
    exact h.nobody j hj

theorem Linear.next (h : Linear json start events s log) (hstep : step json s e = some s') :
    ∃ more, Linear json start (events ++ [e]) s' (log ++ more) := by
  cases e with
  | connect =>
      obtain rfl := Option.some.inj hstep
      refine ⟨[], ?_⟩
      rw [List.append_nil]
      exact h.connected
  | send i bytes =>
      obtain ⟨c, hc, hstep⟩ := Option.bind_eq_some_iff.mp hstep
      split_ifs at hstep with hclosed
      obtain rfl := Option.some.inj hstep
      have hopen : c.closed = false := Bool.eq_false_iff.mpr hclosed
      refine h.quiet hc rfl ?_ ?_ rfl id
      · intro j hj
        simp [sentBy, Ne.symm hj]
      · have htaken := h.taken i c hc
        rw [hopen] at htaken
        have hmore : sentBy i [.send i bytes] = bytes := by simp [sentBy]
        rw [sentBy_append, hmore, show c.closed = false from hopen]
        exact htaken.receive bytes
  | shutdown i =>
      obtain ⟨c, hc, hstep⟩ := Option.bind_eq_some_iff.mp hstep
      split_ifs at hstep with hclosed
      obtain rfl := Option.some.inj hstep
      have hopen : c.closed = false := Bool.eq_false_iff.mpr hclosed
      refine h.quiet hc rfl (fun _ _ => rfl) ?_ rfl id
      have htaken := h.taken i c hc
      rw [hopen] at htaken
      rw [sentBy_quiet rfl]
      exact htaken.finish
  | lose i =>
      obtain ⟨c, hc, hstep⟩ := Option.bind_eq_some_iff.mp hstep
      obtain rfl := Option.some.inj hstep
      refine h.quiet hc rfl (fun _ _ => rfl) ?_ rfl fun hf => by cases hf
      rw [sentBy_quiet rfl]
      exact h.taken i c hc
  | serve i cut =>
      obtain ⟨c, hc, hstep⟩ := Option.bind_eq_some_iff.mp hstep
      obtain ⟨⟨host, c'⟩, hserve, hstep⟩ := Option.bind_eq_some_iff.mp hstep
      obtain rfl := Option.some.inj hstep
      exact h.serve hc hserve
  | other o =>
      obtain ⟨host, hhost, hstep⟩ := Option.bind_eq_some_iff.mp hstep
      obtain rfl := Option.some.inj hstep
      exact ⟨[.op o], h.other hhost⟩

theorem Linear.run {later : List Event} (h : Linear json start events s log)
    (hrun : Run (step json) (fun _ _ => True) s later s') :
    ∃ more, Linear json start (events ++ later) s' (log ++ more) := by
  induction hrun with
  | nil =>
      refine ⟨[], ?_⟩
      rw [List.append_nil, List.append_nil]
      exact h
  | snoc _ _ hstep ih =>
      obtain ⟨more, hmore⟩ := ih
      obtain ⟨last, hlast⟩ := hmore.next hstep
      refine ⟨more ++ last, ?_⟩
      rw [← List.append_assoc, ← List.append_assoc]
      exact hlast

end Linear

section Call

variable {json : ControlJson} {start : Host} {events : List Event} {s : Server}
variable {i : Nat} {c : Client} {cs : List Char} {req : Request}

end Call

section Answers

open Json

def SliceStatus.text : SliceStatus → String
  | .announcing => "announcing"
  | .draining => "draining"
  | .stopped => "stopped"

def HostedSlice.text (h : HostedSlice) : List Char :=
  lineObject [("cid", quoted h.cid), ("display_name", quoted h.displayName),
    ("start", natural h.start.toNat), ("end", natural h.stop.toNat),
    ("state", quoted (SliceStatus.text h.state)), ("active_chains", natural h.activeChains.toNat)]

end Answers

end IntelNav.App.ControlSocket
