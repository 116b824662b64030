import IntelNav.Transition.Run
import IntelNav.Tui.App

/-! The text of the turn in progress: what the transcript shows of the deltas received. -/

set_option autoImplicit false
set_option relaxedAutoImplicit false

namespace IntelNav.Tui

open IntelNav.App IntelNav.Transition

inductive Phase
  | running
  | done
  | failed (e : String)
  deriving DecidableEq

/-- The turn a stream was started for: where in the transcript it was opened, the tokens received
for it, and how its stream ended. -/
structure Streamed where
  index : Nat
  text : String
  phase : Phase
  deriving DecidableEq

namespace Streamed

def receive (t : Streamed) : List Delta → Streamed
  | [] => t
  | .token x :: rest => { t with text := t.text ++ x : Streamed }.receive rest
  | .done :: _ => { t with phase := .done }
  | .error e :: _ => { t with phase := .failed e }

/-- The turn has exactly the text received, and is complete once the stream is done; a failure may
be noted below the text. -/
def Shows (t : Streamed) (turn : Turn) : Prop :=
  match t.phase with
  | .running => turn.content = t.text
  | .done => turn.content = t.text ∧ turn.complete = true
  | .failed e => turn.content = t.text ∨ turn.content = t.text ++ ("\n⚠ " ++ e)

instance (t : Streamed) (turn : Turn) : Decidable (t.Shows turn) := by
  unfold Shows
  split <;> infer_instance

end Streamed

/-- The deltas add nothing to the turn: no text, and no end other than a failure. -/
def Silent : List Delta → Prop
  | [] => True
  | .token x :: rest => x = "" ∧ Silent rest
  | .done :: _ => False
  | .error _ :: _ => True

def Turn.receive (turn : Turn) : List Delta → Turn
  | [] => turn
  | .token x :: rest => { turn with content := turn.content ++ x : Turn }.receive rest
  | .done :: _ => { turn with complete := true }
  | .error e :: _ => { turn with content := turn.content ++ ("\n⚠ " ++ e), complete := true }

namespace AppState

variable {app : AppState} {rx : Receiver} {ds : List Delta}

@[simp] theorem onLast_streaming (f : Turn → Turn) : (app.onLast f).streaming = app.streaming := rfl

@[simp] theorem onLast_nextStream (f : Turn → Turn) :
    (app.onLast f).nextStream = app.nextStream := rfl

private theorem onLast_history (f : Turn → Turn) {pre : List Turn} {turn : Turn}
    (h : app.history = pre ++ [turn]) : (app.onLast f).history = pre ++ [f turn] := by
  have hlen : app.history.length - 1 = pre.length := by simp [h]
  show app.history.modify (app.history.length - 1) f = pre ++ [f turn]
  rw [hlen, h]
  apply List.ext_getElem?
  intro i
  rw [List.getElem?_modify]
  rcases Nat.lt_trichotomy i pre.length with hi | hi | hi
  · have hne : pre.length ≠ i := by omega
    rw [List.getElem?_append_left hi, List.getElem?_append_left hi]
    simp [hne]
  · subst hi
    simp
  · have hout : (pre ++ [turn]).length ≤ i := by simp; omega
    have hout' : (pre ++ [f turn]).length ≤ i := by simp; omega
    rw [List.getElem?_eq_none hout, List.getElem?_eq_none hout']
    rfl

private theorem onLast_getElem? (f : Turn → Turn) {i : Nat} (h : i + 1 ≠ app.history.length)
    (hi : i < app.history.length) : (app.onLast f).history[i]? = app.history[i]? := by
  have hne : app.history.length - 1 ≠ i := by omega
  show (app.history.modify (app.history.length - 1) f)[i]? = app.history[i]?
  rw [List.getElem?_modify]
  simp [hne]

private theorem onLast_length (f : Turn → Turn) :
    (app.onLast f).history.length = app.history.length := by
  show (app.history.modify (app.history.length - 1) f).length = app.history.length
  rw [List.length_modify]

private theorem receive_streaming {t : Streamed} (ht : t.phase = .running) :
    (app.receive rx ds).streaming.isSome ↔ (t.receive ds).phase = .running := by
  induction ds generalizing app t with
  | nil => simp [receive, Streamed.receive, ht]
  | cons d rest ih =>
      cases d with
      | token x =>
          exact ih (t := { t with text := t.text ++ x }) ht
      | done => simp [receive, Streamed.receive]
      | error e => simp [receive, Streamed.receive]

private theorem receive_below {i : Nat} (h : i + 1 ≠ app.history.length)
    (hi : i < app.history.length) :
    (app.receive rx ds).history[i]? = app.history[i]? := by
  induction ds generalizing app with
  | nil => rfl
  | cons d rest ih =>
      cases d with
      | token x =>
          have hlen := app.onLast_length fun last =>
            if last.role = .assistant ∧ last.complete = false then
              { last with content := last.content ++ x }
            else last
          rw [receive, ih (by omega) (by omega)]
          exact onLast_getElem? _ h hi
      | done => exact onLast_getElem? _ h hi
      | error e =>
          have hne : app.history ≠ [] := by
            intro hnil
            simp [hnil] at hi
          simp only [receive, if_neg hne]
          exact onLast_getElem? _ h hi

private theorem receive_last {pre : List Turn} {turn : Turn} (h : app.history = pre ++ [turn])
    (hrole : turn.role = .assistant) (hopen : turn.complete = false) :
    (app.receive rx ds).history = pre ++ [turn.receive ds] := by
  induction ds generalizing app turn with
  | nil => exact h
  | cons d rest ih =>
      cases d with
      | token x =>
          have hlast := onLast_history (fun last =>
            if last.role = .assistant ∧ last.complete = false then
              { last with content := last.content ++ x }
            else last) h
          rw [if_pos ⟨hrole, hopen⟩] at hlast
          exact ih hlast hrole hopen
      | done =>
          show (app.onLast _).history = _
          rw [onLast_history _ h]
          simp [hrole, Turn.receive]
      | error e =>
          have hne : app.history ≠ [] := by simp [h]
          simp only [receive, if_neg hne]
          show (app.onLast _).history = _
          rw [onLast_history _ h]
          simp [hrole, hopen, Turn.receive]

end AppState

private theorem Turn.receive_role (turn : Turn) (ds : List Delta) :
    (turn.receive ds).role = turn.role := by
  induction ds generalizing turn with
  | nil => rfl
  | cons d rest ih =>
      cases d with
      | token x => exact ih _
      | done => rfl
      | error e => rfl

namespace Streamed

variable {t : Streamed} {turn : Turn} {ds : List Delta}

@[simp] theorem receive_index : (t.receive ds).index = t.index := by
  induction ds generalizing t with
  | nil => rfl
  | cons d rest ih =>
      cases d with
      | token x => exact ih
      | done => rfl
      | error e => rfl

private theorem shows_receive (hrun : t.phase = .running) (htext : turn.content = t.text) :
    (t.receive ds).Shows (turn.receive ds) := by
  induction ds generalizing t turn with
  | nil => simpa [Streamed.receive, Turn.receive, Shows, hrun] using htext
  | cons d rest ih =>
      cases d with
      | token x =>
          have htoken := congrArg (· ++ x) htext
          exact ih (t := { t with text := t.text ++ x }) hrun htoken
      | done => simp [Streamed.receive, Turn.receive, Shows, htext]
      | error e => simp [Streamed.receive, Turn.receive, Shows, htext]

private theorem receive_open (hopen : turn.complete = false)
    (hrun : (t.receive ds).phase = .running) :
    (turn.receive ds).complete = false := by
  induction ds generalizing t turn with
  | nil => exact hopen
  | cons d rest ih =>
      cases d with
      | token x => exact ih (t := { t with text := t.text ++ x }) hopen hrun
      | done => simp [Streamed.receive] at hrun
      | error e => simp [Streamed.receive] at hrun

/-- A turn that is left alone shows the deltas just when they add nothing to it. -/
private theorem shows_receive_iff (hrun : t.phase = .running) (hopen : turn.complete = false)
    (hlen : turn.content.length ≤ t.text.length) :
    (t.receive ds).Shows turn ↔ turn.content = t.text ∧ Silent ds := by
  induction ds generalizing t with
  | nil => simp [Streamed.receive, Shows, hrun, Silent]
  | cons d rest ih =>
      cases d with
      | token x =>
          have hx := String.length_append t.text x
          have hrest := ih (t := { t with text := t.text ++ x }) hrun (by simp only [hx]; omega)
          rw [Streamed.receive, hrest, Silent]
          constructor
          · rintro ⟨htext, hrest⟩
            have hlen' := congrArg String.length htext
            simp only [hx] at hlen'
            have hnil : x = "" := String.length_eq_zero_iff.mp (by omega)
            exact ⟨by simpa [hnil] using htext, hnil, hrest⟩
          · rintro ⟨htext, hnil, hrest⟩
            exact ⟨by simp [hnil, htext], hrest⟩
      | done => simp [Streamed.receive, Shows, Silent, hopen]
      | error e =>
          have hne : turn.content ≠ t.text ++ ("\n⚠ " ++ e) := by
            intro heq
            have hlen' := congrArg String.length heq
            simp only [String.length_append] at hlen'
            have hpos : "\n⚠ ".length = 3 := by decide +kernel
            omega
          simp [Streamed.receive, Shows, Silent, hne]

end Streamed

/-- The part of the state that streamed text depends on. -/
structure Talk where
  history : List Turn
  streaming : Option Receiver
  nextStream : Nat

def AppState.talk (app : AppState) : Talk := ⟨app.history, app.streaming, app.nextStream⟩

def Talk.Pushes (s s' : Talk) : Prop :=
  ∃ ts, s' = { s with history := s.history ++ ts }

/-- What a key, a paste or a command can do: push turns, clear the transcript, cancel the stream, or
open a turn with a stream of its own. -/
inductive Talk.Effect (s s' : Talk) : Prop
  | pushes (h : s.Pushes s')
  | clears (h : s' = { s with history := [] })
  | cancels (hrun : s.streaming.isSome) (h : s'.streaming = none)
      (hlen : s'.history.length = s.history.length) (hnext : s'.nextStream = s.nextStream)
  | opens (text : String)
      (h : s' = ⟨s.history ++ [.user text, .assistantOpen], some ⟨s.nextStream, []⟩,
        s.nextStream + 1⟩)

namespace Talk

variable {s s' s'' : Talk}

theorem Pushes.refl (s : Talk) : s.Pushes s := ⟨[], by simp⟩

theorem Pushes.trans (h : s.Pushes s') (h' : s'.Pushes s'') : s.Pushes s'' := by
  obtain ⟨ts, rfl⟩ := h
  obtain ⟨ts', rfl⟩ := h'
  exact ⟨ts ++ ts', by simp⟩

theorem Effect.refl (s : Talk) : s.Effect s := .pushes (.refl s)

end Talk

namespace AppState

variable (o : Outside) (app : AppState)

private theorem say_pushes (text : String) : app.talk.Pushes (app.say text).talk :=
    ⟨[.system text], rfl⟩

private theorem say_effect (text : String) : app.talk.Effect (app.say text).talk :=
  .pushes (app.say_pushes text)

private theorem handleSlash_effect (cmd : String) :
    app.talk.Effect (app.handleSlash o cmd).talk := by
  simp only [handleSlash]
  split
  case h_9 => exact .clears rfl
  case h_12 | h_13 | h_17 | h_18 => exact .refl app.talk
  case h_10 =>
    split
    · exact app.say_effect _
    · split
      · exact say_effect _ _
      · exact app.say_effect _
  case h_11 =>
    split
    · exact app.say_effect _
    · exact say_effect _ _
  case h_14 | h_15 =>
    split
    · exact .refl app.talk
    · exact app.say_effect _
  all_goals exact say_effect _ _

private theorem emitFatal_effect {text : String} {s : Talk} (msg : String)
    (h : app.talk = { s with history := s.history ++ [.user text, .assistantOpen] }) :
    s.Effect (app.emitFatal msg).talk := by
  have hhist : app.history = (s.history ++ [.user text]) ++ [.assistantOpen] := by
    simpa [talk] using congrArg Talk.history h
  have hlast : app.history.getLast? = some .assistantOpen := by simp [hhist]
  apply Talk.Effect.pushes
  refine ⟨[.user text, { Turn.assistantOpen with content := "" ++ msg, complete := true }], ?_⟩
  have hopen : Turn.assistantOpen.role = .assistant ∧ Turn.assistantOpen.complete = false :=
    ⟨rfl, rfl⟩
  simp only [emitFatal, hlast, if_pos hopen]
  have hstream := congrArg Talk.streaming h
  have hnext := congrArg Talk.nextStream h
  show Talk.mk (app.onLast _).history app.streaming app.nextStream = _
  rw [onLast_history _ hhist, List.append_assoc]
  simp only [talk] at hstream hnext
  rw [hstream, hnext]
  rfl

private theorem submitPrompt_effect (text : String) :
    app.talk.Effect (app.submitPrompt o text).talk := by
  have hopened : ({ app with history := app.history ++ [Turn.user text, Turn.assistantOpen] } :
      AppState).talk =
      { app.talk with history := app.talk.history ++ [.user text, .assistantOpen] } := rfl
  simp only [submitPrompt]
  split
  · split
    · exact emitFatal_effect _ _ hopened
    · split
      · exact .opens text rfl
      · exact emitFatal_effect _ _ hopened
  · split
    · exact emitFatal_effect _ _ hopened
    · split
      · exact emitFatal_effect _ _ hopened
      · split
        · exact .opens text rfl
        · exact emitFatal_effect _ _ hopened

private theorem submit_effect : app.talk.Effect (app.submit o).talk := by
  have htaken : app.talk = ({ app with box := app.box.take.2 } : AppState).talk := rfl
  rw [htaken]
  simp only [submit]
  split
  · exact .refl _
  · split
    · exact .refl _
    · split
      · exact handleSlash_effect o _ _
      · exact submitPrompt_effect o _ _

private theorem cancel_effect (hrun : app.streaming.isSome) : app.talk.Effect app.cancel.talk :=
  .cancels hrun rfl (app.onLast_length _) rfl

private theorem commitBrowser_pushes (state : BrowserState) :
    app.talk.Pushes (app.commitBrowser o state).talk := by
  simp only [commitBrowser]
  split
  · exact .refl app.talk
  · split
    · split
      · exact say_pushes _ _
      · split
        · exact app.say_pushes _
        · exact say_pushes _ _
        · exact app.say_pushes _
      · simp only [startInstall]
        split
        · exact app.say_pushes _
        · exact say_pushes _ _
    · exact .refl app.talk

private theorem contributeBrowser_pushes (state : BrowserState) :
    app.talk.Pushes (app.contributeBrowser o state).talk := by
  simp only [contributeBrowser]
  split
  · exact .refl app.talk
  · split
    · split
      · exact say_pushes _ _
      · exact say_pushes _ _
      · exact app.say_pushes _
    · exact .refl app.talk

private theorem browserKey_pushes (state : BrowserState) (k : KeyEvent) :
    app.talk.Pushes (app.browserKey o state k).talk := by
  simp only [browserKey]
  split
  case h_5 => exact app.commitBrowser_pushes o state
  case h_6 => exact app.contributeBrowser_pushes o state
  all_goals exact .refl app.talk

private theorem chatKey_effect (k : KeyEvent) : app.talk.Effect (app.chatKey o k).talk := by
  simp only [chatKey]
  split
  case h_1 =>
    split
    · exact .refl app.talk
    · split
      · exact .refl app.talk
      · exact app.submit_effect o
  case h_11 =>
    split
    case isTrue hrun => exact app.cancel_effect hrun
    case isFalse =>
      split
      · exact .refl app.talk
      · split <;> exact .refl app.talk
  case h_6 | h_7 | h_8 | h_9 => split <;> exact .refl app.talk
  all_goals exact .refl app.talk

private theorem modelKey_effect (k : KeyEvent) : app.talk.Effect
    (match k.code, k.modifiers.alt with
      | .char 'p', true | .char 'P', true =>
          match o.nextModel with
          | none => app
          | some m => { app with model := m : AppState }.say s!"model → {m}"
      | _, _ => app.chatKey o k).talk := by
  split
  · split
    · exact .refl app.talk
    · exact say_effect _ _
  · split
    · exact .refl app.talk
    · exact say_effect _ _
  · exact app.chatKey_effect o k

private theorem suggestKey_effect (k : KeyEvent) : app.talk.Effect (app.suggestKey o k).talk := by
  have hpass := app.modelKey_effect o k
  simp only [suggestKey]
  split
  · exact hpass
  · split
    case h_4 =>
      split
      · exact app.submit_effect o
      · exact .refl app.talk
    case h_6 => exact hpass
    all_goals exact .refl app.talk

private theorem plainKey_effect (k : KeyEvent) : app.talk.Effect (app.plainKey o k).talk := by
  simp only [plainKey]
  split
  · split <;> exact .refl app.talk
  · exact .pushes (browserKey_pushes o { app with exitPending := false } _ k)
  · exact suggestKey_effect o { app with exitPending := false } k

private theorem edit_pushes : app.talk.Pushes (app.edit o).talk := by
  simp only [edit]
  split
  · exact .refl app.talk
  · exact app.say_pushes _
  · exact app.say_pushes _

private theorem handleKey_effect (k : KeyEvent) : app.talk.Effect (app.handleKey o k).1.talk := by
  simp only [handleKey]
  split
  · split
    · exact .refl app.talk
    · exact app.say_effect _
  · exact .pushes (edit_pushes o { app with box := app.box.pushUndo })
  · split
    · exact .refl app.talk
    · split
      case isTrue hrun => exact app.cancel_effect hrun
      case isFalse =>
        split
        · exact .refl app.talk
        · split <;> exact .refl app.talk
  · exact .refl app.talk
  · exact .clears rfl
  · exact app.plainKey_effect o k

private theorem termEvent_effect (input : Option TermEvent) :
    app.talk.Effect (app.termEvent o input).1.talk := by
  cases input with
  | none => exact .refl app.talk
  | some ev =>
      cases ev with
      | key k => exact app.handleKey_effect o k
      | paste s =>
          simp only [termEvent]
          split <;> exact .refl app.talk

private theorem drainDownloads_pushes (queue : List DlEvent) :
    app.talk.Pushes (app.drainDownloads queue).talk := by
  induction queue with
  | nil => exact .refl app.talk
  | cons ev rest ih =>
      cases ev with
      | progress label done total => exact ih
      | done label stem => exact say_pushes _ _
      | error label message => exact say_pushes _ _

private theorem drainSplits_pushes (queue : List SplitEvent) :
    app.talk.Pushes (app.drainSplits o queue).talk := by
  induction queue generalizing app with
  | nil => exact .refl app.talk
  | cons ev rest ih =>
      have hsaid : app.talk.Pushes
          { app.talk with history := app.history ++ (o.describeSplit ev).map Turn.system } :=
        ⟨_, rfl⟩
      cases ev with
      | started gguf output => exact hsaid.trans (ih _)
      | done manifestCid nBundles bytes keptRanges shardRoot => exact hsaid
      | error e => exact hsaid

private theorem drainPulls_pushes (queue : List SwarmPullEvent) :
    app.talk.Pushes (app.drainPulls o queue).talk := by
  induction queue generalizing app with
  | nil => exact .refl app.talk
  | cons ev rest ih =>
      have hsaid := app.say_pushes (o.describePull ev)
      cases ev with
      | started manifestUrl range => exact hsaid.trans (ih _)
      | manifestOk manifestCid nLayers => exact hsaid.trans (ih _)
      | chunksDone bytes nChunks => exact hsaid.trans (ih _)
      | done keptRanges shardRoot => exact hsaid
      | error e => exact hsaid

private theorem drains_pushes (refreshed : Bool) :
    app.drainStream.talk.Pushes (app.drains o refreshed).talk := by
  have hdownload : app.drainStream.talk.Pushes app.drainStream.drainDownload.talk := by
    rw [drainDownload]
    split
    · exact .refl _
    · exact drainDownloads_pushes _ _
  have hsplit (s : AppState) : s.talk.Pushes (s.drainSplit o).talk := by
    rw [drainSplit]
    split
    · exact .refl _
    · exact drainSplits_pushes o _ _
  have hpull (s : AppState) : s.talk.Pushes (s.drainPull o).talk := by
    rw [drainPull]
    split
    · exact .refl _
    · exact drainPulls_pushes o _ _
  have hswarm (s : AppState) : (s.drainSwarm o refreshed).talk = s.talk := by
    simp only [drainSwarm]
    split <;> rfl
  refine (hdownload.trans ((hsplit _).trans (hpull _))).trans ?_
  rw [← hswarm]
  exact .refl _

end AppState

/-- The application, with the turn whose stream was started last, until that turn is cancelled or
the transcript is cleared. -/
structure Chat where
  main : Main
  watched : Option Streamed

/-- A stream that was just started is watched from the turn opened for it; nothing is watched in a
cleared transcript, nor after a stream that was cancelled. -/
def follow (watched : Option Streamed) (s s' : Talk) : Option Streamed :=
  if s'.nextStream ≠ s.nextStream then some ⟨s'.history.length - 1, "", .running⟩
  else if s'.history = [] then none
  else watched.filter fun t => t.phase ≠ .running || s'.streaming.isSome

namespace Chat

def step (c : Chat) (e : Event) : Option Chat :=
  (c.main.step e).map fun m =>
    match e with
    | .drain .. =>
        { main := m
          watched := c.watched.map fun t =>
            match c.main.app.streaming with
            | some rx => t.receive rx.queue
            | none => t }
    | .poll .. => ⟨m, follow c.watched c.main.app.talk m.app.talk⟩
    | _ => ⟨m, c.watched⟩

def start (app : AppState) : Chat := ⟨⟨app, .drains⟩, none⟩

/-- The turn opened for the stream has exactly what was received for it, and is complete once its
stream is done. -/
def Intact (c : Chat) : Prop :=
  ∀ t ∈ c.watched, ∃ turn, c.main.app.history[t.index]? = some turn ∧ turn.role = .assistant ∧
    t.Shows turn

/-- When the stream is drained, its turn is the last entry of the transcript, or what is received
adds nothing to it. -/
def OnTop (c : Chat) (e : Event) : Prop :=
  match e with
  | .drain .. =>
      ∀ t ∈ c.watched, ∀ rx, c.main.app.streaming = some rx →
        t.index + 1 = c.main.app.history.length ∨ Silent rx.queue
  | _ => True

end Chat

/-- The turn is in the transcript, and open just as long as its stream is there. -/
structure Streamed.Sound (t : Streamed) (s : Talk) : Prop where
  running : t.phase = .running ↔ s.streaming.isSome
  turn : ∃ turn, s.history[t.index]? = some turn ∧ turn.role = .assistant ∧
    (t.phase = .running → turn.complete = false)

def Streamed.Shown (t : Streamed) (s : Talk) : Prop :=
  ∃ turn, s.history[t.index]? = some turn ∧ turn.role = .assistant ∧ t.Shows turn

namespace Streamed

variable {t : Streamed} {s s' : Talk} {app : AppState}

theorem Sound.lt (h : t.Sound s) : t.index < s.history.length := by
  obtain ⟨turn, hat, -⟩ := h.turn
  exact (List.getElem?_eq_some_iff.mp hat).1

theorem Sound.pushes (h : t.Sound s) (hp : s.Pushes s') : t.Sound s' := by
  have hlt := h.lt
  obtain ⟨turn, hat, hrest⟩ := h.turn
  obtain ⟨ts, rfl⟩ := hp
  refine ⟨h.running, turn, ?_, hrest⟩
  show (s.history ++ ts)[t.index]? = some turn
  rw [List.getElem?_append_left hlt, hat]

private theorem Sound.shown_pushes (h : t.Sound s) (hp : s.Pushes s') : t.Shown s' ↔ t.Shown s := by
  have hlt := h.lt
  obtain ⟨ts, rfl⟩ := hp
  simp only [Shown, List.getElem?_append_left hlt]

/-- What the pass over the stream does to the turn: it receives the deltas if it is the last entry
of the transcript. -/
theorem Sound.receive {rx : Receiver} (h : t.Sound app.talk) (hrx : app.streaming = some rx) :
    (t.receive rx.queue).Sound (app.receive rx rx.queue).talk ∧
      (t.Shown app.talk → ((t.receive rx.queue).Shown (app.receive rx rx.queue).talk ↔
        t.index + 1 = app.history.length ∨ Silent rx.queue)) := by
  have hrun : t.phase = .running := h.running.mpr (by simp [AppState.talk, hrx])
  have hlt : t.index < app.history.length := h.lt
  obtain ⟨turn, hat, hrole, hopen⟩ := h.turn
  have hopen := hopen hrun
  have hat : app.history[t.index]? = some turn := hat
  have hstream : (app.receive rx rx.queue).streaming.isSome ↔
      (t.receive rx.queue).phase = .running := AppState.receive_streaming hrun
  have hshown : t.Shown app.talk → turn.content = t.text := by
    rintro ⟨turn', hat', -, hshows⟩
    obtain rfl := Option.some.inj (hat.symm.trans hat')
    simpa [Shows, hrun] using hshows
  by_cases htop : t.index + 1 = app.history.length
  · have hhist : app.history = app.history.take t.index ++ [turn] := by
      have hcut := List.take_append_drop t.index app.history
      have hdrop : app.history.drop t.index = [turn] := by
        obtain ⟨_, hget⟩ := List.getElem?_eq_some_iff.mp hat
        rw [List.drop_eq_getElem_cons hlt, hget, List.drop_eq_nil_of_le (by omega)]
      rw [hdrop] at hcut
      exact hcut.symm
    have hlast : (app.receive rx rx.queue).history =
        app.history.take t.index ++ [turn.receive rx.queue] :=
      AppState.receive_last hhist hrole hopen
    have hat' : (app.receive rx rx.queue).history[(t.receive rx.queue).index]? =
        some (turn.receive rx.queue) := by
      have hlen : (app.history.take t.index).length = t.index := by
        rw [List.length_take]
        omega
      rw [hlast, receive_index, List.getElem?_append_right (by omega)]
      simp [hlen]
    have hrole' := (turn.receive_role rx.queue).trans hrole
    exact ⟨⟨hstream.symm, _, hat', hrole', receive_open hopen⟩, fun hs =>
      iff_of_true ⟨_, hat', hrole', shows_receive hrun (hshown hs)⟩ (.inl htop)⟩
  · have hat' : (app.receive rx rx.queue).history[(t.receive rx.queue).index]? = some turn := by
      rw [receive_index, AppState.receive_below htop hlt]
      exact hat
    refine ⟨⟨hstream.symm, turn, hat', hrole, fun _ => hopen⟩, fun hs => ?_⟩
    have hiff : (t.receive rx.queue).Shows turn ↔ turn.content = t.text ∧ Silent rx.queue :=
      shows_receive_iff hrun hopen (Nat.le_of_eq (congrArg String.length (hshown hs)))
    constructor
    · rintro ⟨turn', hat'', -, hshows⟩
      obtain rfl := Option.some.inj (hat'.symm.trans hat'')
      exact .inr (hiff.mp hshows).2
    · intro hor
      exact ⟨turn, hat', hrole, hiff.mpr ⟨hshown hs, hor.resolve_left htop⟩⟩

end Streamed

private theorem follow_sound {w : Option Streamed} {s s' : Talk} (hsound : ∀ t ∈ w, t.Sound s)
    (he : s.Effect s') :
    ∀ t ∈ follow w s s', t.Sound s' ∧ ((∀ t ∈ w, t.Shown s) → t.Shown s') := by
  intro t ht
  cases he with
  | pushes hp =>
      have hnext : s'.nextStream = s.nextStream := by
        obtain ⟨ts, rfl⟩ := hp
        rfl
      simp only [follow, hnext, ne_eq, not_true_eq_false, if_false] at ht
      split at ht
      · cases ht
      · have hw := (Option.mem_filter_iff.mp ht).1
        exact ⟨(hsound t hw).pushes hp, fun hshown =>
          ((hsound t hw).shown_pushes hp).mpr (hshown t hw)⟩
  | clears hclear =>
      subst hclear
      simp [follow] at ht
  | cancels hrun hnone hlen hnext =>
      simp only [follow, hnext, ne_eq, not_true_eq_false, if_false] at ht
      split at ht
      · cases ht
      · obtain ⟨hw, hphase⟩ := Option.mem_filter_iff.mp ht
        have hrunning := (hsound t hw).running.mpr hrun
        simp [hrunning, hnone] at hphase
  | opens text hopen =>
      subst hopen
      simp only [follow, ne_eq, Nat.add_eq_left, one_ne_zero, not_false_eq_true, if_true,
        Option.mem_some_iff] at ht
      subst ht
      have hat : (s.history ++ [Turn.user text, Turn.assistantOpen])[
          (s.history ++ [Turn.user text, Turn.assistantOpen]).length - 1]? =
          some Turn.assistantOpen := by
        rw [← List.getLast?_eq_getElem?]
        simp
      exact ⟨⟨by simp, Turn.assistantOpen, hat, rfl, fun _ => rfl⟩, fun _ =>
        ⟨Turn.assistantOpen, hat, rfl, rfl⟩⟩

namespace Main

variable {m m' : Main}

private theorem drain_app {o : Outside} {refreshed : Bool}
    (h : m.step (.drain o refreshed) = some m') :
    m'.app = m.app.drains o refreshed := by
  obtain ⟨app, phase⟩ := m
  cases phase with
  | drains =>
      obtain rfl := Option.some.inj h
      rfl
  | polls => cases h
  | left => cases h

private theorem poll_app {o : Outside} {input : Option TermEvent}
    (h : m.step (.poll o input) = some m') :
    m'.app = (m.app.termEvent o input).1 := by
  obtain ⟨app, phase⟩ := m
  cases phase with
  | drains => cases h
  | polls =>
      obtain rfl := Option.some.inj h
      rfl
  | left => cases h

end Main

/-- Draining keeps the turn sound, and keeps it intact just when it is the last entry of the
transcript or receives nothing. -/
private theorem drains_watched {app : AppState} {t : Streamed} (o : Outside) (refreshed : Bool)
    (h : t.Sound app.talk) :
    let t' := match app.streaming with
      | some rx => t.receive rx.queue
      | none => t
    t'.Sound (app.drains o refreshed).talk ∧
      (t.Shown app.talk → (t'.Shown (app.drains o refreshed).talk ↔
        ∀ rx, app.streaming = some rx →
          t.index + 1 = app.history.length ∨ Silent rx.queue)) := by
  have hpushes := app.drains_pushes o refreshed
  rw [AppState.drainStream] at hpushes
  cases hrx : app.streaming with
  | none =>
      rw [hrx] at hpushes
      refine ⟨h.pushes hpushes, fun hshown => ?_⟩
      exact iff_of_true ((h.shown_pushes hpushes).mpr hshown) (fun rx hrx' => by cases hrx')
  | some rx =>
      rw [hrx] at hpushes
      obtain ⟨hsound, hiff⟩ := h.receive hrx
      refine ⟨hsound.pushes hpushes, fun hshown => ?_⟩
      rw [hsound.shown_pushes hpushes, hiff hshown]
      constructor
      · intro htop rx' hrx'
        obtain rfl := Option.some.inj hrx'
        exact htop
      · intro htop
        exact htop rx rfl

namespace Chat

variable {c c' : Chat} {e : Event}

def Sound (c : Chat) : Prop := ∀ t ∈ c.watched, t.Sound c.main.app.talk

private theorem sound_start (app : AppState) : (start app).Sound := by
  intro t ht
  cases ht

private theorem arrived_sound {t : Streamed} {s s' : Talk} (h : t.Sound s)
    (hhist : s'.history = s.history) (hstream : s'.streaming.isSome = s.streaming.isSome) :
    t.Sound s' where
  running := by
    rw [hstream]
    exact h.running
  turn := by
    rw [hhist]
    exact h.turn

/-- Every step keeps the turn sound; draining keeps it intact just when it is the last entry of the
transcript or receives nothing, and the other steps keep it. -/
theorem sound_step (hsound : c.Sound) (hs : c.step e = some c') :
    c'.Sound ∧ (c.Intact → (c'.Intact ↔ c.OnTop e)) := by
  obtain ⟨m, hm, rfl⟩ := Option.map_eq_some_iff.mp hs
  cases e with
  | drain o refreshed =>
      have happ := Main.drain_app hm
      have hwatched (t : Streamed) (ht : t ∈ c.watched) :=
        drains_watched o refreshed (hsound t ht)
      constructor
      · intro t' ht'
        obtain ⟨t, ht, rfl⟩ := Option.mem_map.mp ht'
        show Streamed.Sound _ m.app.talk
        rw [happ]
        exact (hwatched t ht).1
      · intro hintact
        constructor
        · intro hintact' t ht
          have hshown := hintact' _ (Option.mem_map_of_mem _ ht)
          rw [show m.app = _ from happ] at hshown
          exact ((hwatched t ht).2 (hintact t ht)).mp hshown
        · intro htop t' ht'
          obtain ⟨t, ht, rfl⟩ := Option.mem_map.mp ht'
          have hshown := ((hwatched t ht).2 (hintact t ht)).mpr (htop t ht)
          rw [← happ] at hshown
          exact hshown
  | poll o input =>
      have hfollow := follow_sound hsound (c.main.app.termEvent_effect o input)
      rw [← Main.poll_app hm] at hfollow
      exact ⟨fun t ht => (hfollow t ht).1, fun hintact =>
        iff_of_true (fun t ht => (hfollow t ht).2 hintact) trivial⟩
  | delta id d =>
      obtain rfl := Option.some.inj hm
      exact ⟨fun t ht => arrived_sound (hsound t ht) rfl (by simp [AppState.talk, AppState.arrive]),
        fun hintact => iff_of_true hintact trivial⟩
  | download ev =>
      obtain rfl := Option.some.inj hm
      exact ⟨hsound, fun hintact => iff_of_true hintact trivial⟩
  | split ev =>
      obtain rfl := Option.some.inj hm
      exact ⟨hsound, fun hintact => iff_of_true hintact trivial⟩
  | pull ev =>
      obtain rfl := Option.some.inj hm
      exact ⟨hsound, fun hintact => iff_of_true hintact trivial⟩

variable {es : List Event}

/-- The text streamed for a turn is kept, and its end noted, all along a run exactly when each time
the stream is drained its turn is the last entry of the transcript. -/
theorem streamed_text_kept_iff (app : AppState)
    (hrun : Run step (fun _ _ => True) (start app) es c) :
    Held step Intact (start app) es c ↔ Run step OnTop (start app) es c :=
  held_iff_run hrun (sound_start app) (fun t ht => by cases ht)
    (fun _ _ _ hx hy => (sound_step hx hy).1) (fun _ _ _ hx hP hy => (sound_step hx hy).2 hP)

/-- A prompt typed in, one model that is usable, and nothing else going on. -/
def typedPrompt : AppState where
  mode := .localMode
  model := "m"
  target := none
  history := []
  box := { InputBox.empty with input := "hi", cursor := 2 }
  view := .chat
  streaming := none
  nextStream := 0
  download := none
  splitting := none
  pulling := none
  shouldQuit := false
  exitPending := false
  clearPending := false

def oneModel : Outside where
  resolve := fun _ => some ⟨true, "m"⟩
  nextModel := none
  rows := []
  swarmTarget := fun _ => none
  contributing := fun _ => .nothing ""
  pasteBody := id
  inflate := id
  answer := fun _ => "commands:"
  peers := fun _ => none
  edited := .failed ""
  onFirstRow := true
  onLastRow := true
  rowStart := 0
  rowEnd := 0
  withinExit := false
  withinClear := false
  describeSplit := fun _ => []
  describePull := fun _ => ""

def pass (input : Option TermEvent) : List Event :=
  [.drain oneModel false, .poll oneModel input]

def enter : TermEvent := .key ⟨.enter, ⟨false, false, false⟩⟩

def answered : List Event :=
  pass (some enter) ++ [.delta 0 (.token "Hello")] ++ pass none ++ [.delta 0 .done] ++ pass none

/-- A prompt that is answered while nothing else happens is shown with its answer. -/
theorem streamed_text_kept_answered :
    ∃ c, Held step Intact (start typedPrompt) answered c ∧
      c.main.app.history = [Turn.user "hi", ⟨.assistant, "Hello", true⟩] := by
  have hfacts : (execChecked step (fun c _ => c.watched.all fun t =>
      t.index + 1 = c.main.app.history.length) (start typedPrompt) answered).any (fun c =>
        c.main.app.history = [Turn.user "hi", ⟨.assistant, "Hello", true⟩]) = true := by
    decide +kernel
  obtain ⟨c, hc, hhist⟩ := (Option.any_eq_true _ _).mp hfacts
  have hrun : Run step OnTop (start typedPrompt) answered c := by
    refine Run.of_execChecked hc fun x e hx => ?_
    cases e with
    | drain o refreshed =>
        intro t ht rx hrx
        simp only [Option.mem_def] at ht
        simp only [ht, Option.all_some, decide_eq_true_eq] at hx
        exact .inl hx
    | _ => trivial
  refine ⟨c, ?_, by simpa using hhist⟩
  exact (streamed_text_kept_iff typedPrompt (hrun.weaken fun _ _ _ => trivial)).mpr hrun

def interrupted : List Event :=
  pass (some enter) ++ pass (some (.paste "/help")) ++ pass (some enter) ++
    [.delta 0 (.token "Hello"), .drain oneModel false]

/-- What the model answers below a command that was submitted meanwhile is lost. -/
theorem token_below_command_lost :
    ¬ ∀ (app : AppState) (es : List Event) (c : Chat),
      Run step (fun _ _ => True) (start app) es c → Held step Intact (start app) es c := by
  intro hall
  have hfacts : (exec step (start typedPrompt) interrupted).any (fun c =>
      c.watched = some ⟨1, "Hello", .running⟩ &&
        c.main.app.history[1]? = some Turn.assistantOpen) = true := by
    decide +kernel
  obtain ⟨c, hc, hfacts⟩ := (Option.any_eq_true _ _).mp hfacts
  simp only [Bool.and_eq_true, decide_eq_true_eq] at hfacts
  obtain ⟨hwatched, hat⟩ := hfacts
  have hrun := Run.of_exec (fun _ _ => True) hc fun _ _ _ => trivial
  obtain ⟨turn, hturn, -, hshows⟩ := (hall _ _ _ hrun).2 _ hwatched
  obtain rfl := Option.some.inj (hat.symm.trans hturn)
  have hempty : Turn.assistantOpen.content = "Hello" := hshows
  exact absurd hempty (by decide +kernel)

end Chat

end IntelNav.Tui
