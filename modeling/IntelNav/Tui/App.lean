import IntelNav.App.Announce
import IntelNav.Tui.Input

/-! The chat interface (`crates/app/src/tui/mod.rs`): the transcript, the stream of the turn in
progress, and what keys, commands and background jobs do to them. -/

set_option autoImplicit false
set_option relaxedAutoImplicit false

namespace IntelNav.Tui

open IntelNav.App

inductive RunMode
  | localMode | networkMode
  deriving DecidableEq

def RunMode.label : RunMode → String
  | .localMode => "local"
  | .networkMode => "network"

/-- `RunMode::from_str`. -/
def RunMode.parse (s : String) : Option RunMode :=
  match toAsciiLowercase (trim s) with
  | "local" | "offline" => some .localMode
  | "network" | "remote" => some .networkMode
  | _ => none

/-- `u8::from_str`: what `u32::from_str` reads, up to 255. -/
def parseU8 (s : List Char) : Option Nat :=
  (ModelStore.parseU32 s).bind fun n => if n.toNat < 256 then some n.toNat else none

example : ["+5", "1_0", "0255", "256"].map (parseU8 ·.toList) = [some 5, none, some 255, none] := by
  decide

inductive Role
  | system | user | assistant
  deriving DecidableEq

/-- One entry of the transcript; `complete` once it is fully received. -/
structure Turn where
  role : Role
  content : String
  complete : Bool
  deriving DecidableEq

namespace Turn

def user (s : String) : Turn := ⟨.user, s, true⟩

def system (s : String) : Turn := ⟨.system, s, true⟩

def assistantOpen : Turn := ⟨.assistant, "", false⟩

end Turn

inductive Delta
  | token (t : String)
  | done
  | error (e : String)
  deriving DecidableEq

inductive DlEvent
  | progress (label : String) (done : Nat) (total : Option Nat)
  | done (label stem : String)
  | error (label message : String)

/-! The model picker (`crates/app/src/browser.rs`). -/

/-- A row stands for a cached file, for a model of the swarm, or for an entry of the catalog. -/
inductive RowKind
  | cached (stem : String)
  | swarm (cid : String)
  | install (displayName : String)

structure SourceRow where
  model : String
  kind : RowKind
  enabled : Bool
  contributeOk : Bool

structure BrowserState where
  rows : List SourceRow
  selected : Nat

namespace BrowserState

def new (rows : List SourceRow) : BrowserState :=
  ⟨rows, (rows.findIdx? SourceRow.enabled).getD 0⟩

def current (b : BrowserState) : Option SourceRow := b.rows[b.selected]?

def seek (b : BrowserState) (next : Nat → Nat) : Nat → Nat → BrowserState
  | 0, _ => b
  | n + 1, i =>
      match b.rows[next i]? with
      | some row =>
          if row.enabled || row.contributeOk then ⟨b.rows, next i⟩ else b.seek next n (next i)
      | none => b

def up (b : BrowserState) : BrowserState :=
  b.seek (fun i => if i = 0 then b.rows.length - 1 else i - 1) b.rows.length b.selected

def down (b : BrowserState) : BrowserState :=
  b.seek (fun i => (i + 1) % b.rows.length) b.rows.length b.selected

end BrowserState

inductive View
  | chat
  | browser (state : BrowserState)
  | doctor

/-- The receiving end of the channel of one turn, with the deltas sent and not yet received. -/
structure Receiver where
  id : Nat
  queue : List Delta

/-- The state of the application, as far as the transcript and the input depend on it. `nextStream`
numbers the channels that drivers were given. -/
structure AppState where
  mode : RunMode
  model : String
  target : Option String
  history : List Turn
  box : InputBox
  view : View
  streaming : Option Receiver
  nextStream : Nat
  download : Option (List DlEvent)
  splitting : Option (List SplitEvent)
  pulling : Option (List SwarmPullEvent)
  shouldQuit : Bool
  exitPending : Bool
  clearPending : Bool

/-- A model found by `local::resolve`. -/
structure LocalModel where
  isUsable : Bool
  statusLine : String

/-- How `$EDITOR` was left. -/
inductive Edited
  | saved (text : String)
  | exited (status : String)
  | failed (e : String)

/-- What `contribute_browser` starts of a row, and what it says. -/
inductive Contributing
  | split (notice : String)
  | pull (notice : String)
  | nothing (notice : String)

/-- What a handler reads outside of the state: the models on disk, the swarm and the chain driver,
the stash of pastes, the answers of the daemon, the editor, the layout of the input box, and the
time since the last Ctrl+C or Esc. -/
structure Outside where
  resolve : String → Option LocalModel
  nextModel : Option String
  rows : List SourceRow
  swarmTarget : String → Option (Except String String)
  contributing : SourceRow → Contributing
  pasteBody : String → String
  inflate : String → String
  answer : List String → String
  peers : List String → Option (Option String)
  edited : Edited
  onFirstRow : Bool
  onLastRow : Bool
  rowStart : Nat
  rowEnd : Nat
  withinExit : Bool
  withinClear : Bool
  describeSplit : SplitEvent → List String
  describePull : SwarmPullEvent → String

namespace AppState

variable (o : Outside) (app : AppState)

def say (s : String) : AppState := { app with history := app.history ++ [.system s] }

/-- `history.last_mut()`. -/
def onLast (f : Turn → Turn) : AppState :=
  { app with history := app.history.modify (app.history.length - 1) f }

def inBrowser : Bool := app.view matches .browser _

def inDoctor : Bool := app.view matches .doctor

def inOverlay : Bool := app.inBrowser || app.inDoctor

def emitFatal (msg : String) : AppState :=
  match app.history.getLast? with
  | some last =>
      if last.role = .assistant ∧ last.complete = false then
        app.onLast fun last => { last with content := last.content ++ msg, complete := true }
      else app.say msg
  | none => app.say msg

/-- A driver is started, and its channel replaces the one there was. -/
def stream : AppState :=
  { app with streaming := some ⟨app.nextStream, []⟩, nextStream := app.nextStream + 1 }

def handleSlash (cmd : String) : AppState :=
  let parts := splitWhitespace cmd
  let args := parts.tail
  match parts.headD "" with
  | "help" | "keybindings" | "keys" | "hosting" | "leave" | "service" | "draft" | "wire" =>
      app.say (o.answer parts)
  | "clear" => { app with history := [] }
  | "mode" =>
      match args.head? with
      | none => app.say s!"current mode: {app.mode.label}"
      | some m =>
          match RunMode.parse m with
          | some mode => { app with mode : AppState }.say s!"mode → {mode.label}"
          | none => app.say s!"unknown run mode `{m}` (expected local|network)"
  | "model" =>
      match args.head? with
      | none => app.say s!"current model: {app.model}"
      | some m => { app with model := m : AppState }.say s!"model → {m}"
  | "models" => { app with view := .browser (.new o.rows) }
  | "doctor" => { app with view := .doctor }
  | "quorum" =>
      match args.head?.bind fun v => parseU8 v.toList with
      | none => app
      | some n => app.say s!"quorum → {n}"
  | "tier" =>
      match args.head? with
      | none => app
      | some t => app.say s!"tier → {t}"
  | "peers" => { app with target := (o.peers args).getD app.target : AppState }.say (o.answer parts)
  | "quit" | "exit" => { app with shouldQuit := true }
  | other => app.say s!"unknown command: /{other}"

def submitPrompt (text : String) : AppState :=
  let app := { app with history := app.history ++ [Turn.user text, Turn.assistantOpen] }
  let resolved (missing : String) : AppState :=
    match o.resolve app.model with
    | none => app.emitFatal missing
    | some m => if m.isUsable then app.stream else app.emitFatal m.statusLine
  match app.mode with
  | .localMode => resolved s!"no local model matches `{app.model}`. /models to list."
  | .networkMode =>
      match app.target with
      | none =>
          app.emitFatal "no peer chain configured. /peers <host:port,...> <split,...> to set one."
      | some _ => resolved s!"peer chain needs the same GGUF locally; no match for `{app.model}`."

def submit : AppState :=
  if app.inOverlay then app
  else
    let (text, box) := app.box.take
    let app := { app with box }
    if text = "" then app
    else
      match (o.inflate text).toList with
      | '/' :: cmd => app.handleSlash o (String.ofList cmd)
      | _ => app.submitPrompt o (o.inflate text)

def closeBrowser : AppState := { app with view := .chat }

def startInstall (displayName : String) : AppState :=
  if app.download.isSome then
    app.say "another download is in progress — wait for it to finish."
  else { app with download := some [] : AppState }.say s!"installing {displayName}"

def commitBrowser (state : BrowserState) : AppState :=
  match state.current with
  | none => app
  | some row =>
      if row.enabled then
        match row.kind with
        | .cached stem =>
            ({ app with mode := .localMode, model := stem : AppState }.say
              s!"→ local · {stem}").closeBrowser
        | .swarm cid =>
            match o.swarmTarget cid with
            | none =>
                (app.say "swarm cache lost this model — reopen /models and retry.").closeBrowser
            | some (.ok target) =>
                ({ app with target := some target, mode := .networkMode, model := row.model :
                    AppState }.say s!"→ swarm · {row.model} · chain {target}").closeBrowser
            | some (.error e) =>
                (app.say s!"couldn't assemble chain for {row.model}: {e}").closeBrowser
        | .install displayName => (app.startInstall displayName).closeBrowser
      else app

/-- A `c` on a row of the picker. -/
def contributeBrowser (state : BrowserState) : AppState :=
  match state.current with
  | none => app
  | some row =>
      if row.contributeOk then
        match o.contributing row with
        | .split notice => ({ app with splitting := some [] : AppState }.say notice).closeBrowser
        | .pull notice => ({ app with pulling := some [] : AppState }.say notice).closeBrowser
        | .nothing notice => (app.say notice).closeBrowser
      else app

def browserKey (state : BrowserState) (k : KeyEvent) : AppState :=
  match k.code with
  | .up | .char 'k' => { app with view := .browser state.up }
  | .down | .char 'j' => { app with view := .browser state.down }
  | .enter => app.commitBrowser o state
  | .char 'c' => app.contributeBrowser o state
  | .esc | .char 'q' => app.closeBrowser
  | _ => app

/-- The stream is dropped; what is last in the transcript is marked complete. -/
def cancel : AppState :=
  { app.onLast fun t => { t with complete := true } with streaming := none }

def chatKey (k : KeyEvent) : AppState :=
  match k.code with
  | .enter =>
      if k.modifiers.shift then { app with box := app.box.pushUndo.insertStr "\n" }
      else if app.box.afterBackslash then { app with box := app.box.newline }
      else app.submit o
  | .backspace => { app with box := app.box.backspace }
  | .delete => { app with box := app.box.delete }
  | .left => { app with box := { app.box with cursor := app.box.cursor - 1 } }
  | .right =>
      { app with box := { app.box with cursor := min (app.box.cursor + 1) app.box.input.length } }
  | .up => if o.onFirstRow then { app with box := app.box.historyUp } else app
  | .down => if o.onLastRow then { app with box := app.box.historyDown } else app
  | .home =>
      if k.modifiers.shift then app else { app with box := { app.box with cursor := o.rowStart } }
  | .end =>
      if k.modifiers.shift then app else { app with box := { app.box with cursor := o.rowEnd } }
  | .char c =>
      { app with box := app.box.pushUndo.insertStr (String.singleton c), clearPending := false }
  | .esc =>
      if app.streaming.isSome then { app.cancel with clearPending := false }
      else if app.box.input = "" then app
      else if app.clearPending && o.withinClear then
        { app with box := app.box.pushUndo.clear, clearPending := false }
      else { app with clearPending := true }
  | .pageUp | .pageDown | .tab | .other => app

/-- Keys of the chat view; the suggestions, when there are some, take a few of them. -/
def suggestKey (k : KeyEvent) : AppState :=
  let suggs := app.box.suggestions
  let pass : AppState :=
    -- Alt+P goes on to the next usable model.
    match k.code, k.modifiers.alt with
    | .char 'p', true | .char 'P', true =>
        match o.nextModel with
        | none => app
        | some m => { app with model := m : AppState }.say s!"model → {m}"
    | _, _ => app.chatKey o k
  if suggs = [] then pass
  else
    match k.code with
    | .up =>
        { app with
          box.suggIdx := if app.box.suggIdx = 0 then suggs.length - 1 else app.box.suggIdx - 1 }
    | .down => { app with box.suggIdx := (app.box.suggIdx + 1) % suggs.length }
    | .tab => { app with box := app.box.acceptSuggestion }
    | .enter =>
        let raw := String.ofList (app.box.input.toList.dropWhile (· = '/'))
        if suggs.any fun c => c.name = raw then app.submit o
        else { app with box := app.box.acceptSuggestion }
    | .esc => { app with box := { app.box with input := "", cursor := 0, suggIdx := 0 } }
    | _ => pass

def plainKey (k : KeyEvent) : AppState :=
  let app := { app with exitPending := false }
  match app.view with
  | .doctor =>
      match k.code with
      | .esc | .enter | .char 'q' => { app with view := .chat }
      | _ => app
  | .browser state => app.browserKey o state k
  | .chat => app.suggestKey o k

/-- `edit_in_external_editor`. -/
def edit : AppState :=
  match o.edited with
  | .saved text =>
      { app with box := { app.box with
          input := text, cursor := text.length, suggIdx := 0, historyIdx := none } }
  | .exited status => app.say s!"$EDITOR exited {status} — input unchanged"
  | .failed e => app.say s!"$EDITOR: {e}"

/-- `handle_key`, and whether the application is to quit. -/
def handleKey (k : KeyEvent) : AppState × Bool :=
  match k.code, k.modifiers.control with
  | .char '_', true =>
      let app :=
        match app.box.popUndo with
        | some box => { app with box }
        | none => app.say "nothing to undo"
      ({ app with exitPending := false, clearPending := false }, false)
  | .char 'g', true =>
      ({ { app with box := app.box.pushUndo : AppState }.edit o with
          exitPending := false, clearPending := false }, false)
  | .char 'c', true =>
      if app.exitPending && o.withinExit then (app, true)
      else
        let app :=
          if app.streaming.isSome then app.cancel
          else if app.inOverlay then { app with view := .chat }
          else if app.box.input = "" then app
          else { app with box := app.box.clear }
        ({ app with exitPending := true }, false)
  | .char 'd', true => (app, app.box.input = "" && !app.inOverlay)
  | .char 'l', true => ({ app with history := [] }, false)
  | _, _ => (app.plainKey o k, false)

/-- The loop of `drain_stream` over what has arrived. -/
def receive (app : AppState) (rx : Receiver) : List Delta → AppState
  | [] => { app with streaming := some { rx with queue := [] } }
  | .token t :: rest =>
      (app.onLast fun last =>
        if last.role = .assistant ∧ last.complete = false then
          { last with content := last.content ++ t }
        else last).receive rx rest
  | .done :: _ =>
      { app.onLast fun last =>
          if last.role = .assistant then { last with complete := true } else last with
        streaming := none }
  | .error e :: _ =>
      { (if app.history = [] then app.say s!"error: {e}"
        else app.onLast fun last =>
          if last.role = .assistant ∧ last.complete = false then
            { last with content := last.content ++ ("\n⚠ " ++ e), complete := true }
          else last) with
        streaming := none }

def drainStream : AppState :=
  match app.streaming with
  | none => app
  | some rx => app.receive rx rx.queue

/-- The loop of `drain_download`. -/
def drainDownloads (app : AppState) : List DlEvent → AppState
  | [] => { app with download := some [] }
  | .progress .. :: rest => app.drainDownloads rest
  | .done label stem :: _ =>
      { app with mode := .localMode, model := stem, download := none : AppState }.say
        s!"✓ installed {label} — ready to use as `{stem}`"
  | .error label message :: _ =>
      { app with download := none : AppState }.say s!"⚠ {label}: {message}"

def drainDownload : AppState :=
  match app.download with
  | none => app
  | some queue => app.drainDownloads queue

/-- The loop of `drain_split`; a split that is done pushes two turns. -/
def drainSplits (app : AppState) : List SplitEvent → AppState
  | [] => { app with splitting := some [] }
  | ev :: rest =>
      let app := { app with history := app.history ++ (o.describeSplit ev).map Turn.system }
      match ev with
      | .started .. => app.drainSplits rest
      | .done .. | .error _ => { app with splitting := none }

def drainSplit : AppState :=
  match app.splitting with
  | none => app
  | some queue => app.drainSplits o queue

/-- The loop of `drain_pull`. -/
def drainPulls (app : AppState) : List SwarmPullEvent → AppState
  | [] => { app with pulling := some [] }
  | ev :: rest =>
      let app := app.say (o.describePull ev)
      match ev with
      | .started .. | .manifestOk .. | .chunksDone .. => app.drainPulls rest
      | .done .. | .error _ => { app with pulling := none }

def drainPull : AppState :=
  match app.pulling with
  | none => app
  | some queue => app.drainPulls o queue

/-- A refreshed swarm index only rebuilds the rows of an open picker. -/
def drainSwarm (refreshed : Bool) : AppState :=
  match app.view, refreshed with
  | .browser _, true => { app with view := .browser (.new o.rows) }
  | _, _ => app

end AppState

inductive TermEvent
  | key (k : KeyEvent)
  | paste (s : String)

/-- Where `run_loop` stands: before the channels are drained, or before the terminal is read. -/
inductive LoopPhase
  | drains | polls | left
  deriving DecidableEq

structure Main where
  app : AppState
  phase : LoopPhase

/-- What happens next: the loop goes on, or a driver or a job sends something. A driver sends to the
channel it was given. -/
inductive Event
  | drain (o : Outside) (refreshed : Bool)
  | poll (o : Outside) (input : Option TermEvent)
  | delta (id : Nat) (d : Delta)
  | download (ev : DlEvent)
  | split (ev : SplitEvent)
  | pull (ev : SwarmPullEvent)

namespace AppState

variable (o : Outside) (app : AppState)

/-- The channels are drained in this order, first the stream; then the windows of Ctrl+C and Esc
expire. -/
def drains (refreshed : Bool) : AppState :=
  let app := (((app.drainStream.drainDownload).drainSplit o).drainPull o).drainSwarm o refreshed
  { app with exitPending := app.exitPending && o.withinExit
             clearPending := app.clearPending && o.withinClear }

/-- What the terminal reports is handled; true if the loop is to be left. -/
def termEvent : Option TermEvent → AppState × Bool
  | none => (app, false)
  | some (.key k) => app.handleKey o k
  | some (.paste s) =>
      (if app.inBrowser then app
        else { app with box := app.box.insertPaste (o.pasteBody s) }, false)

def arrive (id : Nat) (d : Delta) : AppState :=
  { app with
    streaming := app.streaming.map fun rx =>
      if rx.id = id then { rx with queue := rx.queue ++ [d] } else rx }

end AppState

def Main.step (m : Main) (e : Event) : Option Main :=
  match e, m.phase with
  | .drain o refreshed, .drains =>
      let app := m.app.drains o refreshed
      some ⟨app, if app.shouldQuit then .left else .polls⟩
  | .poll o input, .polls =>
      let (app, quit) := m.app.termEvent o input
      some ⟨app, if quit then .left else .drains⟩
  | .delta id d, _ => some { m with app := m.app.arrive id d }
  | .download ev, _ => some { m with app.download := m.app.download.map (· ++ [ev]) }
  | .split ev, _ => some { m with app.splitting := m.app.splitting.map (· ++ [ev]) }
  | .pull ev, _ => some { m with app.pulling := m.app.pulling.map (· ++ [ev]) }
  | _, _ => none

end IntelNav.Tui
