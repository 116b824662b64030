import IntelNav.Tui.App
import IntelNav.Tui.Fences
import IntelNav.Tui.Inflate

/-! The input box with its cursor in bytes: every key and every paste leaves it at a valid edit
point. -/

set_option autoImplicit false
set_option relaxedAutoImplicit false

namespace IntelNav.Tui

open Reading Text ModelStore

/-- The input of `AppState`; texts are their characters, cursors count bytes. -/
structure ByteBox where
  input : List Char
  cursor : Nat
  suggIdx : Nat
  promptHistory : List (List Char)
  historyIdx : Option Nat
  inputUndo : List (List Char × Nat)
  pastes : Pastes

/-- What a key handler sees of the rest of the application: whether an answer streams, the view,
whether the windows of Ctrl+C and Esc are open, the width of the input box, and the file that
`$EDITOR` leaves when it succeeds. -/
structure Glance where
  streaming : Bool
  view : View
  exitArmed : Bool
  clearArmed : Bool
  innerWidth : UInt16
  edited : Option (List Char)

/-- `in_overlay`. -/
def Glance.inOverlay (see : Glance) : Bool :=
  match see.view with
  | .chat => false
  | .browser _ | .doctor => true

/-- `last_input_inner_w.max(4)`. -/
def Glance.width (see : Glance) : Nat := max see.innerWidth.toNat 4

theorem Glance.width_pos (see : Glance) : 0 < see.width := by
  rw [Glance.width]
  omega

namespace ByteBox

/-- The input of a new `AppState`. -/
def new : ByteBox := ⟨[], 0, 0, [], none, [], ⟨[], 1⟩⟩

variable (W : CharWidths) (see : Glance) (b : ByteBox)

def pushUndo : ByteBox :=
  let ring := if undoHistoryCap ≤ b.inputUndo.length then b.inputUndo.tail else b.inputUndo
  { b with inputUndo := ring ++ [(b.input, b.cursor)] }

def popUndo : Option ByteBox :=
  b.inputUndo.getLast?.map fun s =>
    { b with
      input := s.1, cursor := s.2, historyIdx := none, suggIdx := 0,
      inputUndo := b.inputUndo.dropLast }

def insert (s : List Char) : Option ByteBox :=
  (insertStr b.input b.cursor s).map fun input =>
    { b with input, cursor := b.cursor + byteLen s }

def insertPaste (s : List Char) : Option ByteBox := do
  let (pastes, body) ← pasteBody false b.pastes s
  let b ← { b with pastes : ByteBox }.insert body
  pure { b with historyIdx := none }

def backspace : Option ByteBox :=
  if 0 < b.cursor then
    let b := b.pushUndo
    let prev := prevCharBoundary b.input b.cursor
    (replaceRange b.input prev b.cursor []).map fun input => { b with input, cursor := prev }
  else some b

def delete : Option ByteBox :=
  if b.cursor < byteLen b.input then
    let b := b.pushUndo
    let next := nextCharBoundary b.input b.cursor
    (replaceRange b.input b.cursor next []).map fun input => { b with input }
  else some b

def newline : Option ByteBox :=
  let b := b.pushUndo
  let prev := prevCharBoundary b.input b.cursor
  (replaceRange b.input prev b.cursor ['\n']).map fun input => { b with input, cursor := prev + 1 }

/-- `input[..cursor].ends_with('\\')`. -/
def afterBackslash : Option Bool :=
  if 0 < b.cursor then
    (cutAt b.input b.cursor).map fun r => r.1.getLast? = some '\\'
  else some false

def suggestions : List SlashCmd := suggest (String.ofList b.input)

def acceptSuggestion : Option ByteBox :=
  if b.suggestions = [] then some b
  else
    b.suggestions[min b.suggIdx (b.suggestions.length - 1)]?.map fun cmd =>
      let input := '/' :: cmd.name.toList ++ (if cmd.args = "" then [] else [' '])
      { b with input, cursor := byteLen input, suggIdx := 0 }

def historyUp : Option ByteBox :=
  if b.promptHistory = [] then some b
  else
    let next :=
      match b.historyIdx with
      | none => b.promptHistory.length - 1
      | some n => n - 1
    b.promptHistory[next]?.map fun input =>
      { b with historyIdx := some next, input, cursor := byteLen input }

def historyDown : Option ByteBox :=
  match b.historyIdx with
  | none => some b
  | some cur =>
      if b.promptHistory.length ≤ cur + 1 then
        some { b with historyIdx := none, input := [], cursor := 0 }
      else
        b.promptHistory[cur + 1]?.map fun input =>
          { b with historyIdx := some (cur + 1), input, cursor := byteLen input }

def clear : ByteBox :=
  { b with input := [], cursor := 0, suggIdx := 0, historyIdx := none }

def onFirstRow : Option Bool :=
  (cursorVisualPos W (.wrapping 16) b.input b.cursor see.width).map fun p => p.1 = 0

def onLastRow : Option Bool :=
  (cursorVisualPos W (.wrapping 16) b.input b.cursor see.width).map fun p =>
    (inputVisualRows W b.input see.width).length % 2 ^ 16 ≤ (p.1 + 1) % 2 ^ 16

/-- What `submit` does to the input; the prompt it hands on is read with its pastes put back. -/
def submit : Option ByteBox :=
  if see.inOverlay then some b
  else
    let text := trimText b.input
    let b := { b with input := [], cursor := 0, historyIdx := none }
    if text = [] then some b
    else
      let b :=
        if text.head? = some '/' ∨ b.promptHistory.getLast? = some text then b
        else { b with promptHistory := b.promptHistory ++ [text] }
      (inflateBytes b.pastes.stash text).map fun _ => b

/-- `edit_in_external_editor`; the newlines at the end of the file are dropped. -/
def edit : ByteBox :=
  match see.edited with
  | some text =>
      let input := text.rdropWhile fun c => c = '\n'
      { b with input, cursor := byteLen input, suggIdx := 0, historyIdx := none }
  | none => b

def chatKey (k : KeyEvent) : Option ByteBox :=
  match k.code with
  | .enter =>
      if k.modifiers.shift then b.pushUndo.insert ['\n']
      else do
        let slash ← b.afterBackslash
        if slash then b.newline else b.submit see
  | .backspace => b.backspace
  | .delete => b.delete
  | .left => some { b with cursor := prevCharBoundary b.input b.cursor }
  | .right => some { b with cursor := nextCharBoundary b.input b.cursor }
  | .up => do
      let first ← b.onFirstRow W see
      if first then b.historyUp else some b
  | .down => do
      let last ← b.onLastRow W see
      if last then b.historyDown else some b
  | .home =>
      if k.modifiers.shift then some b
      else some { b with cursor := visualRowStart W b.input b.cursor see.width }
  | .end =>
      if k.modifiers.shift then some b
      else (visualRowEnd W b.input b.cursor see.width).map fun cursor => { b with cursor }
  | .char c => b.pushUndo.insert [c]
  | .esc =>
      if see.streaming then some b
      else if b.input = [] then some b
      else if see.clearArmed then some b.pushUndo.clear
      else some b
  | .pageUp | .pageDown | .tab | .other => some b

def altKey (k : KeyEvent) : Option ByteBox :=
  match k.code, k.modifiers.alt with
  | .char 'p', true | .char 'P', true => some b
  | _, _ => b.chatKey W see k

def suggestKey (k : KeyEvent) : Option ByteBox :=
  let suggs := b.suggestions
  if suggs = [] then b.altKey W see k
  else
    match k.code with
    | .up =>
        some { b with suggIdx := if b.suggIdx = 0 then suggs.length - 1 else b.suggIdx - 1 }
    | .down => some { b with suggIdx := (b.suggIdx + 1) % suggs.length }
    | .tab => b.acceptSuggestion
    | .enter =>
        let raw := b.input.dropWhile fun c => c = '/'
        if suggs.any fun c => c.name.toList = raw then b.submit see else b.acceptSuggestion
    | .esc => some { b with input := [], cursor := 0, suggIdx := 0 }
    | _ => b.altKey W see k

/-- The keys that come after Ctrl was looked at; an overlay takes them all. -/
def plainKey (k : KeyEvent) : Option ByteBox :=
  if see.inOverlay then some b else b.suggestKey W see k

/-- What `handle_key` does to the input; `none` where it panics. -/
def handleKey (k : KeyEvent) : Option ByteBox :=
  match k.code, k.modifiers.control with
  | .char '_', true => some (b.popUndo.getD b)
  | .char 'g', true => some (b.pushUndo.edit see)
  | .char 'c', true =>
      if see.exitArmed || see.streaming || see.inOverlay || b.input = [] then some b
      else some b.clear
  | .char 'd', true | .char 'l', true => some b
  | _, _ => b.plainKey W see k

def event : TermEvent → Option ByteBox
  | .key k => b.handleKey W see k
  | .paste s =>
      match see.view with
      | .browser _ => some b
      | .chat | .doctor => b.insertPaste s.toList

def run (events : List (Glance × TermEvent)) : Option ByteBox :=
  events.foldlM (fun b e => b.event W e.1 e.2) b

/-- The cursor and those of the undo ring are on boundaries, and the place in the history is one of
its prompts. -/
structure Valid : Prop where
  cursor : isCharBoundary b.input b.cursor = true
  undo : ∀ s ∈ b.inputUndo, isCharBoundary s.1 s.2 = true
  history : ∀ n, b.historyIdx = some n → n < b.promptHistory.length

def Keeps (o : Option ByteBox) : Prop := ∃ b, o = some b ∧ b.Valid

theorem Valid.new : new.Valid where
  cursor := rfl
  undo := List.forall_mem_nil _
  history _ h := by cases h

variable {W see b}

theorem Valid.keeps (h : b.Valid) : Keeps (some b) := ⟨b, rfl, h⟩

theorem Valid.moved (h : b.Valid) {cs : List Char} {i : Nat} (hi : isCharBoundary cs i = true) :
    ({ b with input := cs, cursor := i } : ByteBox).Valid :=
  ⟨hi, h.undo, h.history⟩

theorem Valid.edited (h : b.Valid) {edit : Option (List Char)} {cs : List Char} {i : Nat}
    (hedit : edit = some cs) (hi : isCharBoundary cs i = true) :
    Keeps (edit.map fun input => { b with input, cursor := i }) :=
  ⟨_, by rw [hedit, Option.map_some], h.moved hi⟩

theorem Valid.pushUndo (h : b.Valid) : b.pushUndo.Valid where
  cursor := h.cursor
  undo := by
    intro s hs
    rcases List.mem_append.mp hs with hs | hs
    · refine h.undo s ?_
      split at hs
      · exact List.mem_of_mem_tail hs
      · exact hs
    · obtain rfl := List.mem_singleton.mp hs
      exact h.cursor
  history := h.history

theorem Valid.popUndo (h : b.Valid) {b' : ByteBox} (hb : b.popUndo = some b') : b'.Valid := by
  obtain ⟨s, hs, rfl⟩ := Option.map_eq_some_iff.mp hb
  refine ⟨h.undo s (List.mem_of_getLast? hs), ?_, fun _ hn => by cases hn⟩
  intro s' hs'
  exact h.undo s' (List.mem_of_mem_dropLast hs')

theorem Valid.insert (h : b.Valid) (s : List Char) : Keeps (b.insert s) := by
  obtain ⟨front, back, hinput, hcursor⟩ := isCharBoundary_iff.mp h.cursor
  have hedit : insertStr b.input b.cursor s = some (front ++ s ++ back) := by
    rw [hinput, ← hcursor, insertStr_byteLen]
  refine h.edited hedit ?_
  rw [← hcursor, ← byteLen_append]
  exact isCharBoundary_append _ _

theorem Valid.insertPaste (h : b.Valid) (s : List Char) : Keeps (b.insertPaste s) := by
  have hsome : ∃ r, pasteBody false b.pastes s = some r := by
    rw [pasteBody]
    split
    · exact ⟨_, rfl⟩
    · exact ⟨_, rfl⟩
  obtain ⟨r, hr⟩ := hsome
  have hpastes : ({ b with pastes := r.1 } : ByteBox).Valid := ⟨h.cursor, h.undo, h.history⟩
  obtain ⟨b', hb', hvalid⟩ := hpastes.insert r.2
  refine ⟨{ b' with historyIdx := none }, ?_, hvalid.cursor, hvalid.undo, fun _ hn => by cases hn⟩
  simp only [ByteBox.insertPaste, hr, hb', Option.bind_eq_bind, Option.bind_some, Option.pure_def]

theorem Valid.before (h : b.Valid) (hpos : 0 < b.cursor) :
    ∃ front c back, b.input = front ++ [c] ++ back ∧ byteLen (front ++ [c]) = b.cursor ∧
      prevCharBoundary b.input b.cursor = byteLen front := by
  obtain ⟨front, back, hinput, hcursor⟩ := isCharBoundary_iff.mp h.cursor
  rcases List.eq_nil_or_concat front with rfl | ⟨front, c, rfl⟩
  · rw [byteLen_nil] at hcursor
    omega
  · rw [List.concat_eq_append] at hinput hcursor
    refine ⟨front, c, back, hinput, hcursor, ?_⟩
    rw [hinput, ← hcursor, List.append_assoc, List.singleton_append, prevCharBoundary_append]

private theorem Valid.replace_before (h : b.Valid) (hpos : 0 < b.cursor) (s : List Char) :
    ∃ cs, replaceRange b.input (prevCharBoundary b.input b.cursor) b.cursor s = some cs ∧
      isCharBoundary cs (prevCharBoundary b.input b.cursor + byteLen s) = true := by
  obtain ⟨front, c, back, hinput, hcursor, hprev⟩ := h.before hpos
  refine ⟨front ++ s ++ back, ?_, ?_⟩
  · rw [hprev, hinput, ← hcursor, replaceRange_byteLen]
  · rw [hprev, ← byteLen_append]
    exact isCharBoundary_append _ _

theorem Valid.backspace (h : b.Valid) : Keeps b.backspace := by
  unfold ByteBox.backspace
  split
  · rename_i hpos
    obtain ⟨cs, hedit, hcs⟩ := h.pushUndo.replace_before hpos []
    exact h.pushUndo.edited hedit hcs
  · exact h.keeps

theorem Valid.newline (h : b.Valid) (hpos : 0 < b.cursor) : Keeps b.newline := by
  obtain ⟨cs, hedit, hcs⟩ := h.pushUndo.replace_before hpos ['\n']
  exact h.pushUndo.edited hedit hcs

theorem Valid.delete (h : b.Valid) : Keeps b.delete := by
  unfold ByteBox.delete
  split
  · rename_i hlt
    obtain ⟨front, back, hinput, hcursor⟩ := isCharBoundary_iff.mp h.pushUndo.cursor
    cases back with
    | nil =>
        rw [List.append_nil] at hinput
        rw [← hinput] at hcursor
        exact absurd hlt (Nat.not_lt.mpr (Nat.le_of_eq hcursor))
    | cons c back =>
        have hedit : replaceRange b.pushUndo.input b.pushUndo.cursor
            (nextCharBoundary b.pushUndo.input b.pushUndo.cursor) [] =
              some (front ++ [] ++ back) := by
          have hsplit : front ++ c :: back = front ++ [c] ++ back := by simp
          rw [hinput, ← hcursor, nextCharBoundary_append, hsplit, replaceRange_byteLen]
        refine h.pushUndo.edited hedit ?_
        rw [← hcursor, List.append_nil]
        exact isCharBoundary_append _ _
  · exact h.keeps

theorem Valid.whole (h : b.Valid) (input : List Char) (suggIdx : Nat) {historyIdx : Option Nat}
    (hidx : ∀ n, historyIdx = some n → n < b.promptHistory.length) :
    ({ b with input, cursor := byteLen input, suggIdx, historyIdx } : ByteBox).Valid :=
  ⟨isCharBoundary_byteLen input, h.undo, hidx⟩

private theorem Valid.emptied (h : b.Valid) (suggIdx : Nat) :
    ({ b with input := [], cursor := 0, suggIdx, historyIdx := none } : ByteBox).Valid :=
  h.whole [] suggIdx fun _ hn => by cases hn

theorem Valid.acceptSuggestion (h : b.Valid) : Keeps b.acceptSuggestion := by
  unfold ByteBox.acceptSuggestion
  split
  · exact h.keeps
  · rename_i hne
    have hpos := List.length_pos_iff.mpr hne
    have hidx : min b.suggIdx (b.suggestions.length - 1) < b.suggestions.length := by omega
    rw [List.getElem?_eq_getElem hidx, Option.map_some]
    exact (h.whole _ 0 h.history).keeps

theorem Valid.historyUp (h : b.Valid) : Keeps b.historyUp := by
  unfold ByteBox.historyUp
  split
  · exact h.keeps
  · rename_i hne
    have hpos := List.length_pos_iff.mpr hne
    have hstep : ∀ next < b.promptHistory.length,
        Keeps (b.promptHistory[next]?.map fun input =>
          { b with historyIdx := some next, input, cursor := byteLen input }) := by
      intro next hnext
      rw [List.getElem?_eq_getElem hnext, Option.map_some]
      exact (h.whole _ b.suggIdx fun n hn => Option.some.inj hn ▸ hnext).keeps
    cases hidx : b.historyIdx with
    | none => exact hstep (b.promptHistory.length - 1) (by omega)
    | some n =>
        have hlt := h.history n hidx
        exact hstep (n - 1) (by omega)

theorem Valid.historyDown (h : b.Valid) : Keeps b.historyDown := by
  unfold ByteBox.historyDown
  cases hidx : b.historyIdx with
  | none => exact h.keeps
  | some cur =>
      dsimp only
      split
      · exact (h.emptied b.suggIdx).keeps
      · rename_i hlt
        have hnext : cur + 1 < b.promptHistory.length := by omega
        rw [List.getElem?_eq_getElem hnext, Option.map_some]
        exact (h.whole _ b.suggIdx fun n hn => Option.some.inj hn ▸ hnext).keeps

theorem Valid.submit (h : b.Valid) : Keeps (b.submit see) := by
  unfold ByteBox.submit
  split
  · exact h.keeps
  · dsimp only
    have hempty := h.emptied b.suggIdx
    split
    · exact hempty.keeps
    · rw [inflateBytes_eq, Option.map_some]
      refine ⟨_, rfl, ?_⟩
      split
      · exact hempty
      · exact ⟨rfl, h.undo, fun _ hn => by cases hn⟩

theorem Valid.edit (h : b.Valid) : (b.edit see).Valid := by
  unfold ByteBox.edit
  split
  · exact h.whole _ 0 fun _ hn => by cases hn
  · exact h

private theorem tally_wrapping (n : Nat) : ∃ k, tally (.wrapping 16) n = some k := by
  induction n with
  | zero => exact ⟨0, rfl⟩
  | succ n ih =>
      obtain ⟨k, hk⟩ := ih
      exact ⟨(k + 1) % 2 ^ 16, by rw [tally, hk]; rfl⟩

theorem Valid.cursorVisualPos (h : b.Valid) (see : Glance) :
    ∃ p, cursorVisualPos W (.wrapping 16) b.input b.cursor see.width = some p := by
  obtain ⟨before, after, hinput, hcursor⟩ := isCharBoundary_iff.mp h.cursor
  obtain ⟨k, hk⟩ := tally_wrapping (visualRows W see.width before).done.length
  rw [hinput, ← hcursor, cursorVisualPos_eq _ see.width_pos, hk]
  exact ⟨_, rfl⟩

private theorem Valid.afterBackslash (h : b.Valid) :
    ∃ slash, b.afterBackslash = some slash ∧ (slash = true → 0 < b.cursor) := by
  obtain ⟨front, back, hinput, hcursor⟩ := isCharBoundary_iff.mp h.cursor
  unfold ByteBox.afterBackslash
  split
  · rename_i hpos
    rw [hinput, ← hcursor, cutAt_byteLen, Option.map_some]
    exact ⟨_, rfl, fun _ => hcursor ▸ hpos⟩
  · exact ⟨false, rfl, fun hf => by cases hf⟩

theorem Valid.chatKey (h : b.Valid) (k : KeyEvent) : Keeps (b.chatKey W see k) := by
  unfold ByteBox.chatKey
  cases k.code with
  | enter =>
      dsimp only
      split
      · exact h.pushUndo.insert _
      · obtain ⟨slash, hslash, hpos⟩ := h.afterBackslash
        rw [hslash, Option.bind_eq_bind, Option.bind_some]
        split
        · rename_i htrue
          exact h.newline (hpos htrue)
        · exact h.submit
  | backspace => exact h.backspace
  | delete => exact h.delete
  | left => exact (h.moved (prevCharBoundary_boundary h.cursor)).keeps
  | right => exact (h.moved (nextCharBoundary_boundary h.cursor)).keeps
  | up =>
      obtain ⟨p, hp⟩ := h.cursorVisualPos (W := W) see
      simp only [onFirstRow, hp, Option.map_some, Option.bind_eq_bind, Option.bind_some]
      split
      · exact h.historyUp
      · exact h.keeps
  | down =>
      obtain ⟨p, hp⟩ := h.cursorVisualPos (W := W) see
      simp only [onLastRow, hp, Option.map_some, Option.bind_eq_bind, Option.bind_some]
      split
      · exact h.historyDown
      · exact h.keeps
  | home =>
      dsimp only
      split
      · exact h.keeps
      · exact (h.moved (visualRowStart_boundary see.width_pos h.cursor)).keeps
  | «end» =>
      dsimp only
      split
      · exact h.keeps
      · obtain ⟨j, hj, hbound⟩ := visualRowEnd_boundary (W := W) see.width_pos h.cursor
        rw [hj, Option.map_some]
        exact (h.moved hbound).keeps
  | char c => exact h.pushUndo.insert _
  | esc =>
      dsimp only
      split
      · exact h.keeps
      · split
        · exact h.keeps
        · split
          · exact (h.pushUndo.emptied 0).keeps
          · exact h.keeps
  | pageUp | pageDown | tab | other => exact h.keeps

private theorem Valid.altKey (h : b.Valid) (k : KeyEvent) : Keeps (b.altKey W see k) := by
  unfold ByteBox.altKey
  split
  · exact h.keeps
  · exact h.keeps
  · exact h.chatKey k

theorem Valid.suggestKey (h : b.Valid) (k : KeyEvent) : Keeps (b.suggestKey W see k) := by
  unfold ByteBox.suggestKey
  dsimp only
  split
  · exact h.altKey k
  · split
    · exact Valid.keeps ⟨h.cursor, h.undo, h.history⟩
    · exact Valid.keeps ⟨h.cursor, h.undo, h.history⟩
    · exact h.acceptSuggestion
    · split
      · exact h.submit
      · exact h.acceptSuggestion
    · exact (h.whole [] 0 h.history).keeps
    · exact h.altKey k

theorem Valid.handleKey (h : b.Valid) (k : KeyEvent) : Keeps (b.handleKey W see k) := by
  unfold ByteBox.handleKey
  split
  · cases hundo : b.popUndo with
    | none => exact h.keeps
    | some b' => exact (h.popUndo hundo).keeps
  · exact h.pushUndo.edit.keeps
  · split
    · exact h.keeps
    · exact (h.emptied 0).keeps
  · exact h.keeps
  · exact h.keeps
  · unfold plainKey
    split
    · exact h.keeps
    · exact h.suggestKey k

/-- Whatever the terminal reports is handled, and leaves a valid edit point. -/
theorem Valid.event (h : b.Valid) (see : Glance) (e : TermEvent) : Keeps (b.event W see e) := by
  cases e with
  | key k => exact h.handleKey k
  | paste s =>
      unfold ByteBox.event
      dsimp only
      split
      · exact h.keeps
      · exact h.insertPaste _
      · exact h.insertPaste _

/-- The induction over the events. -/
theorem Valid.run (h : b.Valid) (events : List (Glance × TermEvent)) : Keeps (b.run W events) := by
  induction events generalizing b with
  | nil => exact h.keeps
  | cons e events ih =>
      obtain ⟨b', hb', hvalid⟩ := h.event (W := W) e.1 e.2
      rw [ByteBox.run, List.foldlM_cons, hb']
      exact ih hvalid

/-- From the initial state no key and no paste makes an edit or a slice panic, and the cursor is
always inside the input, on a boundary of its characters. -/
theorem cursor_is_edit_point (W : CharWidths) (events : List (Glance × TermEvent)) :
    ∃ b, new.run W events = some b ∧ b.cursor ≤ byteLen b.input ∧
      isCharBoundary b.input b.cursor = true := by
  obtain ⟨b, hb, hvalid⟩ := Valid.new.run (W := W) events
  exact ⟨b, hb, le_of_isCharBoundary hvalid.cursor, hvalid.cursor⟩

end ByteBox

end IntelNav.Tui
