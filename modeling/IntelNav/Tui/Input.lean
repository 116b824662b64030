import Mathlib.Tactic.Common

/-! The input box of the chat (`crates/app/src/tui/mod.rs`) and the catalog of slash commands
(`crates/app/src/slash.rs`). -/

set_option autoImplicit false
set_option relaxedAutoImplicit false

namespace IntelNav.Tui

structure Modifiers where
  control : Bool
  alt : Bool
  shift : Bool

inductive KeyCode
  | char (c : Char)
  | enter | backspace | delete | left | right | up | down | home | end | pageUp | pageDown | tab
  | esc | other

structure KeyEvent where
  code : KeyCode
  modifiers : Modifiers

structure SlashCmd where
  name : String
  args : String

/-- `slash::COMMANDS`. -/
def commands : List SlashCmd :=
  [⟨"help", ""⟩, ⟨"clear", ""⟩, ⟨"mode", "<local|network>"⟩, ⟨"model", "<name>"⟩, ⟨"models", ""⟩,
    ⟨"hosting", ""⟩, ⟨"leave", "[<n> | <cid> <start> <end>]"⟩,
    ⟨"service", "<install|status|uninstall>"⟩, ⟨"keybindings", ""⟩, ⟨"doctor", ""⟩,
    ⟨"quorum", "<n>"⟩, ⟨"tier", "<lan|cont|wan>"⟩, ⟨"peers", "[host:port,... split,...]"⟩,
    ⟨"draft", "[path.gguf k]"⟩, ⟨"wire", "<fp16|int8>"⟩, ⟨"quit", ""⟩]

/-- `char::is_whitespace`. -/
def isWhitespace (c : Char) : Bool :=
  let n := c.toNat
  9 ≤ n && n ≤ 13 || n = 0x20 || n = 0x85 || n = 0xa0 || n = 0x1680 ||
    0x2000 ≤ n && n ≤ 0x200a || n = 0x2028 || n = 0x2029 || n = 0x202f || n = 0x205f || n = 0x3000

def trim (s : String) : String :=
  String.ofList ((s.toList.dropWhile isWhitespace).reverse.dropWhile isWhitespace).reverse

def splitWhitespace (s : String) : List String :=
  ((s.toList.splitOnP isWhitespace).filter (· ≠ [])).map String.ofList

def toAsciiLowercase (s : String) : String :=
  String.ofList (s.toList.map Char.toLower)

/-- The commands the input could become; `OVERLAY_MAX_ITEMS` leaves room for all of them. -/
def suggest (input : String) : List SlashCmd :=
  match input.toList with
  | '/' :: rest =>
      if rest.any isWhitespace then []
      else commands.filter fun c => (rest.map Char.toLower).isPrefixOf c.name.toList
  | _ => []

/-- What is typed, with the number of characters before the cursor, the highlighted suggestion, the
prompts submitted before, and the last inputs for undo, the latest last. -/
structure InputBox where
  input : String
  cursor : Nat
  suggIdx : Nat
  promptHistory : List String
  historyIdx : Option Nat
  inputUndo : List (String × Nat)

def undoHistoryCap : Nat := 32

namespace InputBox

def empty : InputBox := ⟨"", 0, 0, [], none, []⟩

variable (b : InputBox)

def pushUndo : InputBox :=
  let ring := if undoHistoryCap ≤ b.inputUndo.length then b.inputUndo.tail else b.inputUndo
  { b with inputUndo := ring ++ [(b.input, b.cursor)] }

def popUndo : Option InputBox :=
  b.inputUndo.getLast?.map fun (s, c) =>
    { b with
      input := s, cursor := c, historyIdx := none, suggIdx := 0, inputUndo := b.inputUndo.dropLast }

/-- The characters from `i` to `j` are replaced. -/
def replaceRange (i j : Nat) (s : String) : InputBox :=
  { b with input := String.ofList (b.input.toList.take i ++ s.toList ++ b.input.toList.drop j) }

def insertStr (s : String) : InputBox :=
  { b.replaceRange b.cursor b.cursor s with cursor := b.cursor + s.length }

def insertPaste (body : String) : InputBox :=
  { b.insertStr body with historyIdx := none }

def backspace : InputBox :=
  if b.cursor = 0 then b
  else { b.pushUndo.replaceRange (b.cursor - 1) b.cursor "" with cursor := b.cursor - 1 }

def delete : InputBox :=
  if b.cursor < b.input.length then b.pushUndo.replaceRange b.cursor (b.cursor + 1) "" else b

def newline : InputBox :=
  { b.pushUndo.replaceRange (b.cursor - 1) b.cursor "\n" with cursor := b.cursor }

def afterBackslash : Bool :=
  (b.input.toList.take b.cursor).getLast? = some '\\'

def suggestions : List SlashCmd := suggest b.input

def acceptSuggestion : InputBox :=
  match b.suggestions[min b.suggIdx (b.suggestions.length - 1)]? with
  | none => b
  | some cmd =>
      let input := "/" ++ cmd.name ++ (if cmd.args = "" then "" else " ")
      { b with input, cursor := input.length, suggIdx := 0 }

def historyUp : InputBox :=
  if b.promptHistory = [] then b
  else
    let next :=
      match b.historyIdx with
      | none => b.promptHistory.length - 1
      | some n => n - 1
    let input := b.promptHistory.getD next ""
    { b with historyIdx := some next, input, cursor := input.length }

def historyDown : InputBox :=
  match b.historyIdx with
  | none => b
  | some cur =>
      if b.promptHistory.length ≤ cur + 1 then
        { b with historyIdx := none, input := "", cursor := 0 }
      else
        let input := b.promptHistory.getD (cur + 1) ""
        { b with historyIdx := some (cur + 1), input, cursor := input.length }

def clear : InputBox :=
  { b with input := "", cursor := 0, suggIdx := 0, historyIdx := none }

/-- The input is taken, and a prompt that is not a command is remembered. -/
def take : String × InputBox :=
  let text := trim b.input
  let b := { b with input := "", cursor := 0, historyIdx := none }
  if text = "" ∨ text.toList.head? = some '/' ∨ b.promptHistory.getLast? = some text then (text, b)
  else (text, { b with promptHistory := b.promptHistory ++ [text] })

end InputBox

end IntelNav.Tui
