import IntelNav.Layout.Rows
import IntelNav.Reading.Cursor
import Mathlib.Tactic.Common

/-! The geometry of the input box (`crates/app/src/tui/wrap.rs`). Texts are their characters, and
offsets count the bytes of their UTF-8 form. -/

set_option autoImplicit false
set_option relaxedAutoImplicit false

namespace IntelNav.Tui

open Layout Reading

/-- `UnicodeWidthChar::width`: the columns of a character; a control character has no width. -/
structure CharWidths where
  width : Char → Option Nat
  fits : ∀ c n, width c = some n → n < 2 ^ 16

def CharWidths.columns (W : CharWidths) (c : Char) : Nat := (W.width c).getD 0

theorem CharWidths.columns_lt (W : CharWidths) (c : Char) : W.columns c < 2 ^ 16 := by
  rw [columns]
  cases h : W.width c with
  | none => exact Nat.two_pow_pos 16
  | some n => exact W.fits c n h

def byteLen (cs : List Char) : Nat := (cs.map Char.utf8Size).sum

/-- `str::char_indices`, from an offset on. -/
def charIndices : Nat → List Char → List (Nat × Char)
  | _, [] => []
  | i, c :: cs => (i, c) :: charIndices (i + c.utf8Size) cs

/-- `&s[i..]`; there is none inside a character or past the end. -/
def sliceFrom : List Char → Nat → Option (List Char)
  | cs, 0 => some cs
  | [], _ + 1 => none
  | c :: cs, i + 1 => if c.utf8Size ≤ i + 1 then sliceFrom cs (i + 1 - c.utf8Size) else none

variable (W : CharWidths)

/-- The rows that a wrapping loop has put out, its current row and that row's columns. -/
structure Wrapping where
  out : List (List Char)
  cur : List Char
  curW : Nat

def wrapChar (width : Nat) (s : Wrapping) (c : Char) : Wrapping :=
  let cw := W.columns c
  let s := if width < s.curW + cw then ⟨s.out ++ [s.cur], [], 0⟩ else s
  ⟨s.out, s.cur ++ [c], s.curW + cw⟩

def wrapParagraph (width : Nat) (out : List (List Char)) (para : List Char) : List (List Char) :=
  if para = [] then out ++ [[]]
  else
    let s := para.foldl (wrapChar W width) ⟨out, [], 0⟩
    s.out ++ [s.cur]

def inputVisualRows (input : List Char) (width : Nat) : List (List Char) :=
  if width = 0 then [input]
  else
    let out := (input.splitOn '\n').foldl (wrapParagraph W width) []
    if out = [] then [[]] else out

/-- One character of `cursor_visual_pos`: the row, counted in `ar`, and the columns on it. -/
def posStep (ar : Arith) (width : Nat) (s : Nat × Nat) (p : Nat × Char) : Option (Nat × Nat) :=
  let cw := W.columns p.2
  if p.2 = '\n' then (ar.add s.1 1).map (·, 0)
  else if width < s.2 + cw then (ar.add s.1 1).map (·, 0 + cw)
  else some (s.1, s.2 + cw)

def cursorVisualPos (ar : Arith) (input : List Char) (cursor width : Nat) : Option (Nat × Nat) :=
  if width = 0 then some (0, 0)
  else do
    let seen := (charIndices 0 input).takeWhile fun p => p.1 < cursor
    let s ← seen.foldlM (posStep W ar width) (0, 0)
    pure (s.1, s.2 % 2 ^ 16)

/-- One character of `visual_row_start`: where the row begins, and the columns on it. -/
def rowStartStep (width : Nat) (s : Nat × Nat) (p : Nat × Char) : Nat × Nat :=
  let cw := W.columns p.2
  if p.2 = '\n' then (p.1 + 1, 0)
  else if width < s.2 + cw then (p.1, 0 + cw)
  else (s.1, s.2 + cw)

def visualRowStart (input : List Char) (cursor width : Nat) : Nat :=
  if width = 0 then 0
  else
    let seen := (charIndices 0 input).takeWhile fun p => p.1 < cursor
    (seen.foldl (rowStartStep W width) (0, 0)).1

def rowEndFrom (width : Nat) : Nat → List (Nat × Char) → Option Nat
  | _, [] => none
  | colW, (abs, c) :: rest =>
      if c = '\n' then some abs
      else if width < colW + W.columns c then some abs
      else rowEndFrom width (colW + W.columns c) rest

def visualRowEnd (input : List Char) (cursor width : Nat) : Option Nat :=
  if width = 0 then some (byteLen input)
  else do
    let start := visualRowStart W input cursor width
    let rest ← sliceFrom input start
    pure ((rowEndFrom W width 0 (charIndices start rest)).getD (byteLen input))

@[simp] theorem byteLen_nil : byteLen [] = 0 := rfl

@[simp] theorem byteLen_cons (c : Char) (cs : List Char) :
    byteLen (c :: cs) = c.utf8Size + byteLen cs := by
  simp [byteLen]

@[simp] theorem byteLen_append (as bs : List Char) :
    byteLen (as ++ bs) = byteLen as + byteLen bs := by
  simp [byteLen]

private theorem charIndices_append (i : Nat) (as bs : List Char) :
    charIndices i (as ++ bs) = charIndices i as ++ charIndices (i + byteLen as) bs := by
  induction as generalizing i with
  | nil => simp [charIndices]
  | cons a as ih =>
      rw [List.cons_append, charIndices, ih, charIndices, byteLen_cons, Nat.add_assoc]
      rfl

private theorem lt_of_mem_charIndices {i : Nat} {cs : List Char} {p : Nat × Char}
    (h : p ∈ charIndices i cs) : p.1 < i + byteLen cs := by
  induction cs generalizing i with
  | nil => cases h
  | cons c cs ih =>
      have hpos := c.utf8Size_pos
      rw [byteLen_cons]
      rcases List.mem_cons.mp h with rfl | h
      · dsimp only
        omega
      · have hlt := ih h
        omega

theorem takeWhile_charIndices (before after : List Char) :
    ((charIndices 0 (before ++ after)).takeWhile fun p => decide (p.1 < byteLen before)) =
      charIndices 0 before := by
  rw [charIndices_append, List.takeWhile_append_of_pos]
  · rw [Nat.zero_add]
    cases after with
    | nil => simp [charIndices]
    | cons a after => simp [charIndices]
  · intro p hp
    have hlt := lt_of_mem_charIndices hp
    rw [Nat.zero_add] at hlt
    exact decide_eq_true hlt

theorem sliceFrom_byteLen (as bs : List Char) : sliceFrom (as ++ bs) (byteLen as) = some bs := by
  induction as with
  | nil => cases bs <;> rfl
  | cons a as ih =>
      have hpos := a.utf8Size_pos
      have hlen : byteLen (a :: as) = (a.utf8Size + byteLen as - 1) + 1 := by
        rw [byteLen_cons]
        omega
      rw [hlen, List.cons_append, sliceFrom, if_pos (by omega)]
      have hrest : a.utf8Size + byteLen as - 1 + 1 - a.utf8Size = byteLen as := by omega
      rw [hrest, ih]

def isNewline (c : Char) : Bool := c == '\n'

theorem isNewline_eq_false {c : Char} : isNewline c = false ↔ c ≠ '\n' := by simp [isNewline]

/-- The rows of a text, each with the newline that ended it if it was one. -/
abbrev visualRows (width : Nat) (input : List Char) : Rows Char :=
  fill W.columns isNewline width input

end IntelNav.Tui
