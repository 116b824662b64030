import IntelNav.Tui.Wrap

/-! The cursor is shown where the wrapped rows have it: both loops lay out the same rows. -/

set_option autoImplicit false
set_option relaxedAutoImplicit false

namespace IntelNav.Tui

open Layout Reading

variable {W : CharWidths} {width : Nat}

/-- The loop over a paragraph stands where the rows of the input do. -/
structure Wrapping.Shows (W : CharWidths) (s : Wrapping) (r : Rows Char) : Prop where
  out : s.out = r.done.map Prod.fst
  cur : s.cur = r.row
  curW : s.curW = totalWidth W.columns r.row

theorem Wrapping.Shows.wrapChar {s : Wrapping} {r : Rows Char} (h : s.Shows W r) (width : Nat)
    {isBreak : Char → Bool} {c : Char} (hc : isBreak c = false) :
    (wrapChar W width s c).Shows W (place W.columns isBreak width r c) := by
  obtain ⟨hout, hcur, hw⟩ := h
  by_cases hwrap : width < totalWidth W.columns r.row + W.columns c
  · have hs : width < s.curW + W.columns c := hw ▸ hwrap
    rw [place_wrap hc hwrap, Tui.wrapChar]
    simp only [if_pos hs]
    refine ⟨?_, rfl, ?_⟩
    · simp [hout, hcur]
    · simp
  · have hs : ¬width < s.curW + W.columns c := hw ▸ hwrap
    rw [place_fits hc (Nat.not_lt.mp hwrap), Tui.wrapChar]
    simp only [if_neg hs]
    exact ⟨hout, by rw [hcur], by simp [hw]⟩

theorem Wrapping.Shows.foldl {s : Wrapping} {r : Rows Char} (h : s.Shows W r) (width : Nat)
    (isBreak : Char → Bool) {cs : List Char} (hcs : ∀ c ∈ cs, isBreak c = false) :
    (cs.foldl (Tui.wrapChar W width) s).Shows W (cs.foldl (place W.columns isBreak width) r) := by
  induction cs generalizing s r with
  | nil => exact h
  | cons c cs ih =>
      have hstep := h.wrapChar width (hcs c List.mem_cons_self)
      exact ih hstep fun d hd => hcs d (List.mem_cons_of_mem c hd)

private theorem wrapParagraph_eq {r : Rows Char} (hr : r.row = []) {para : List Char}
    (hp : '\n' ∉ para) :
    wrapParagraph W width (r.done.map Prod.fst) para =
      (para.foldl (place W.columns isNewline width) r).all := by
  have hbreak : ∀ c ∈ para, isNewline c = false := by
    intro c hc
    apply isNewline_eq_false.mpr
    rintro rfl
    exact hp hc
  have hstart : Wrapping.Shows W ⟨r.done.map Prod.fst, [], 0⟩ r :=
    ⟨rfl, hr.symm, by rw [hr, totalWidth_nil]⟩
  obtain ⟨hout, hcur, -⟩ := hstart.foldl width isNewline hbreak
  rw [Rows.all, ← hout, ← hcur, wrapParagraph]
  split
  · rename_i hnil
    rw [hnil]
    rfl
  · rfl

private theorem foldl_wrapParagraph {r : Rows Char} (hr : r.row = []) (input : List Char) :
    (input.splitOn '\n').foldl (wrapParagraph W width) (r.done.map Prod.fst) =
      (input.foldl (place W.columns isNewline width) r).all := by
  by_cases hmem : '\n' ∈ input
  · obtain ⟨para, rest, rfl, hpara⟩ := List.eq_append_cons_of_mem hmem
    have hbreak : isNewline '\n' = true := rfl
    -- the newline ends the last row of the paragraph
    rw [List.splitOn_append_cons_self_of_not_mem hpara, List.foldl_cons, wrapParagraph_eq hr hpara,
      List.foldl_append, List.foldl_cons, place_break hbreak]
    rw [← foldl_wrapParagraph rfl rest]
    simp [Rows.all]
  · rw [List.splitOn_eq_singleton hmem, List.foldl_cons, List.foldl_nil, wrapParagraph_eq hr hmem]
termination_by input.length

theorem inputVisualRows_eq (hw : 0 < width) (input : List Char) :
    inputVisualRows W input width = (visualRows W width input).all := by
  have hrows : (input.splitOn '\n').foldl (wrapParagraph W width) [] =
      (visualRows W width input).all :=
    foldl_wrapParagraph (r := .start) rfl input
  have hne : (visualRows W width input).all ≠ [] := by
    apply List.ne_nil_of_length_pos
    rw [Rows.length_all]
    omega
  rw [inputVisualRows, if_neg (Nat.pos_iff_ne_zero.mp hw)]
  simp only [hrows]
  exact if_neg hne

def tally (ar : Arith) : Nat → Option Nat
  | 0 => some 0
  | n + 1 => (tally ar n).bind fun k => ar.add k 1

theorem tally_below {w : Nat} {ar : Arith} (har : ar.Words w) {n : Nat} (h : n < 2 ^ w) :
    tally ar n = some n := by
  induction n with
  | zero => rfl
  | succ n ih => rw [tally, ih (Nat.lt_of_succ_lt h), Option.bind_some, har.below n 1 h]

private theorem posStep_place (W : CharWidths) (width : Nat) (ar : Arith) (r : Rows Char) (i : Nat)
    (c : Char) :
    ((tally ar r.done.length).bind fun n =>
        posStep W ar width (n, totalWidth W.columns r.row) (i, c)) =
      (tally ar (place W.columns isNewline width r c).done.length).map fun n =>
        (n, totalWidth W.columns (place W.columns isNewline width r c).row) := by
  cases hb : isNewline c with
  | true =>
      have hc : c = '\n' := by simpa [isNewline] using hb
      rw [place_break hb]
      simp only [posStep, if_pos hc, List.length_append, List.length_singleton, tally,
        totalWidth_nil]
      rw [Option.map_bind]
      rfl
  | false =>
      have hc : ¬c = '\n' := isNewline_eq_false.mp hb
      by_cases hwrap : width < totalWidth W.columns r.row + W.columns c
      · rw [place_wrap hb hwrap]
        simp only [posStep, if_neg hc, if_pos hwrap, List.length_append, List.length_singleton,
          tally, totalWidth_singleton, Nat.zero_add]
        rw [Option.map_bind]
        rfl
      · rw [place_fits hb (Nat.not_lt.mp hwrap)]
        simp only [posStep, if_neg hc, if_neg hwrap, totalWidth_append, totalWidth_singleton]
        rw [Option.map_eq_bind]
        rfl

private theorem foldlM_posStep (W : CharWidths) (width : Nat) (ar : Arith) (r : Rows Char) (i : Nat)
    (cs : List Char) :
    ((tally ar r.done.length).bind fun n =>
        (charIndices i cs).foldlM (posStep W ar width) (n, totalWidth W.columns r.row)) =
      (tally ar (cs.foldl (place W.columns isNewline width) r).done.length).map fun n =>
        (n, totalWidth W.columns (cs.foldl (place W.columns isNewline width) r).row) := by
  induction cs generalizing r i with
  | nil =>
      rw [Option.map_eq_bind]
      rfl
  | cons c cs ih =>
      rw [List.foldl_cons, ← ih (place W.columns isNewline width r c) (i + c.utf8Size)]
      have hstep := posStep_place W width ar r i c
      have hassoc : ((tally ar r.done.length).bind fun n =>
          (charIndices i (c :: cs)).foldlM (posStep W ar width) (n, totalWidth W.columns r.row)) =
          ((tally ar r.done.length).bind fun n =>
            posStep W ar width (n, totalWidth W.columns r.row) (i, c)).bind fun s =>
              (charIndices (i + c.utf8Size) cs).foldlM (posStep W ar width) s := by
        rw [Option.bind_assoc]
        rfl
      rw [hassoc, hstep, Option.bind_map]
      rfl

theorem cursorVisualPos_eq (ar : Arith) (hw : 0 < width) (before after : List Char) :
    cursorVisualPos W ar (before ++ after) (byteLen before) width =
      (tally ar (visualRows W width before).done.length).map fun n =>
        (n, totalWidth W.columns (visualRows W width before).row % 2 ^ 16) := by
  have hfold := foldlM_posStep W width ar .start 0 before
  have hstart : tally ar (Rows.start : Rows Char).done.length = some 0 := rfl
  rw [hstart, Option.bind_some] at hfold
  rw [cursorVisualPos, if_neg (Nat.pos_iff_ne_zero.mp hw)]
  simp only [takeWhile_charIndices]
  change ((charIndices 0 before).foldlM (posStep W ar width) (0, 0)).bind _ = _
  have hzero : (0, totalWidth W.columns (Rows.start : Rows Char).row) = (0, 0) := rfl
  rw [hzero] at hfold
  rw [hfold, Option.bind_map]
  rw [Option.map_eq_bind]
  rfl

theorem columns_lt (hw : width < 2 ^ 16) (input : List Char) :
    totalWidth W.columns (visualRows W width input).row < 2 ^ 16 := by
  have hmem : (visualRows W width input).row ∈ (visualRows W width input).all := by
    simp [Rows.all]
  rcases fill_fits W.columns isNewline width input _ hmem with hle | ⟨c, -, hc⟩
  · omega
  · rw [hc, totalWidth_singleton]
    exact W.columns_lt c

def rejoin : List (List Char) → List (List Char) → List Char
  | row :: rows, brk :: breaks => row ++ brk ++ rejoin rows breaks
  | _, _ => []

private theorem rejoin_done (done : List (List Char × List Char)) :
    rejoin (done.map Prod.fst) (done.map Prod.snd) = done.flatMap fun d => d.1 ++ d.2 := by
  induction done with
  | nil => rfl
  | cons d done ih => rw [List.map_cons, List.map_cons, rejoin, ih, List.flatMap_cons]

private theorem rejoin_rows {r s : Rows Char} (h : r.Extends s) :
    rejoin (s.all.take r.done.length) ((s.done.map Prod.snd).take r.done.length) ++ r.row =
      r.text := by
  obtain ⟨rest, hrest⟩ := h.done_prefix
  have hrows : s.all.take r.done.length = r.done.map Prod.fst := by
    rw [Rows.all, ← hrest, List.map_append, List.append_assoc, List.take_append_of_le_length]
    · rw [List.take_of_length_le (by simp)]
    · simp
  have hbreaks : (s.done.map Prod.snd).take r.done.length = r.done.map Prod.snd := by
    rw [← hrest, List.map_append, List.take_append_of_le_length]
    · rw [List.take_of_length_le (by simp)]
    · simp
  rw [hrows, hbreaks, rejoin_done, Rows.text]

/-- The cursor before `after` stands in the row that is shown there, after as many columns as are
counted; the rows before it, with the breaks between them, hold the rest of the text before it. -/
def CursorOnRow (W : CharWidths) (ar : Arith) (width : Nat) (before after : List Char)
    (rows breaks : List (List Char)) : Prop :=
  ∃ r c row shown,
    cursorVisualPos W ar (before ++ after) (byteLen before) width = some (r, c) ∧
    rows[r]? = some row ∧ shown <+: row ∧ totalWidth W.columns shown = c ∧
    rejoin (rows.take r) (breaks.take r) ++ shown = before ∧
    (after = [] → r + 1 = rows.length)

/-- Between two rows stands a newline or nothing, no row holds one, and the cursor is on its row
wherever it is in the input. -/
def CursorAgrees (W : CharWidths) (ar : Arith) (width : Nat) (input : List Char)
    (rows : List (List Char)) : Prop :=
  ∃ breaks : List (List Char),
    breaks.length + 1 = rows.length ∧ (∀ b ∈ breaks, b = [] ∨ b = ['\n']) ∧
    (∀ row ∈ rows, '\n' ∉ row) ∧
    ∀ before after, before ++ after = input → CursorOnRow W ar width before after rows breaks

private theorem cursorOnRow_visualRows {ar : Arith} (har : ar.Words 16) (hpos : 0 < width)
    (hwidth : width < 2 ^ 16) {before after : List Char}
    (hrows : (visualRows W width (before ++ after)).done.length + 1 < 2 ^ 16) :
    CursorOnRow W ar width before after (visualRows W width (before ++ after)).all
      ((visualRows W width (before ++ after)).done.map Prod.snd) := by
  have hext : (visualRows W width before).Extends (visualRows W width (before ++ after)) :=
    fill_extends W.columns isNewline width before after
  have hle := hext.done_prefix.length_le
  have hlt : (visualRows W width before).done.length < 2 ^ 16 := by omega
  have htally := tally_below har hlt
  obtain ⟨row, hrow, hshown⟩ := hext.row_prefix
  refine ⟨_, _, row, (visualRows W width before).row, ?_, hrow, hshown, rfl, ?_, ?_⟩
  · rw [cursorVisualPos_eq ar hpos, htally, Nat.mod_eq_of_lt (columns_lt hwidth before)]
    rfl
  · rw [rejoin_rows hext, fill_text]
  · rintro rfl
    rw [List.append_nil, Rows.length_all]

theorem cursor_agrees (W : CharWidths) {ar : Arith} (har : ar.Words 16) {width : Nat}
    (hpos : 0 < width) (hwidth : width < 2 ^ 16) (input : List Char)
    (hrows : (inputVisualRows W input width).length < 2 ^ 16) :
    CursorAgrees W ar width input (inputVisualRows W input width) := by
  rw [inputVisualRows_eq hpos] at hrows ⊢
  rw [Rows.length_all] at hrows
  refine ⟨(visualRows W width input).done.map Prod.snd, by simp, ?_, ?_, ?_⟩
  · intro b hb
    obtain ⟨d, hd, rfl⟩ := List.mem_map.mp hb
    rcases fill_breaks W.columns isNewline width input d hd with hnone | ⟨c, hc, hd⟩
    · exact .inl hnone
    · have hnl : c = '\n' := by simpa [isNewline] using hc
      exact .inr (hnl ▸ hd)
  · intro row hrow hmem
    have hb := fill_no_break W.columns isNewline width input row hrow '\n' hmem
    exact absurd hb (by decide)
  · rintro before after rfl
    exact cursorOnRow_visualRows har hpos hwidth hrows

/-- A terminal's widths on the characters below: `字` takes two columns. -/
def plainWidths : CharWidths where
  width c := if c.toNat < 32 then none else if c = '字' then some 2 else some 1
  fits c n h := by
    have hn : n ≤ 2 := by
      split at h
      · cases h
      · split at h <;> cases h <;> decide
    exact Nat.lt_of_le_of_lt hn (by decide)

theorem plainWidths_columns_le (c : Char) : plainWidths.columns c ≤ 2 := by
  simp only [CharWidths.columns, plainWidths]
  split
  · exact Nat.zero_le 2
  · split <;> decide

theorem cursor_agrees_wide :
    CursorAgrees plainWidths (.wrapping 16) 3 "ab字c\n\nd".toList
      [['a', 'b'], ['字', 'c'], [], ['d']] :=
  cursor_agrees plainWidths (Arith.words_wrapping 16) (by decide) (by decide) "ab字c\n\nd".toList
    (by decide)

end IntelNav.Tui
