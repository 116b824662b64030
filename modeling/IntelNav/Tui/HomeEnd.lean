import IntelNav.Tui.CursorRows
import Mathlib.Data.List.DropRight

/-! Home and End on a wrapped line: they stay on the row of the cursor as long as the line has not
wrapped before it. -/

set_option autoImplicit false
set_option relaxedAutoImplicit false

namespace IntelNav.Tui

open Layout Reading

variable {W : CharWidths} {width : Nat}

private theorem visualRows_append (as bs : List Char) :
    visualRows W width (as ++ bs) =
      bs.foldl (place W.columns isNewline width) (visualRows W width as) :=
  fill_append W.columns isNewline width as bs

def textAbove (r : Rows Char) : List Char := r.done.flatMap fun d => d.1 ++ d.2

theorem text_eq_above (r : Rows Char) : r.text = textAbove r ++ r.row := rfl

private theorem rowStartStep_place (r : Rows Char) (c : Char) :
    rowStartStep W width (byteLen (textAbove r), totalWidth W.columns r.row) (byteLen r.text, c) =
      (byteLen (textAbove (place W.columns isNewline width r c)),
        totalWidth W.columns (place W.columns isNewline width r c).row) := by
  cases hb : isNewline c with
  | true =>
      obtain rfl : c = '\n' := by simpa [isNewline] using hb
      have hone : byteLen ['\n'] = 1 := rfl
      rw [place_break hb, rowStartStep]
      simp [textAbove, text_eq_above, hone, Nat.add_assoc]
  | false =>
      have hc : ¬c = '\n' := isNewline_eq_false.mp hb
      by_cases hwrap : width < totalWidth W.columns r.row + W.columns c
      · rw [place_wrap hb hwrap]
        simp only [rowStartStep, if_neg hc, if_pos hwrap]
        simp [textAbove, text_eq_above]
      · rw [place_fits hb (Nat.not_lt.mp hwrap)]
        simp only [rowStartStep, if_neg hc, if_neg hwrap]
        simp [textAbove]

private theorem foldl_rowStartStep (W : CharWidths) (width : Nat) (r : Rows Char) (cs : List Char) :
    (charIndices (byteLen r.text) cs).foldl (rowStartStep W width)
        (byteLen (textAbove r), totalWidth W.columns r.row) =
      (byteLen (textAbove (cs.foldl (place W.columns isNewline width) r)),
        totalWidth W.columns (cs.foldl (place W.columns isNewline width) r).row) := by
  induction cs generalizing r with
  | nil => rfl
  | cons c cs ih =>
      have htext : byteLen r.text + c.utf8Size =
          byteLen (place W.columns isNewline width r c).text := by
        rw [place_text, byteLen_append, byteLen_cons, byteLen_nil, Nat.add_zero]
      rw [charIndices, List.foldl_cons, List.foldl_cons, rowStartStep_place, htext, ih]

theorem visualRowStart_eq (hw : 0 < width) (before after : List Char) :
    visualRowStart W (before ++ after) (byteLen before) width =
      byteLen (textAbove (visualRows W width before)) := by
  have hfold := foldl_rowStartStep W width .start before
  rw [visualRowStart, if_neg (Nat.pos_iff_ne_zero.mp hw)]
  simp only [takeWhile_charIndices]
  exact congrArg Prod.fst hfold

theorem rowEndFrom_eq (cs : List Char) (i colW : Nat) (h : colW ≤ width) :
    ∃ row rest, cs = row ++ rest ∧
      (rowEndFrom W width colW (charIndices i cs)).getD (i + byteLen cs) = i + byteLen row ∧
      (∀ c ∈ row, isNewline c = false) ∧ colW + totalWidth W.columns row ≤ width ∧
      ∀ p, p <+: cs → (∀ c ∈ p, isNewline c = false) →
        colW + totalWidth W.columns p ≤ width → p <+: row := by
  induction cs generalizing i colW with
  | nil => exact ⟨[], [], rfl, rfl, List.forall_mem_nil _, h, fun p hp _ _ => hp⟩
  | cons c cs ih =>
      have hstop : (∀ p, p <+: c :: cs → (∀ d ∈ p, isNewline d = false) →
            colW + totalWidth W.columns p ≤ width → p <+: []) →
          (rowEndFrom W width colW (charIndices i (c :: cs))).getD (i + byteLen (c :: cs)) = i →
          ∃ row rest, c :: cs = row ++ rest ∧
            (rowEndFrom W width colW (charIndices i (c :: cs))).getD (i + byteLen (c :: cs)) =
              i + byteLen row ∧
            (∀ d ∈ row, isNewline d = false) ∧ colW + totalWidth W.columns row ≤ width ∧
            ∀ p, p <+: c :: cs → (∀ d ∈ p, isNewline d = false) →
              colW + totalWidth W.columns p ≤ width → p <+: row :=
        fun hmax hend => ⟨[], c :: cs, rfl, hend, List.forall_mem_nil _, h, hmax⟩
      by_cases hc : c = '\n'
      · apply hstop
        · intro p hp hnl _
          cases p with
          | nil => exact List.prefix_rfl
          | cons d p =>
              obtain ⟨rfl, -⟩ := List.cons_prefix_cons.mp hp
              exact absurd hc (isNewline_eq_false.mp (hnl d List.mem_cons_self))
        · rw [charIndices, rowEndFrom, if_pos hc]
          rfl
      · by_cases hwide : width < colW + W.columns c
        · apply hstop
          · intro p hp _ hfit
            cases p with
            | nil => exact List.prefix_rfl
            | cons d p =>
                obtain ⟨rfl, -⟩ := List.cons_prefix_cons.mp hp
                rw [← List.singleton_append, totalWidth_append, totalWidth_singleton] at hfit
                omega
          · rw [charIndices, rowEndFrom, if_neg hc, if_pos hwide]
            rfl
        · obtain ⟨row, rest, rfl, hend, hrow, hfit, hmax⟩ :=
            ih (i + c.utf8Size) (colW + W.columns c) (Nat.not_lt.mp hwide)
          have hcons : totalWidth W.columns (c :: row) =
              W.columns c + totalWidth W.columns row := by
            simp [totalWidth]
          refine ⟨c :: row, rest, rfl, ?_, ?_, ?_, ?_⟩
          · rw [charIndices, rowEndFrom, if_neg hc, if_neg hwide, byteLen_cons, byteLen_cons,
              ← Nat.add_assoc, ← Nat.add_assoc, hend]
          · rw [List.forall_mem_cons]
            exact ⟨isNewline_eq_false.mpr hc, hrow⟩
          · rw [hcons]
            omega
          · intro p hp hnl hpw
            cases p with
            | nil => exact List.nil_prefix
            | cons d p =>
                obtain ⟨rfl, hp'⟩ := List.cons_prefix_cons.mp hp
                rw [← List.singleton_append, totalWidth_append, totalWidth_singleton] at hpw
                apply List.cons_prefix_cons.mpr
                refine ⟨rfl, hmax p hp' (fun e he => hnl e (List.mem_cons_of_mem d he)) ?_⟩
                omega

/-- What Home and End promise at a cursor: they end around it, on its row, and stay there. -/
structure StaysOnRow (W : CharWidths) (ar : Arith) (input : List Char) (cursor width fin : Nat) :
    Prop where
  ends : visualRowEnd W input cursor width = some fin
  home_le : visualRowStart W input cursor width ≤ cursor
  le_end : cursor ≤ fin
  home_row : ∃ row col col',
    cursorVisualPos W ar input (visualRowStart W input cursor width) width = some (row, col) ∧
    cursorVisualPos W ar input cursor width = some (row, col')
  end_row : ∃ row col col',
    cursorVisualPos W ar input fin width = some (row, col) ∧
    cursorVisualPos W ar input cursor width = some (row, col')
  home_home : visualRowStart W input (visualRowStart W input cursor width) width =
    visualRowStart W input cursor width
  end_end : visualRowEnd W input fin width = some fin

def currentLine (before : List Char) : List Char := before.rtakeWhile fun c => !isNewline c

def linesAbove (before : List Char) : List Char := before.rdropWhile fun c => !isNewline c

private theorem lines_append (before : List Char) :
    linesAbove before ++ currentLine before = before :=
  List.rdropWhile_append_rtakeWhile

private theorem currentLine_no_newline (before : List Char) :
    ∀ c ∈ currentLine before, isNewline c = false := by
  intro c hc
  have hnot : (!isNewline c) = true := List.mem_rtakeWhile_imp (p := fun c => !isNewline c) hc
  simpa using hnot

private theorem linesAbove_rows (W : CharWidths) (width : Nat) (before : List Char) :
    (visualRows W width (linesAbove before)).row = [] ∧
      ∀ done row brk, (visualRows W width (linesAbove before)).done = done ++ [(row, brk)] →
        brk = ['\n'] := by
  rcases List.eq_nil_or_concat (linesAbove before) with hnil | ⟨above, c, habove⟩
  · rw [hnil]
    refine ⟨rfl, ?_⟩
    intro done row brk h
    have hlen := congrArg List.length h
    simp [fill, Rows.start] at hlen
  · rw [List.concat_eq_append] at habove
    have hlast : ¬(!isNewline c) = true := by
      have hne : linesAbove before ≠ [] := by simp [habove]
      have hnot := List.rdropWhile_last_not (fun c => !isNewline c) before hne
      have hget : (linesAbove before).getLast hne = c := by simp [habove]
      rw [← hget]
      exact hnot
    obtain rfl : c = '\n' := by simpa [isNewline] using hlast
    have hbreak : isNewline '\n' = true := rfl
    rw [habove, visualRows_append, List.foldl_cons, List.foldl_nil, place_break hbreak]
    refine ⟨rfl, ?_⟩
    intro done row brk h
    obtain ⟨-, hlast⟩ := List.append_inj' h rfl
    exact (Prod.mk.inj (List.singleton_inj.mp hlast)).2.symm

private theorem visualRows_line (before : List Char) {row : List Char}
    (hnl : ∀ c ∈ row, isNewline c = false) (hfit : totalWidth W.columns row ≤ width) :
    visualRows W width (linesAbove before ++ row) =
      ⟨(visualRows W width (linesAbove before)).done, row⟩ := by
  obtain ⟨hrow, -⟩ := linesAbove_rows W width before
  have hfit' :
      totalWidth W.columns ((visualRows W width (linesAbove before)).row ++ row) ≤ width := by
    rwa [hrow, List.nil_append]
  rw [visualRows_append, foldl_place_one hnl _ hfit', hrow, List.nil_append]

private theorem textAbove_line (before row : List Char) :
    textAbove ⟨(visualRows W width (linesAbove before)).done, row⟩ = linesAbove before := by
  obtain ⟨hrow, -⟩ := linesAbove_rows W width before
  have htext := fill_text W.columns isNewline width (linesAbove before)
  rw [text_eq_above, hrow, List.append_nil] at htext
  exact htext

private theorem start_on_line (hw : 0 < width) (before after : List Char) {row : List Char}
    (hnl : ∀ c ∈ row, isNewline c = false) (hfit : totalWidth W.columns row ≤ width) :
    visualRowStart W (linesAbove before ++ row ++ after) (byteLen (linesAbove before ++ row))
      width = byteLen (linesAbove before) := by
  rw [visualRowStart_eq hw, visualRows_line before hnl hfit, textAbove_line]

private theorem pos_on_line (ar : Arith) (hw : 0 < width) (before after : List Char)
    {row : List Char}
    (hnl : ∀ c ∈ row, isNewline c = false) (hfit : totalWidth W.columns row ≤ width) :
    cursorVisualPos W ar (linesAbove before ++ row ++ after)
        (byteLen (linesAbove before ++ row)) width =
      (tally ar (visualRows W width (linesAbove before)).done.length).map fun n =>
        (n, totalWidth W.columns row % 2 ^ 16) := by
  rw [cursorVisualPos_eq ar hw, visualRows_line before hnl hfit]

theorem visualRowEnd_eq (hw : 0 < width) {cursor : Nat} (above line : List Char)
    (hstart : visualRowStart W (above ++ line) cursor width = byteLen above) :
    visualRowEnd W (above ++ line) cursor width =
      some ((rowEndFrom W width 0 (charIndices (byteLen above) line)).getD
        (byteLen above + byteLen line)) := by
  rw [visualRowEnd, if_neg (Nat.pos_iff_ne_zero.mp hw)]
  simp only [hstart, sliceFrom_byteLen, byteLen_append]
  rfl

/-- The counters of the rows: words of 16 bits, whose overflow a checked build catches. -/
def u16 (checked : Bool) : Arith := if checked then .trapping 16 else .wrapping 16

private theorem u16_next {checked : Bool} {n : Nat}
    (h : (u16 checked).add n 1 = some n) : False := by
  cases checked with
  | true =>
      simp only [u16, if_true, Arith.trapping] at h
      split at h
      · have heq := Option.some.inj h
        omega
      · cases h
  | false =>
      simp only [u16, Bool.false_eq_true, if_false, Arith.wrapping] at h
      have heq := Option.some.inj h
      omega

private theorem tally_u16 (checked : Bool) (n : Nat) :
    (∃ k, tally (u16 checked) n = some k) ↔ (checked = true → n < 2 ^ 16) := by
  cases checked with
  | true =>
      refine ⟨?_, fun h => ⟨n, tally_below (Arith.words_trapping 16) (h rfl)⟩⟩
      rintro ⟨k, hk⟩ -
      induction n generalizing k with
      | zero => exact Nat.two_pow_pos 16
      | succ n ih =>
          obtain ⟨m, hm, hadd⟩ := Option.bind_eq_some_iff.mp hk
          have hlt := ih m hm
          obtain rfl : n = m := by
            have heq := tally_below (Arith.words_trapping 16) hlt
            exact Option.some.inj (heq.symm.trans hm)
          simp only [u16, if_true, Arith.trapping] at hadd
          split at hadd
          · assumption
          · cases hadd
  | false =>
      refine ⟨fun _ h => absurd h (by decide), fun _ => ?_⟩
      induction n with
      | zero => exact ⟨0, rfl⟩
      | succ n ih =>
          obtain ⟨k, hk⟩ := ih fun h => absurd h (by decide)
          rw [tally, hk]
          exact ⟨_, rfl⟩

private theorem staysOnRow_of_fits {ar : Arith} (hw : 0 < width) (before after : List Char)
    (hfit : totalWidth W.columns (currentLine before) ≤ width)
    (htally : ∃ k, tally ar (visualRows W width (linesAbove before)).done.length = some k) :
    ∃ fin, StaysOnRow W ar (before ++ after) (byteLen before) width fin := by
  obtain ⟨k, hk⟩ := htally
  have hnl := currentLine_no_newline before
  obtain ⟨row, rest, hrest, hend, hrow, hrowfit, hmax⟩ :=
    rowEndFrom_eq (W := W) (currentLine before ++ after) (byteLen (linesAbove before)) 0
      (Nat.zero_le width)
  rw [Nat.zero_add] at hrowfit
  have hin : before ++ after = linesAbove before ++ row ++ rest := by
    rw [List.append_assoc, ← hrest, ← List.append_assoc, lines_append]
  have hcur : before ++ after = linesAbove before ++ currentLine before ++ after := by
    rw [lines_append]
  have hzero : before ++ after = linesAbove before ++ [] ++ (row ++ rest) := by
    rw [List.append_nil, hin, List.append_assoc]
  have hpre : currentLine before <+: row :=
    hmax _ (List.prefix_append _ _) hnl (by omega)
  have hlen : byteLen before = byteLen (linesAbove before ++ currentLine before) := by
    rw [lines_append]
  have hstart : visualRowStart W (before ++ after) (byteLen before) width =
      byteLen (linesAbove before ++ []) := by
    rw [hcur, hlen, start_on_line hw before after hnl hfit, List.append_nil]
  have hends : ∀ cursor, visualRowStart W (before ++ after) cursor width =
      byteLen (linesAbove before) →
      visualRowEnd W (before ++ after) cursor width =
        some (byteLen (linesAbove before ++ row)) := by
    intro cursor hc
    have hline : before ++ after = linesAbove before ++ (currentLine before ++ after) := by
      rw [hcur, List.append_assoc]
    rw [hline] at hc ⊢
    rw [visualRowEnd_eq hw _ _ hc, hend, byteLen_append]
  refine ⟨byteLen (linesAbove before ++ row), ?_, ?_, ?_, ?_, ?_, ?_, ?_⟩
  · apply hends
    rw [hstart, List.append_nil]
  · rw [hstart, hlen, List.append_nil, byteLen_append]
    exact Nat.le_add_right _ _
  · obtain ⟨more, hmore⟩ := hpre
    rw [hlen, ← hmore, byteLen_append, byteLen_append, byteLen_append]
    omega
  · refine ⟨k, 0, totalWidth W.columns (currentLine before) % 2 ^ 16, ?_, ?_⟩
    · rw [hstart, hzero,
        pos_on_line ar hw before _ (List.forall_mem_nil _) (Nat.zero_le width), hk]
      rfl
    · rw [hcur, hlen, pos_on_line ar hw before after hnl hfit, hk]
      rfl
  · refine ⟨k, totalWidth W.columns row % 2 ^ 16,
      totalWidth W.columns (currentLine before) % 2 ^ 16, ?_, ?_⟩
    · rw [hin, pos_on_line ar hw before rest hrow hrowfit, hk]
      rfl
    · rw [hcur, hlen, pos_on_line ar hw before after hnl hfit, hk]
      rfl
  · rw [hstart, hzero, start_on_line hw before _ (List.forall_mem_nil _) (Nat.zero_le width),
      List.append_nil]
  · apply hends
    rw [hin, start_on_line hw before rest hrow hrowfit]

private theorem wraps_above {ar : Arith} (hw : 0 < width) (before after : List Char)
    (hnext : ∀ n, ar.add n 1 ≠ some n)
    (hwide : width < totalWidth W.columns (currentLine before)) (fin : Nat) :
    ¬StaysOnRow W ar (before ++ after) (byteLen before) width fin := by
  intro h
  obtain ⟨hline, -⟩ := linesAbove_rows W width before
  have hempty : totalWidth W.columns (visualRows W width (linesAbove before)).row ≤ width := by
    rw [hline]
    exact Nat.zero_le width
  have hmore : width < totalWidth W.columns
      ((visualRows W width (linesAbove before)).row ++ currentLine before) := by
    rwa [hline, List.nil_append]
  obtain ⟨done, row, hdone⟩ :=
    foldl_place_wraps (currentLine_no_newline before) _ hempty hmore
  rw [← visualRows_append, lines_append] at hdone
  obtain ⟨up, hup, hrows⟩ := fill_ended hdone
  rw [List.append_nil] at hup
  have hstart : visualRowStart W (before ++ after) (byteLen before) width = byteLen up := by
    have htext : textAbove (visualRows W width before) ++ (visualRows W width before).row =
        up ++ (visualRows W width before).row :=
      (fill_text W.columns isNewline width before).trans hup.symm
    rw [visualRowStart_eq hw, List.append_cancel_right htext]
  obtain ⟨r, col, col', hhome, hhere⟩ := h.home_row
  have hsplit : before ++ after = up ++ ((visualRows W width before).row ++ after) := by
    rw [← List.append_assoc, hup]
  rw [hstart, hsplit, cursorVisualPos_eq ar hw] at hhome
  rw [cursorVisualPos_eq ar hw, hdone, List.length_append, List.length_singleton] at hhere
  have habove : visualRows W width up = ⟨done, row⟩ := hrows
  rw [habove] at hhome
  obtain ⟨n, hn, hpos⟩ := Option.map_eq_some_iff.mp hhome
  obtain ⟨m, hm, hpos'⟩ := Option.map_eq_some_iff.mp hhere
  obtain ⟨rfl, -⟩ := Prod.mk.inj hpos
  obtain ⟨rfl, -⟩ := Prod.mk.inj hpos'
  rw [tally, hn, Option.bind_some] at hm
  exact hnext _ hm

/-- Home and End stay on the row of the cursor exactly while the line has not wrapped before it
and, where overflows are caught, the rows before it can be counted. -/
theorem home_end_iff (W : CharWidths) (checked : Bool) {width : Nat} (hw : 0 < width)
    (before after : List Char) :
    (∃ fin, StaysOnRow W (u16 checked) (before ++ after) (byteLen before) width fin) ↔
      totalWidth W.columns (currentLine before) ≤ width ∧
        (checked = true → (inputVisualRows W before width).length ≤ 2 ^ 16) := by
  have hrows : (inputVisualRows W before width).length =
      (visualRows W width before).done.length + 1 := by
    rw [inputVisualRows_eq hw, Rows.length_all]
  rw [hrows]
  constructor
  · rintro ⟨fin, h⟩
    constructor
    · apply Nat.not_lt.mp
      intro hwide
      exact wraps_above hw before after (fun n hn => u16_next hn) hwide fin h
    · intro hchecked
      obtain ⟨r, col, col', -, hhere⟩ := h.home_row
      rw [cursorVisualPos_eq _ hw] at hhere
      obtain ⟨n, hn, -⟩ := Option.map_eq_some_iff.mp hhere
      have hlt := (tally_u16 checked _).mp ⟨n, hn⟩ hchecked
      omega
  · rintro ⟨hfit, hcount⟩
    apply staysOnRow_of_fits hw before after hfit
    have hline := visualRows_line before (currentLine_no_newline before) hfit
    rw [lines_append] at hline
    rw [hline] at hcount
    apply (tally_u16 checked _).mpr
    intro hchecked
    have hle := hcount hchecked
    dsimp only at hle
    omega

theorem home_end_wide : ∃ fin, StaysOnRow plainWidths (u16 true)
    ("ab\n字c".toList ++ "defg".toList) (byteLen "ab\n字c".toList) 3 fin :=
  (home_end_iff plainWidths true (by decide) "ab\n字c".toList "defg".toList).mpr
    ⟨by decide, fun _ => by decide⟩

/-- After `f` has wrapped, Home goes to the end of the row above, and from there to its start. -/
theorem home_leaves_wrapped_row :
    cursorVisualPos plainWidths (u16 true) "abcdef".toList 6 5 = some (1, 1) ∧
    visualRowStart plainWidths "abcdef".toList 6 5 = 5 ∧
    cursorVisualPos plainWidths (u16 true) "abcdef".toList 5 5 = some (0, 5) ∧
    visualRowStart plainWidths "abcdef".toList 5 5 = 0 ∧
    ¬∃ fin, StaysOnRow plainWidths (u16 true) "abcdef".toList 6 5 fin := by
  refine ⟨by decide, by decide, by decide, by decide, ?_⟩
  rintro ⟨fin, h⟩
  have hhome : visualRowStart plainWidths "abcdef".toList 5 5 = 5 := h.home_home
  exact absurd hhome (by decide)

end IntelNav.Tui
