import IntelNav.Tui.CursorRows
import IntelNav.Text.Words

/-! The wrapping of prose (`wrap_visual`): no word is lost, and none is joined to the next. -/

set_option autoImplicit false
set_option relaxedAutoImplicit false

namespace IntelNav.Tui

open Layout Text

def isBlank (c : Char) : Bool := c == ' ' || c == '\t'

/-- The rows put out, the row and the word being filled, and the columns of these. -/
structure Prose where
  out : List (List Char)
  cur : List Char
  curW : Nat
  word : List Char
  wordW : Nat

variable (W : CharWidths) (width : Nat)

def flushWord (s : Prose) : Prose :=
  if s.word = [] then s
  else if s.curW + s.wordW ≤ width then ⟨s.out, s.cur ++ s.word, s.curW + s.wordW, [], 0⟩
  else
    let out := if s.cur = [] then s.out else s.out ++ [s.cur]
    if width < s.wordW then
      -- the word itself is cut
      let pieces := s.word.foldl (wrapChar W width) ⟨out, [], 0⟩
      ⟨pieces.out, pieces.cur, pieces.curW, [], 0⟩
    else ⟨out, s.word, s.wordW, [], 0⟩

/-- A blank at the start of a row is dropped, and so is one that does not fit. -/
def pushBlank (c : Char) (s : Prose) : Prose :=
  if width < s.curW + 1 then { s with out := s.out ++ [s.cur], cur := [], curW := 0 }
  else if s.cur = [] then s
  else { s with cur := s.cur ++ [c], curW := s.curW + 1 }

def proseChar (s : Prose) (c : Char) : Prose :=
  if isBlank c then pushBlank width c (flushWord W width s)
  else { s with word := s.word ++ [c], wordW := s.wordW + W.columns c }

def wrapVisual (text : List Char) : List (List Char) :=
  if width = 0 then [text]
  else if text = [] then [[]]
  else
    let s := flushWord W width (text.foldl (proseChar W width) ⟨[], [], 0, [], 0⟩)
    if s.cur ≠ [] ∨ s.out = [] then s.out ++ [s.cur] else s.out

def rowColumns (row : List Char) : Nat :=
  totalWidth (fun c => if isBlank c then 1 else W.columns c) row

variable {W width}

private theorem rowColumns_append (l m : List Char) :
    rowColumns W (l ++ m) = rowColumns W l + rowColumns W m :=
  totalWidth_append l m

private theorem rowColumns_blank {c : Char} (h : isBlank c = true) (l : List Char) :
    rowColumns W (l ++ [c]) = rowColumns W l + 1 := by
  rw [rowColumns_append]
  simp [rowColumns, h]

private theorem rowColumns_letters {l : List Char} (h : ∀ c ∈ l, isBlank c = false) :
    rowColumns W l = totalWidth W.columns l := by
  simp only [rowColumns, totalWidth]
  congr 1
  apply List.map_congr_left
  intro c hc
  simp [h c hc]

/-- Rows that hold a text: none is too wide, its letters stand in them in order, and the words of
the rows are pieces of its words. -/
structure Laid (W : CharWidths) (width : Nat) (text : List Char) (rows : List (List Char)) :
    Prop where
  fits : ∀ row ∈ rows, rowColumns W row ≤ width
  letters_eq : letters isBlank rows.flatten = letters isBlank text
  cut : Cut (rows.flatMap (words isBlank)) (words isBlank text)

namespace Laid

variable {text : List Char} {rows : List (List Char)}

theorem nil : Laid W width [] [] where
  fits := List.forall_mem_nil _
  letters_eq := rfl
  cut := by
    rw [words_nil]
    exact .nil

private theorem emptyRow : Laid W width text (rows ++ [[]]) ↔ Laid W width text rows := by
  have hflat : (rows ++ [[]]).flatten = rows.flatten := by simp
  have hwords : (rows ++ [[]]).flatMap (words isBlank) = rows.flatMap (words isBlank) := by
    rw [List.flatMap_append, List.flatMap_singleton, words_nil, List.append_nil]
  constructor
  · intro h
    refine ⟨fun row hrow => h.fits row (List.mem_append_left _ hrow), ?_, ?_⟩
    · rw [← hflat]
      exact h.letters_eq
    · rw [← hwords]
      exact h.cut
  · intro h
    refine ⟨?_, ?_, ?_⟩
    · rw [List.forall_mem_append, List.forall_mem_singleton]
      exact ⟨h.fits, Nat.zero_le width⟩
    · rw [hflat]
      exact h.letters_eq
    · rw [hwords]
      exact h.cut

private theorem dropBlank (h : Laid W width text rows) {c : Char} (hc : isBlank c = true) :
    Laid W width (text ++ [c]) rows where
  fits := h.fits
  letters_eq := by rw [letters_blank hc, h.letters_eq]
  cut := by
    rw [words_blank hc]
    exact h.cut

private theorem pushBlank {row : List Char} (h : Laid W width text (rows ++ [row])) {c : Char}
    (hc : isBlank c = true) (hw : rowColumns W row + 1 ≤ width) :
    Laid W width (text ++ [c]) (rows ++ [row ++ [c]]) := by
  obtain ⟨hfits, hletters, hcut⟩ := h.dropBlank hc
  refine ⟨?_, ?_, ?_⟩
  · rw [List.forall_mem_append, List.forall_mem_singleton] at hfits ⊢
    rw [rowColumns_blank hc]
    exact ⟨hfits.1, hw⟩
  · rw [← hletters]
    simp only [List.flatten_append, List.flatten_singleton]
    rw [← List.append_assoc, letters_blank hc]
  · rw [List.flatMap_append, List.flatMap_singleton] at hcut ⊢
    rw [words_blank hc]
    exact hcut

private theorem addWord {row : List Char} (h : Laid W width text (rows ++ [row]))
    (htext : Separated isBlank text) (hrow : Separated isBlank row) {piece : List Char}
    {pieces : List (List Char)} {word : List Char} (hword : (piece :: pieces).flatten = word)
    (hne : word ≠ []) (hplain : ∀ c ∈ word, isBlank c = false)
    (hfirst : rowColumns W (row ++ piece) ≤ width)
    (hrest : ∀ p ∈ pieces, rowColumns W p ≤ width) :
    Laid W width (text ++ word) (rows ++ (row ++ piece) :: pieces) := by
  have hpieces : ∀ p ∈ piece :: pieces, words isBlank p = [p].filter fun w => !w.isEmpty := by
    intro p hp
    apply words_of_letters
    intro c hc
    exact hplain c (hword ▸ List.mem_flatten_of_mem hp hc)
  refine ⟨?_, ?_, ?_⟩
  · obtain ⟨hbefore, -⟩ := List.forall_mem_append.mp h.fits
    rw [List.forall_mem_append, List.forall_mem_cons]
    exact ⟨hbefore, hfirst, hrest⟩
  · have hflat : (rows ++ (row ++ piece) :: pieces).flatten = (rows ++ [row]).flatten ++ word := by
      rw [← hword]
      simp
    rw [hflat, letters_append, letters_append, h.letters_eq]
  · have hsplit : (rows ++ (row ++ piece) :: pieces).flatMap (words isBlank) =
        (rows ++ [row]).flatMap (words isBlank) ++
          (piece :: pieces).flatMap (words isBlank) := by
      simp [List.flatMap_append, hrow.words_append]
    have hcutWord : (piece :: pieces).flatMap (words isBlank) =
        (piece :: pieces).filter fun w => !w.isEmpty := by
      rw [List.flatMap_congr hpieces, ← List.filter_flatMap]
      simp
    have hflat : ((piece :: pieces).filter fun w => !w.isEmpty).flatten = word := by
      rw [← hword]
      exact List.flatten_filter_not_isEmpty
    have hone : words isBlank word = [word] := by
      rw [words_of_letters hplain]
      simp [hne]
    rw [hsplit, htext.words_append, hone, hcutWord]
    apply h.cut.append
    have hcut := Cut.word ((piece :: pieces).filter fun w => !w.isEmpty)
    rwa [hflat] at hcut

end Laid

/-- Between two characters: the rows hold what came before the word being filled. -/
structure Prose.Holds (W : CharWidths) (width : Nat) (text : List Char) (s : Prose) : Prop where
  laid : ∃ before, before ++ s.word = text ∧ Separated isBlank before ∧
    Laid W width before (s.out ++ [s.cur])
  ready : Separated isBlank s.cur
  curW_eq : s.curW = rowColumns W s.cur
  wordW_eq : s.wordW = totalWidth W.columns s.word
  plain : ∀ c ∈ s.word, isBlank c = false
  narrow : ∀ c ∈ s.word, W.columns c ≤ width

structure Prose.Flushed (W : CharWidths) (width : Nat) (text : List Char) (s : Prose) : Prop where
  laid : Laid W width text (s.out ++ [s.cur])
  curW_eq : s.curW = rowColumns W s.cur
  word_eq : s.word = []
  wordW_eq : s.wordW = 0

private theorem foldl_wrapChar_out (W : CharWidths) (width : Nat) (out : List (List Char))
    (s : Wrapping) (cs : List Char) :
    cs.foldl (wrapChar W width) ⟨out ++ s.out, s.cur, s.curW⟩ =
      ⟨out ++ (cs.foldl (wrapChar W width) s).out, (cs.foldl (wrapChar W width) s).cur,
        (cs.foldl (wrapChar W width) s).curW⟩ := by
  induction cs generalizing s with
  | nil => rfl
  | cons c cs ih =>
      rw [List.foldl_cons, List.foldl_cons, ← ih]
      congr 1
      simp only [wrapChar]
      split <;> simp

private theorem hard_wrap (out : List (List Char)) (word : List Char) :
    word.foldl (wrapChar W width) ⟨out, [], 0⟩ =
      ⟨out ++ (fill W.columns (fun _ => false) width word).done.map Prod.fst,
        (fill W.columns (fun _ => false) width word).row,
        totalWidth W.columns (fill W.columns (fun _ => false) width word).row⟩ := by
  have hstart : Wrapping.Shows W ⟨[], [], 0⟩ .start := ⟨rfl, rfl, rfl⟩
  obtain ⟨hout, hcur, hw⟩ :=
    hstart.foldl width (fun _ => false) (fun (_ : Char) (_ : _ ∈ word) => rfl)
  have h := foldl_wrapChar_out W width out ⟨[], [], 0⟩ word
  rw [List.append_nil] at h
  rw [h, hout, hcur, hw]
  rfl

/-- A word too long for any row is cut into rows of its own. -/
private theorem laid_long {before : List Char} {out : List (List Char)} {s : Prose}
    (hfresh : Laid W width before (out ++ [[]])) (hsep : Separated isBlank before)
    (hword : s.word ≠ []) (hplain : ∀ c ∈ s.word, isBlank c = false)
    (hnarrow : ∀ c ∈ s.word, W.columns c ≤ width) :
    Laid W width (before ++ s.word)
        (out ++ (fill W.columns (fun _ => false) width s.word).all) ∧
      rowColumns W (fill W.columns (fun _ => false) width s.word).row =
        totalWidth W.columns (fill W.columns (fun _ => false) width s.word).row := by
  have hrows := fill_flatten W.columns width s.word
  have hletters : ∀ row ∈ (fill W.columns (fun _ => false) width s.word).all,
      ∀ c ∈ row, isBlank c = false :=
    fun row hrow c hc => hplain c (hrows ▸ List.mem_flatten_of_mem hrow hc)
  have hpieces : ∀ row ∈ (fill W.columns (fun _ => false) width s.word).all,
      rowColumns W row ≤ width := by
    intro row hrow
    rw [rowColumns_letters (hletters row hrow)]
    rcases fill_fits W.columns (fun _ => false) width s.word row hrow with hle | ⟨c, hc, rfl⟩
    · exact hle
    · rw [totalWidth_singleton]
      exact hnarrow c hc
  constructor
  · cases hall : (fill W.columns (fun _ => false) width s.word).all with
    | nil =>
        have hlen := congrArg List.length hall
        simp at hlen
    | cons piece pieces =>
        rw [hall] at hrows hpieces
        obtain ⟨hfirst, hrest⟩ := List.forall_mem_cons.mp hpieces
        exact hfresh.addWord hsep (.inl rfl) hrows hword hplain hfirst hrest
  · exact rowColumns_letters (hletters _ (by simp [Rows.all]))

private theorem Prose.Holds.flushWord {text : List Char} {s : Prose} (h : s.Holds W width text) :
    (flushWord W width s).Flushed W width text := by
  obtain ⟨⟨before, rfl, hsep, hlaid⟩, hready, hcurW, hwordW, hplain, hnarrow⟩ := h
  rw [Tui.flushWord]
  by_cases hword : s.word = []
  · rw [if_pos hword]
    refine ⟨?_, hcurW, hword, ?_⟩
    · rwa [hword, List.append_nil]
    · rw [hwordW, hword, totalWidth_nil]
  · rw [if_neg hword]
    have hcols : rowColumns W s.word = s.wordW := by rw [rowColumns_letters hplain, hwordW]
    by_cases hfit : s.curW + s.wordW ≤ width
    · rw [if_pos hfit]
      have hboth : rowColumns W (s.cur ++ s.word) = s.curW + s.wordW := by
        rw [rowColumns_append, hcols, hcurW]
      refine ⟨?_, hboth.symm, rfl, rfl⟩
      apply hlaid.addWord hsep hready (List.flatten_singleton) hword hplain
      · rwa [hboth]
      · exact List.forall_mem_nil _
    · rw [if_neg hfit]
      have hfresh :
        Laid W width before ((if s.cur = [] then s.out else s.out ++ [s.cur]) ++ [[]]) := by
        split
        · rename_i hcur
          rwa [hcur] at hlaid
        · exact Laid.emptyRow.mpr hlaid
      generalize (if s.cur = [] then s.out else s.out ++ [s.cur]) = out at hfresh
      have hnew : Separated isBlank ([] : List Char) := .inl rfl
      by_cases hlong : width < s.wordW
      · simp only [if_pos hlong]
        rw [hard_wrap]
        obtain ⟨hrows, hlast⟩ := laid_long hfresh hsep hword hplain hnarrow
        refine ⟨?_, hlast.symm, rfl, rfl⟩
        rw [List.append_assoc]
        exact hrows
      · simp only [if_neg hlong]
        refine ⟨?_, hcols.symm, rfl, rfl⟩
        apply hfresh.addWord hsep hnew (List.flatten_singleton) hword hplain
        · rw [List.nil_append, hcols]
          exact Nat.not_lt.mp hlong
        · exact List.forall_mem_nil _

private theorem Prose.Flushed.pushBlank {text : List Char} {s : Prose} (h : s.Flushed W width text)
    {c : Char} (hc : isBlank c = true) : (pushBlank width c s).Holds W width (text ++ [c]) := by
  obtain ⟨hlaid, hcurW, hword, hwordW⟩ := h
  have hsep : Separated isBlank (text ++ [c]) := .inr ⟨text, c, hc, rfl⟩
  have hwordW' : s.wordW = totalWidth W.columns s.word := by rw [hword, hwordW, totalWidth_nil]
  have hplain : ∀ d ∈ s.word, isBlank d = false := by
    rw [hword]
    exact List.forall_mem_nil _
  have hnarrow : ∀ d ∈ s.word, W.columns d ≤ width := by
    rw [hword]
    exact List.forall_mem_nil _
  have htext : text ++ [c] ++ s.word = text ++ [c] := by rw [hword, List.append_nil]
  rw [Tui.pushBlank]
  split
  · exact ⟨⟨_, htext, hsep, Laid.emptyRow.mpr (hlaid.dropBlank hc)⟩, .inl rfl, rfl, hwordW', hplain,
      hnarrow⟩
  · rename_i hfits
    split
    · rename_i hcur
      exact ⟨⟨_, htext, hsep, hlaid.dropBlank hc⟩, .inl hcur, hcurW, hwordW', hplain, hnarrow⟩
    · refine ⟨⟨_, htext, hsep, hlaid.pushBlank hc ?_⟩, .inr ⟨s.cur, c, hc, rfl⟩, ?_, hwordW',
        hplain, hnarrow⟩
      · rw [← hcurW]
        exact Nat.not_lt.mp hfits
      · rw [rowColumns_blank hc, hcurW]

private theorem Prose.Holds.proseChar {text : List Char} {s : Prose}
    (h : s.Holds W width text) {c : Char}
    (hc : W.columns c ≤ width) : (proseChar W width s c).Holds W width (text ++ [c]) := by
  rw [Tui.proseChar]
  cases hb : isBlank c with
  | true => exact h.flushWord.pushBlank hb
  | false =>
      obtain ⟨⟨before, rfl, hsep, hlaid⟩, hready, hcurW, hwordW, hplain, hnarrow⟩ := h
      refine ⟨⟨before, by simp, hsep, hlaid⟩, hready, hcurW, ?_, ?_, ?_⟩
      · simp [hwordW]
      · simp only [Bool.false_eq_true, if_false, List.forall_mem_append, List.forall_mem_singleton]
        exact ⟨hplain, hb⟩
      · simp only [Bool.false_eq_true, if_false, List.forall_mem_append, List.forall_mem_singleton]
        exact ⟨hnarrow, hc⟩

private theorem foldl_proseChar {text : List Char} {s : Prose} (h : s.Holds W width text)
    (cs : List Char) (hcs : ∀ c ∈ cs, W.columns c ≤ width) :
    (cs.foldl (proseChar W width) s).Holds W width (text ++ cs) := by
  induction cs generalizing text s with
  | nil => rwa [List.append_nil]
  | cons c cs ih =>
      obtain ⟨hc, hcs⟩ := List.forall_mem_cons.mp hcs
      have hrest := ih (h.proseChar hc) hcs
      rwa [List.append_assoc, List.singleton_append] at hrest

/-- Wrapped prose has no row that is too wide, all its letters in order, and no two words of the
text in one piece. -/
theorem wrapVisual_keeps_words (W : CharWidths) {width : Nat} (hw : 0 < width) (text : List Char)
    (hfit : ∀ c ∈ text, W.columns c ≤ width) :
    (∀ row ∈ wrapVisual W width text, rowColumns W row ≤ width) ∧
      letters isBlank (wrapVisual W width text).flatten = letters isBlank text ∧
      Cut ((wrapVisual W width text).flatMap (words isBlank)) (words isBlank text) := by
  have hlaid : Laid W width text (wrapVisual W width text) := by
    have hempty : Laid W width [] [[]] := Laid.emptyRow.mpr .nil
    rw [wrapVisual, if_neg (Nat.pos_iff_ne_zero.mp hw)]
    split
    · rename_i htext
      rwa [htext]
    · have hstart : Prose.Holds W width [] ⟨[], [], 0, [], 0⟩ :=
        ⟨⟨[], rfl, .inl rfl, hempty⟩, .inl rfl, rfl, rfl, List.forall_mem_nil _,
          List.forall_mem_nil _⟩
      have hend := (foldl_proseChar hstart text hfit).flushWord.laid
      rw [List.nil_append] at hend
      simp only
      split
      · exact hend
      · rename_i hcur
        obtain ⟨hcur, -⟩ := not_or.mp hcur
        rw [Classical.not_not.mp hcur] at hend
        exact Laid.emptyRow.mp hend
  exact ⟨hlaid.fits, hlaid.letters_eq, hlaid.cut⟩

theorem wrapVisual_keeps_three_words :
    (∀ row ∈ wrapVisual plainWidths 4 "ab  cdefgh\t字".toList, rowColumns plainWidths row ≤ 4) ∧
      letters isBlank (wrapVisual plainWidths 4 "ab  cdefgh\t字".toList).flatten =
        "abcdefgh字".toList ∧
      Cut ((wrapVisual plainWidths 4 "ab  cdefgh\t字".toList).flatMap (words isBlank))
        (words isBlank "ab  cdefgh\t字".toList) :=
  wrapVisual_keeps_words plainWidths (by decide) "ab  cdefgh\t字".toList
    fun c _ => (plainWidths_columns_le c).trans (by decide)

end IntelNav.Tui
