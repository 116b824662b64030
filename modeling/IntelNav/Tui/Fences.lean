import IntelNav.Tui.Input
import Mathlib.Data.List.Basic
import Mathlib.Data.List.DropRight

/-! The code fences of an answer (`split_code_fences`): the scanner reads as if line by line. -/

set_option autoImplicit false
set_option relaxedAutoImplicit false

namespace IntelNav.Tui

inductive Segment
  | prose (text : List Char)
  | code (lang body : List Char)
deriving DecidableEq

/-- `str::trim`. -/
def trimText (cs : List Char) : List Char := (cs.dropWhile isWhitespace).rdropWhile isWhitespace

/-- The segments put out, the buffers, and where the scanner is. -/
structure Scan where
  out : List Segment
  prose : List Char
  code : List Char
  lang : List Char
  inCode : Bool
  atLineStart : Bool

namespace Scan

def push (s : Scan) (cs : List Char) : Scan :=
  if s.inCode then { s with code := s.code ++ cs } else { s with prose := s.prose ++ cs }

def lineStart (s : Scan) (b : Bool) : Scan := { s with atLineStart := b }

def closeFence (s : Scan) : Scan :=
  { s with
    out := s.out ++ [.code s.lang s.code], lang := [], code := [], inCode := false,
    atLineStart := true }

def openFence (s : Scan) (tag : List Char) : Scan :=
  { s with
    out := if s.prose = [] then s.out else s.out ++ [.prose s.prose], prose := [],
    lang := trimText (s.lang ++ tag), inCode := true, atLineStart := true }

end Scan

def takeTicks : Nat → List Char → Nat × List Char
  | ticks, [] => (ticks, [])
  | ticks, c :: cs => if ticks < 3 ∧ c = '`' then takeTicks (ticks + 1) cs else (ticks, c :: cs)

def takeLine : List Char → List Char × List Char
  | [] => ([], [])
  | c :: cs => if c = '\n' then ([], cs) else (c :: (takeLine cs).1, (takeLine cs).2)

private theorem length_takeTicks (ticks : Nat) (cs : List Char) :
    (takeTicks ticks cs).2.length ≤ cs.length := by
  induction cs generalizing ticks with
  | nil => exact Nat.le_refl _
  | cons c cs ih =>
      rw [takeTicks]
      split
      · exact (ih _).trans (Nat.le_succ _)
      · exact Nat.le_refl _

private theorem length_takeLine (cs : List Char) : (takeLine cs).2.length ≤ cs.length := by
  induction cs with
  | nil => exact Nat.le_refl _
  | cons c cs ih =>
      rw [takeLine]
      split
      · exact Nat.le_succ _
      · exact ih.trans (Nat.le_succ _)

def scan (s : Scan) : List Char → Scan
  | [] => s
  | c :: cs =>
      if s.atLineStart ∧ c = '`' then
        let ticks := takeTicks 1 cs
        if ticks.1 = 3 then
          let line := takeLine ticks.2
          if s.inCode then scan s.closeFence line.2 else scan (s.openFence line.1) line.2
        else scan ((s.push (List.replicate ticks.1 '`')).lineStart false) ticks.2
      else scan ((s.push [c]).lineStart (c == '\n')) cs
termination_by cs => cs.length
decreasing_by
  · have hticks := length_takeTicks 1 cs
    have hline := length_takeLine (takeTicks 1 cs).2
    simp only [List.length_cons]
    omega
  · have hticks := length_takeTicks 1 cs
    have hline := length_takeLine (takeTicks 1 cs).2
    simp only [List.length_cons]
    omega
  · have hticks := length_takeTicks 1 cs
    simp only [List.length_cons]
    omega
  · exact Nat.lt_succ_self _

def splitCodeFences (text : List Char) : List Segment :=
  let s := scan ⟨[], [], [], [], false, true⟩ text
  let out :=
    if s.inCode ∧ s.code ≠ [] then s.out ++ [.code s.lang s.code]
    else if s.prose ≠ [] then s.out ++ [.prose s.prose]
    else s.out
  if out = [] then [.prose []] else out

/-! The reference: a reader of lines. -/

/-- The lines of a text, each with its newline; the last may have none. -/
def linesOf : List Char → List (List Char)
  | [] => []
  | c :: cs =>
      if c = '\n' then [c] :: linesOf cs
      else
        match linesOf cs with
        | [] => [[c]]
        | line :: lines => (c :: line) :: lines

def isFence (line : List Char) : Bool := "```".toList.isPrefixOf line

structure Reader where
  out : List Segment
  inCode : Bool
  lang : List Char
  buf : List Char

namespace Reader

def flush (r : Reader) : List Segment :=
  if r.buf = [] then r.out
  else r.out ++ [if r.inCode then .code r.lang r.buf else .prose r.buf]

def readLine (r : Reader) (line : List Char) : Reader :=
  if isFence line then
    if r.inCode then ⟨r.out ++ [.code r.lang r.buf], false, [], []⟩
    else ⟨r.flush, true, trimText (line.drop 3), []⟩
  else { r with buf := r.buf ++ line }

end Reader

def readFences (text : List Char) : List Segment :=
  let out := ((linesOf text).foldl Reader.readLine ⟨[], false, [], []⟩).flush
  if out = [] then [.prose []] else out

theorem linesOf_line {line : List Char} (h : '\n' ∉ line) (cs : List Char) :
    linesOf (line ++ '\n' :: cs) = (line ++ ['\n']) :: linesOf cs := by
  induction line with
  | nil =>
      rw [List.nil_append, linesOf, if_pos rfl]
      rfl
  | cons c line ih =>
      obtain ⟨hc, hline⟩ := List.ne_and_not_mem_of_not_mem_cons h
      rw [List.cons_append, linesOf, if_neg (Ne.symm hc), ih hline]
      rfl

private theorem linesOf_last {line : List Char} (h : '\n' ∉ line) (hne : line ≠ []) :
    linesOf line = [line] := by
  induction line with
  | nil => exact absurd rfl hne
  | cons c line ih =>
      obtain ⟨hc, hline⟩ := List.ne_and_not_mem_of_not_mem_cons h
      rw [linesOf, if_neg (Ne.symm hc)]
      by_cases hnil : line = []
      · rw [hnil]
        rfl
      · rw [ih hline hnil]

private theorem takeLine_line {line : List Char} (h : '\n' ∉ line) (cs : List Char) :
    takeLine (line ++ '\n' :: cs) = (line, cs) := by
  induction line with
  | nil =>
      rw [List.nil_append, takeLine, if_pos rfl]
  | cons c line ih =>
      obtain ⟨hc, hline⟩ := List.ne_and_not_mem_of_not_mem_cons h
      rw [List.cons_append, takeLine, if_neg (Ne.symm hc), ih hline]

private theorem takeLine_last {line : List Char} (h : '\n' ∉ line) :
    takeLine line = (line, []) := by
  induction line with
  | nil => rfl
  | cons c line ih =>
      obtain ⟨hc, hline⟩ := List.ne_and_not_mem_of_not_mem_cons h
      rw [takeLine, if_neg (Ne.symm hc), ih hline]

private theorem trimText_newline (cs : List Char) : trimText (cs ++ ['\n']) = trimText cs := by
  have hspace : isWhitespace '\n' = true := by decide
  rw [trimText, trimText, List.dropWhile_append]
  split
  · rename_i hnil
    rw [List.isEmpty_iff.mp hnil]
    rfl
  · exact List.rdropWhile_concat_pos isWhitespace _ _ hspace

namespace Scan

private theorem push_nil (s : Scan) : s.push [] = s := by
  rw [push]
  split <;> simp

private theorem push_push (s : Scan) (as bs : List Char) :
    (s.push as).push bs = s.push (as ++ bs) := by
  cases h : s.inCode <;> simp [push, h]

private theorem lineStart_push (s : Scan) (b : Bool) (cs : List Char) :
    (s.lineStart b).push cs = (s.push cs).lineStart b := by
  cases h : s.inCode <;> simp [push, lineStart, h]

private theorem lineStart_lineStart (s : Scan) (b b' : Bool) :
    (s.lineStart b).lineStart b' = s.lineStart b' := rfl

private theorem lineStart_atLineStart (s : Scan) : s.lineStart s.atLineStart = s := rfl

private theorem push_atLineStart (s : Scan) (cs : List Char) :
    (s.push cs).atLineStart = s.atLineStart := by
  rw [push]
  split <;> rfl

end Scan

private theorem scan_char {s : Scan} {c : Char} (h : ¬(s.atLineStart = true ∧ c = '`'))
    (cs : List Char) :
    scan s (c :: cs) = scan ((s.push [c]).lineStart (c == '\n')) cs := by
  rw [scan, if_neg h]

private theorem scan_ticks {s : Scan} (hs : s.atLineStart = true) {cs rest : List Char}
    {ticks : Nat} (h : takeTicks 1 cs = (ticks, rest)) (hticks : ticks ≠ 3) :
    scan s ('`' :: cs) = scan ((s.push (List.replicate ticks '`')).lineStart false) rest := by
  rw [scan, if_pos ⟨hs, rfl⟩]
  simp only [h, if_neg hticks]

private theorem scan_fence {s : Scan} (hs : s.atLineStart = true) (cs : List Char) :
    scan s ("```".toList ++ cs) =
      if s.inCode then scan s.closeFence (takeLine cs).2
      else scan (s.openFence (takeLine cs).1) (takeLine cs).2 := by
  have hticks : takeTicks 1 ('`' :: '`' :: cs) = (3, cs) := by
    rw [takeTicks, if_pos ⟨by decide, rfl⟩, takeTicks, if_pos ⟨by decide, rfl⟩]
    cases cs with
    | nil => rfl
    | cons c cs => rw [takeTicks, if_neg (by simp)]
  change scan s ('`' :: '`' :: '`' :: cs) = _
  rw [scan, if_pos ⟨hs, rfl⟩]
  simp only [hticks, if_true]

private theorem takeTicks_stop (ticks : Nat) {cs : List Char} (h : cs.head? ≠ some '`') :
    takeTicks ticks cs = (ticks, cs) := by
  cases cs with
  | nil => rfl
  | cons c cs =>
      rw [takeTicks, if_neg]
      rintro ⟨-, rfl⟩
      exact h rfl

private theorem takeTicks_tick {ticks : Nat} (h : ticks < 3) (cs : List Char) :
    takeTicks ticks ('`' :: cs) = takeTicks (ticks + 1) cs := by
  rw [takeTicks, if_pos ⟨h, rfl⟩]

private theorem takeTicks_plain {line : List Char} (h : isFence ('`' :: line) = false) :
    ∃ ticks rest, line = List.replicate ticks '`' ++ rest ∧ ticks < 2 ∧
      ∀ ds : List Char, ds.head? ≠ some '`' →
        takeTicks 1 (line ++ ds) = (ticks + 1, rest ++ ds) := by
  by_cases hfirst : line.head? = some '`'
  · obtain ⟨line, rfl⟩ := List.head?_eq_some_iff.mp hfirst
    have hsecond : line.head? ≠ some '`' := by
      intro hsecond
      obtain ⟨line, rfl⟩ := List.head?_eq_some_iff.mp hsecond
      exact absurd h (by simp [isFence])
    refine ⟨1, line, rfl, by decide, ?_⟩
    intro ds hds
    rw [List.cons_append, takeTicks_tick (by decide), takeTicks_stop]
    cases line with
    | nil => exact hds
    | cons c line => exact hsecond
  · refine ⟨0, line, rfl, by decide, ?_⟩
    intro ds hds
    rw [takeTicks_stop]
    cases line with
    | nil => exact hds
    | cons c line => exact hfirst

private theorem scan_rest {s : Scan} (hs : s.atLineStart = false) {line : List Char}
    (h : '\n' ∉ line) (cs : List Char) :
    scan s (line ++ '\n' :: cs) = scan ((s.push (line ++ ['\n'])).lineStart true) cs ∧
      scan s line = s.push line := by
  induction line generalizing s with
  | nil =>
      refine ⟨?_, ?_⟩
      · rw [List.nil_append, scan_char (by simp [hs])]
        rfl
      · rw [scan, Scan.push_nil]
  | cons c line ih =>
      obtain ⟨hc, hline⟩ := List.ne_and_not_mem_of_not_mem_cons h
      have hpush : (s.push [c]).atLineStart = false := by rw [Scan.push_atLineStart, hs]
      have hnext : (s.push [c]).lineStart (c == '\n') = s.push [c] := by
        have hne : (c == '\n') = false := by simpa using Ne.symm hc
        rw [hne, ← hpush, Scan.lineStart_atLineStart]
      obtain ⟨hall, hlast⟩ := ih hpush hline
      rw [List.cons_append, scan_char (by simp [hs]), scan_char (by simp [hs]), hnext, hall, hlast,
        Scan.push_push, Scan.push_push]
      exact ⟨rfl, rfl⟩

private theorem scan_plain {s : Scan} {line : List Char} (h : '\n' ∉ line)
    (hfence : isFence line = false) (cs : List Char) :
    scan s (line ++ '\n' :: cs) = scan ((s.push (line ++ ['\n'])).lineStart true) cs ∧
      ∃ b, scan s line = (s.push line).lineStart b := by
  cases hs : s.atLineStart with
  | false =>
      obtain ⟨hall, hlast⟩ := scan_rest hs h cs
      exact ⟨hall, (s.push line).atLineStart, hlast⟩
  | true =>
      cases line with
      | nil =>
          refine ⟨?_, s.atLineStart, ?_⟩
          · rw [List.nil_append, scan_char (by simp)]
            rfl
          · rw [scan, Scan.push_nil]
            rfl
      | cons c line =>
          obtain ⟨hc, hline⟩ := List.ne_and_not_mem_of_not_mem_cons h
          by_cases htick : c = '`'
          · subst htick
            obtain ⟨ticks, rest, rfl, hlt, hticks⟩ := takeTicks_plain hfence
            have hrest : '\n' ∉ rest := fun hmem => hline (List.mem_append_right _ hmem)
            have hne : ticks + 1 ≠ 3 := by omega
            have hall := hticks ('\n' :: cs) (by simp)
            have hlast := hticks [] (by simp)
            rw [List.append_nil, List.append_nil] at hlast
            obtain ⟨hrestAll, hrestLast⟩ := scan_rest
              (s := (s.push (List.replicate (ticks + 1) '`')).lineStart false) rfl hrest cs
            have hchars : '`' :: (List.replicate ticks '`' ++ rest) =
                List.replicate (ticks + 1) '`' ++ rest := rfl
            refine ⟨?_, false, ?_⟩
            · rw [List.cons_append, scan_ticks hs hall hne, hrestAll, Scan.lineStart_push,
                Scan.lineStart_lineStart, Scan.push_push, hchars, List.append_assoc]
            · rw [scan_ticks hs hlast hne, hrestLast, Scan.lineStart_push, Scan.push_push, hchars]
          · have hnext : (c == '\n') = false := by simpa using Ne.symm hc
            have hnot : ¬(s.atLineStart = true ∧ c = '`') := fun hboth => htick hboth.2
            obtain ⟨hall, hlast⟩ :=
              scan_rest (s := (s.push [c]).lineStart false) rfl hline cs
            refine ⟨?_, false, ?_⟩
            · rw [List.cons_append, scan_char hnot, hnext, hall, Scan.lineStart_push,
                Scan.lineStart_lineStart, Scan.push_push]
              rfl
            · rw [scan_char hnot, hnext, hlast, Scan.lineStart_push, Scan.push_push]
              rfl

/-- The scanner has put out what the reader has, and holds its buffer in the right place. -/
structure Scan.Reads (s : Scan) (r : Reader) : Prop where
  out : s.out = r.out
  inCode : s.inCode = r.inCode
  lang : s.lang = r.lang
  buf : (if r.inCode then s.code else s.prose) = r.buf
  other : (if r.inCode then s.prose else s.code) = []
  noLang : r.inCode = false → r.lang = []

theorem Scan.Reads.push {s : Scan} {r : Reader} (h : s.Reads r) (line : List Char) (b : Bool) :
    ((s.push line).lineStart b).Reads { r with buf := r.buf ++ line } := by
  obtain ⟨hout, hin, hlang, hbuf, hother, hno⟩ := h
  cases hr : r.inCode with
  | true =>
      simp only [hr, if_true] at hin hbuf hother
      have hpush : s.push line = { s with code := s.code ++ line } := by rw [Scan.push, if_pos hin]
      rw [hpush]
      exact ⟨hout, hin, hlang, by simp [Scan.lineStart, hbuf], hother, fun h => by cases h⟩
  | false =>
      simp only [hr, Bool.false_eq_true, if_false] at hin hbuf hother
      have hpush : s.push line = { s with prose := s.prose ++ line } := by
        rw [Scan.push, if_neg (by simp [hin])]
      rw [hpush]
      exact ⟨hout, hin, hlang, by simp [Scan.lineStart, hbuf], hother, fun _ => hno hr⟩

private theorem Scan.Reads.fence {s : Scan} {r : Reader} (h : s.Reads r) (line tag : List Char)
    (hline : isFence line = true) (htag : trimText (line.drop 3) = trimText tag) :
    (if s.inCode then s.closeFence else s.openFence tag).Reads (r.readLine line) := by
  obtain ⟨hout, hin, hlang, hbuf, hother, hno⟩ := h
  rw [Reader.readLine, if_pos hline]
  cases hr : r.inCode with
  | true =>
      simp only [hr, if_true] at hin hbuf hother
      simp only [hin, if_true]
      exact ⟨by simp [Scan.closeFence, hout, hlang, hbuf], rfl, rfl, hother, rfl, fun _ => rfl⟩
  | false =>
      simp only [hr, Bool.false_eq_true, if_false] at hin hbuf hother
      simp only [hin, Bool.false_eq_true, if_false]
      refine ⟨?_, rfl, ?_, hother, rfl, ?_⟩
      · simp [Scan.openFence, Reader.flush, hr, hout, hbuf]
      · simp [Scan.openFence, htag, hlang, hno hr]
      · rintro ⟨⟩

private theorem isFence_newline (line : List Char) : isFence (line ++ ['\n']) = isFence line := by
  apply Bool.eq_iff_iff.mpr
  simp only [isFence, List.isPrefixOf_iff_prefix, List.prefix_concat_iff]
  constructor
  · rintro (hall | hpre)
    · have hlast := congrArg List.getLast? hall
      simp at hlast
    · exact hpre
  · exact Or.inr

private theorem isFence_drop {line : List Char} (h : isFence line = true) :
    "```".toList ++ line.drop 3 = line := by
  obtain ⟨tag, rfl⟩ := List.isPrefixOf_iff_prefix.mp h
  rfl

/-- From the start of a line on, the scanner reads as the reader does. -/
private theorem scan_reads (text : List Char) {s : Scan} {r : Reader} (h : s.Reads r)
    (hs : s.atLineStart = true) : (scan s text).Reads ((linesOf text).foldl Reader.readLine r) := by
  by_cases hmem : '\n' ∈ text
  · obtain ⟨line, cs, rfl, hline⟩ := List.eq_append_cons_of_mem hmem
    rw [linesOf_line hline, List.foldl_cons]
    cases hf : isFence line with
    | true =>
        have hsplit := isFence_drop hf
        have htag : '\n' ∉ line.drop 3 := fun hmem => hline (List.mem_of_mem_drop hmem)
        have hread := h.fence (line ++ ['\n']) (line.drop 3)
          (by rw [isFence_newline, hf])
          (by rw [← hsplit]; exact trimText_newline _)
        have hnext : scan s (line ++ '\n' :: cs) =
            scan (if s.inCode then s.closeFence else s.openFence (line.drop 3)) cs := by
          rw [← hsplit, List.append_assoc, scan_fence hs, takeLine_line htag]
          split <;> simp [*]
        rw [hnext]
        apply scan_reads cs hread
        split <;> rfl
    | false =>
        obtain ⟨hnext, -⟩ := scan_plain (s := s) hline hf cs
        have hread :
          (r.readLine (line ++ ['\n'])) = { r with buf := r.buf ++ (line ++ ['\n']) } := by
          rw [Reader.readLine, if_neg]
          rw [isFence_newline, hf]
          decide
        rw [hnext, hread]
        exact scan_reads cs (h.push _ true) rfl
  · by_cases hnil : text = []
    · rw [hnil, scan]
      exact h
    · rw [linesOf_last hmem hnil, List.foldl_cons, List.foldl_nil]
      cases hf : isFence text with
      | true =>
          have hsplit := isFence_drop hf
          have htag : '\n' ∉ text.drop 3 := fun hmem' => hmem (List.mem_of_mem_drop hmem')
          have hnext :
            scan s text = if s.inCode then s.closeFence else s.openFence (text.drop 3) := by
            rw [← hsplit, scan_fence hs, takeLine_last htag, scan, scan]
            rfl
          rw [hnext]
          exact h.fence text (text.drop 3) hf rfl
      | false =>
          obtain ⟨-, b, hnext⟩ := scan_plain (s := s) hmem hf []
          have hread : r.readLine text = { r with buf := r.buf ++ text } := by
            rw [Reader.readLine, if_neg]
            rw [hf]
            decide
          rw [hnext, hread]
          exact h.push text b
termination_by text.length

def Segment.chars : Segment → List (Bool × Char)
  | .prose text => text.map fun c => (false, c)
  | .code _ body => body.map fun c => (true, c)

/-- The characters of the lines that are no fences, each with the side it stands on. -/
def sidedChars : Bool → List (List Char) → List (Bool × Char)
  | _, [] => []
  | inCode, line :: lines =>
      if isFence line then sidedChars (!inCode) lines
      else (line.map fun c => (inCode, c)) ++ sidedChars inCode lines

private theorem flush_chars (r : Reader) :
    r.flush.flatMap Segment.chars =
      r.out.flatMap Segment.chars ++ r.buf.map fun c => (r.inCode, c) := by
  rw [Reader.flush]
  split
  · rename_i hbuf
    rw [hbuf, List.map_nil, List.append_nil]
  · rw [List.flatMap_append, List.flatMap_singleton]
    cases r.inCode <;> rfl

private theorem foldl_readLine_chars (r : Reader) (lines : List (List Char)) :
    ((lines.foldl Reader.readLine r).flush).flatMap Segment.chars =
      r.flush.flatMap Segment.chars ++ sidedChars r.inCode lines := by
  induction lines generalizing r with
  | nil => exact (List.append_nil _).symm
  | cons line lines ih =>
      rw [List.foldl_cons, ih, sidedChars]
      by_cases hf : isFence line = true
      · rw [if_pos hf, Reader.readLine, if_pos hf]
        cases hr : r.inCode with
        | true => simp [flush_chars, hr, Segment.chars]
        | false =>
            simp only [Bool.false_eq_true, if_false]
            rw [flush_chars]
            simp
      · rw [if_neg hf, Reader.readLine, if_neg hf, flush_chars, flush_chars]
        simp

private theorem splitCodeFences_eq (text : List Char) : splitCodeFences text = readFences text := by
  have hstart : (Scan.mk [] [] [] [] false true).Reads ⟨[], false, [], []⟩ :=
    ⟨rfl, rfl, rfl, rfl, rfl, fun _ => rfl⟩
  have hend := scan_reads text hstart rfl
  rw [splitCodeFences, readFences]
  generalize scan ⟨[], [], [], [], false, true⟩ text = s at hend
  generalize (linesOf text).foldl Reader.readLine ⟨[], false, [], []⟩ = r at hend
  obtain ⟨hout, hin, hlang, hbuf, hother, -⟩ := hend
  have hflush : (if s.inCode ∧ s.code ≠ [] then s.out ++ [.code s.lang s.code]
      else if s.prose ≠ [] then s.out ++ [.prose s.prose] else s.out) = r.flush := by
    rw [Reader.flush]
    cases hr : r.inCode with
    | true =>
        simp only [hr, if_true] at hin hbuf hother
        by_cases hnil : r.buf = [] <;> simp [hin, hbuf, hother, hout, hlang, hnil]
    | false =>
        simp only [hr, Bool.false_eq_true, if_false] at hin hbuf hother
        by_cases hnil : r.buf = [] <;> simp [hin, hbuf, hother, hout, hnil]
  simp only [hflush]

/-- The fences are split as a reader of lines splits them, and every character of another line is on
its side, once and in order. -/
theorem splitCodeFences_reads_lines (text : List Char) :
    splitCodeFences text = readFences text ∧
      (splitCodeFences text).flatMap Segment.chars = sidedChars false (linesOf text) := by
  refine ⟨splitCodeFences_eq text, ?_⟩
  have hlines := foldl_readLine_chars ⟨[], false, [], []⟩ (linesOf text)
  have hstart : (Reader.mk [] false [] []).flush = [] := rfl
  rw [hstart, List.flatMap_nil, List.nil_append] at hlines
  rw [splitCodeFences_eq, readFences, ← hlines]
  generalize ((linesOf text).foldl Reader.readLine ⟨[], false, [], []⟩).flush = out
  split
  · rename_i hout
    rw [hout]
    rfl
  · rfl

end IntelNav.Tui
