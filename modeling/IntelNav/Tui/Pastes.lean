import IntelNav.ModelStore.Selection
import IntelNav.Text.Expand
import IntelNav.Tui.Input

/-! Large pastes: kept beside the input behind a placeholder, and put back when the input is
submitted. -/

set_option autoImplicit false
set_option relaxedAutoImplicit false

namespace IntelNav.Tui

open Text ModelStore

/-- The stashed texts, the last first, and the number of the next one. -/
structure Pastes where
  stash : List (UInt32 × List Char)
  nextPasteId : UInt32

/-- `next_paste_id += 1`; a checked build panics past the last number. -/
def nextId (checked : Bool) (id : UInt32) : Option UInt32 :=
  if checked = true ∧ id.toNat + 1 = 2 ^ 32 then none else some (id + 1)

def threshold : Nat := 10000

def keepHead (pasted : List Char) : List Char := pasted.take 500

def keepTail (pasted : List Char) : List Char := (pasted.reverse.take 500).reverse

def middle (pasted : List Char) : List Char := (pasted.drop 500).take (pasted.length - (500 + 500))

def opening : List Char := "[#pasted-".toList

/-- `{id} +{lines} lines`. -/
def label (id : UInt32) (lines : Nat) : List Char :=
  (toString id.toNat).toList ++ ' ' :: ('+' :: (toString lines).toList ++ " lines".toList)

def marker (id : UInt32) (lines : Nat) : List Char :=
  opening ++ (label id lines ++ [']'])

def placeholder (id : UInt32) (pasted : List Char) : List Char :=
  marker id ((middle pasted).count '\n' + 1)

private theorem placeholder_eq (id : UInt32) (pasted : List Char) :
    placeholder id pasted = marker id ((middle pasted).count '\n' + 1) := rfl

/-- What `insert_paste` puts into the input. -/
def pasteBody (checked : Bool) (p : Pastes) (pasted : List Char) : Option (Pastes × List Char) :=
  if threshold < pasted.length then
    (nextId checked p.nextPasteId).map fun next =>
      (⟨(p.nextPasteId, middle pasted) :: p.stash, next⟩,
        keepHead pasted ++ (placeholder p.nextPasteId pasted ++ keepTail pasted))
  else some (p, pasted)

/-- `split_whitespace().next()`. -/
def firstWord (cs : List Char) : Option (List Char) :=
  let word := (cs.dropWhile isWhitespace).takeWhile fun c => !isWhitespace c
  if word = [] then none else some word

/-- A placeholder of a stashed text at the front: the text, and what follows. A number that cannot
be read counts as zero. -/
def refAt (stash : List (UInt32 × List Char)) (cs : List Char) : Option (List Char × List Char) :=
  if opening <+: cs then
    let rest := cs.drop 9
    if ']' ∈ rest then
      let token := rest.takeWhile fun c => c != ']'
      let id := ((firstWord token).bind parseU32).getD 0
      (stash.lookup id).map fun full => (full, rest.drop (token.length + 1))
    else none
  else none

private theorem refAt_shorter (stash : List (UInt32 × List Char)) (cs full rest : List Char)
    (h : refAt stash cs = some (full, rest)) : rest.length < cs.length := by
  rw [refAt] at h
  split at h
  · rename_i hpre
    have hlen := hpre.length_le
    have hnine : opening.length = 9 := rfl
    simp only at h
    split at h
    · obtain ⟨_, -, hpair⟩ := Option.map_eq_some_iff.mp h
      obtain ⟨-, rfl⟩ := Prod.mk.inj hpair
      simp only [List.length_drop]
      omega
    · cases h
  · cases h

def pasteRefs (stash : List (UInt32 × List Char)) : Refs Char := ⟨refAt stash, refAt_shorter stash⟩

def inflatePasteRefs (stash : List (UInt32 × List Char)) (text : List Char) : List Char :=
  if stash = [] then text else expand (pasteRefs stash) text

inductive Typing
  | typed (c : Char)
  | pasted (s : List Char)

structure PasteBox where
  box : InputBox
  pastes : Pastes

def PasteBox.step (checked : Bool) (b : PasteBox) : Typing → Option PasteBox
  | .typed c => some { b with box := b.box.pushUndo.insertStr (String.singleton c) }
  | .pasted s => (pasteBody checked b.pastes s).map fun r =>
      ⟨b.box.insertPaste (String.ofList r.2), r.1⟩

def PasteBox.run (checked : Bool) (b : PasteBox) (ops : List Typing) : Option PasteBox :=
  ops.foldlM (PasteBox.step checked) b

def Typing.literal : Typing → List Char
  | .typed c => [c]
  | .pasted s => s

/-- What an operation writes: characters, and perhaps a placeholder with the next number. -/
def Typing.pieces (id : UInt32) : Typing → List (Piece Char)
  | .typed c => [.lit c]
  | .pasted s =>
      if threshold < s.length then
        (keepHead s).map .lit ++ .ref (placeholder id s) (middle s) :: (keepTail s).map .lit
      else s.map .lit

def Typing.idAfter (id : UInt32) : Typing → UInt32
  | .typed _ => id
  | .pasted s => if threshold < s.length then id + 1 else id

def piecesOf : UInt32 → List Typing → List (Piece Char)
  | _, [] => []
  | id, op :: ops => op.pieces id ++ piecesOf (op.idAfter id) ops

def Typing.large : Typing → Nat
  | .typed _ => 0
  | .pasted s => if threshold < s.length then 1 else 0

def largePastes (ops : List Typing) : Nat := (ops.map Typing.large).sum

/-- The numbers of the large pastes are different ones, and none is past the last number that a
checked build can count to. -/
def Numbered (checked : Bool) (id : UInt32) (ops : List Typing) : Prop :=
  largePastes ops ≤ 2 ^ 32 ∧ (checked = true → id.toNat + largePastes ops < 2 ^ 32)

private theorem keep_all (pasted : List Char) (h : threshold < pasted.length) :
    keepHead pasted ++ (middle pasted ++ keepTail pasted) = pasted := by
  have htail : keepTail pasted = (pasted.drop 500).drop (pasted.length - (500 + 500)) := by
    have hlen : 500 + (pasted.length - (500 + 500)) = pasted.length - 500 := by
      rw [threshold] at h
      omega
    rw [keepTail, List.take_reverse, List.reverse_reverse, List.drop_drop, hlen]
  rw [keepHead, middle, htail, List.take_append_drop, List.take_append_drop]

private theorem Typing.meant_pieces (id : UInt32) (op : Typing) :
    meant (op.pieces id) = op.literal := by
  cases op with
  | typed c => rfl
  | pasted s =>
      rw [Typing.pieces, Typing.literal]
      split
      · rename_i hlong
        rw [meant_append, meant_cons, meant_lits, meant_lits, Piece.meant_ref, keep_all s hlong]
      · exact meant_lits s

private theorem meant_piecesOf (id : UInt32) (ops : List Typing) :
    meant (piecesOf id ops) = ops.flatMap Typing.literal := by
  induction ops generalizing id with
  | nil => rfl
  | cons op ops ih => rw [piecesOf, meant_append, op.meant_pieces, ih, List.flatMap_cons]

private theorem isDigit_not_whitespace {c : Char} (h : c.isDigit = true) :
    isWhitespace c = false := by
  have hnat : 48 ≤ c.toNat ∧ c.toNat ≤ 57 := by
    simpa [Char.isDigit, UInt32.le_iff_toNat_le] using h
  simp only [isWhitespace, Bool.or_eq_false_iff, Bool.and_eq_false_iff, decide_eq_false_iff_not]
  omega

private theorem isDigit_of_toString {n : Nat} {c : Char} (h : c ∈ (toString n).toList) :
    c.isDigit = true := by
  rw [Nat.toString_eq_ofList_toDigits, String.toList_ofList] at h
  exact Nat.isDigit_of_mem_toDigits (by decide) (by decide) h

private theorem toString_ne_nil (n : Nat) : (toString n).toList ≠ [] := by
  rw [Nat.toString_eq_ofList_toDigits, String.toList_ofList]
  exact Nat.toDigits_ne_nil

private theorem firstWord_digits (n : Nat) (cs : List Char) :
    firstWord ((toString n).toList ++ ' ' :: cs) = some (toString n).toList := by
  have hdigits : ∀ c ∈ (toString n).toList, isWhitespace c = false :=
    fun c hc => isDigit_not_whitespace (isDigit_of_toString hc)
  have hne := toString_ne_nil n
  generalize (toString n).toList = ds at hdigits hne
  have hdrop : (ds ++ ' ' :: cs).dropWhile isWhitespace = ds ++ ' ' :: cs := by
    obtain ⟨d, ds, rfl⟩ := List.exists_cons_of_ne_nil hne
    rw [List.cons_append, List.dropWhile_cons_of_neg]
    simp [hdigits d List.mem_cons_self]
  have htake : (ds ++ ' ' :: cs).takeWhile (fun c => !isWhitespace c) = ds := by
    have hblank : isWhitespace ' ' = true := by decide
    rw [List.takeWhile_append_of_pos]
    · rw [List.takeWhile_cons_of_neg (by simp [hblank]), List.append_nil]
    · intro c hc
      simp [hdigits c hc]
  rw [firstWord, hdrop, htake]
  exact if_neg hne

private theorem label_no_bracket (id : UInt32) (lines : Nat) : ∀ c ∈ label id lines,
    (c != ']') = true := by
  have hdigit : ∀ {n : Nat} {c : Char}, c ∈ (toString n).toList → (c != ']') = true := by
    intro n c hc
    apply bne_iff_ne.mpr
    rintro rfl
    exact absurd (isDigit_of_toString hc) (by decide)
  have hlines : ∀ c ∈ " lines".toList, (c != ']') = true :=
    List.all_eq_true.mp (rfl : " lines".toList.all (fun c => c != ']') = true)
  intro c hc
  rw [label, List.mem_append, List.mem_cons, List.cons_append, List.mem_cons, List.mem_append] at hc
  rcases hc with hc | rfl | rfl | hc | hc
  · exact hdigit hc
  · rfl
  · rfl
  · exact hdigit hc
  · exact hlines c hc

theorem refAt_bracket (stash : List (UInt32 × List Char)) {token : List Char}
    (hplain : ∀ c ∈ token, (c != ']') = true) (rest : List Char) :
    refAt stash (opening ++ (token ++ ']' :: rest)) =
      (stash.lookup (((firstWord token).bind parseU32).getD 0)).map fun full => (full, rest) := by
  have hdrop : (opening ++ (token ++ ']' :: rest)).drop 9 = token ++ ']' :: rest :=
    List.drop_left' rfl
  have htoken : (token ++ ']' :: rest).takeWhile (fun c => c != ']') = token := by
    rw [List.takeWhile_append_of_pos hplain, List.takeWhile_cons_of_neg (by decide),
      List.append_nil]
  have hafter : (token ++ ']' :: rest).drop (token.length + 1) = rest := by
    rw [← List.drop_drop, List.drop_left, List.drop_one, List.tail_cons]
  rw [refAt, if_pos (List.prefix_append _ _)]
  simp only [hdrop]
  rw [if_pos (List.mem_append_right _ List.mem_cons_self), htoken, hafter]

private theorem refAt_token {stash : List (UInt32 × List Char)} {id : UInt32} {full : List Char}
    (h : stash.lookup id = some full) {token word : List Char}
    (hplain : ∀ c ∈ token, (c != ']') = true) (hword : firstWord token = some word)
    (hid : parseU32 word = some id) (rest : List Char) :
    refAt stash (opening ++ (token ++ ']' :: rest)) = some (full, rest) := by
  rw [refAt_bracket stash hplain, hword, Option.bind_some, hid, Option.getD_some, h,
    Option.map_some]

private theorem refAt_marker {stash : List (UInt32 × List Char)} {id : UInt32} {full : List Char}
    (h : stash.lookup id = some full) (lines : Nat) (rest : List Char) :
    refAt stash (marker id lines ++ rest) = some (full, rest) := by
  have htext : marker id lines ++ rest = opening ++ (label id lines ++ ']' :: rest) := by
    rw [marker, List.append_assoc, List.append_assoc, List.singleton_append]
  have hword : firstWord (label id lines) = some (toString id.toNat).toList := by
    rw [label, firstWord_digits]
  rw [htext, refAt_token h (label_no_bracket id lines) hword (parseU32_toString id)]

theorem inflatePasteRefs_eq (stash : List (UInt32 × List Char)) (text : List Char) :
    inflatePasteRefs stash text = expand (pasteRefs stash) text := by
  rw [inflatePasteRefs]
  split
  · rename_i hnil
    have hnone : ∀ cs, (pasteRefs stash).find cs = none := by
      intro cs
      have hlookup : ∀ id : UInt32, stash.lookup id = none := by
        rw [hnil]
        intro id
        rfl
      change refAt stash cs = none
      rw [refAt]
      split
      · simp only [hlookup, Option.map_none]
        exact ite_self none
      · rfl
    induction text with
    | nil => rw [expand]
    | cons c text ih => rw [expand_lit (hnone _), ← ih]
  · rfl

private theorem marker_ne_nil (id : UInt32) (lines : Nat) : marker id lines ≠ [] := by
  rw [marker, ← List.append_assoc]
  exact List.append_ne_nil_of_right_ne_nil _ (List.cons_ne_nil _ _)

/-- The references among what an operation writes are to stashed texts. -/
def Stashed (stash : List (UInt32 × List Char)) (ps : List (Piece Char)) : Prop :=
  ∀ mark full, .ref mark full ∈ ps →
    ∃ id lines, mark = marker id lines ∧ stash.lookup id = some full

theorem Stashed.found {stash : List (UInt32 × List Char)} {ps : List (Piece Char)}
    (h : Stashed stash ps) (after : List Char) : Found (pasteRefs stash) after ps := by
  rintro pre mark full post rfl
  obtain ⟨id, lines, rfl, hfull⟩ := h mark full (by simp)
  constructor
  · exact marker_ne_nil id lines
  · simp only [pasteRefs]
    exact refAt_marker hfull lines _

private theorem ref_not_mem {mark full : List Char} (cs : List Char) :
    .ref mark full ∉ cs.map Piece.lit := by
  intro hmem
  obtain ⟨c, -, hc⟩ := List.mem_map.mp hmem
  cases hc

def Appended (b b' : InputBox) (cs : List Char) : Prop :=
  b'.input.toList = b.input.toList ++ cs ∧ b'.cursor = b'.input.length

private theorem insertStr_end {b : InputBox} (hend : b.cursor = b.input.length) (s : String) :
    Appended b (b.insertStr s) s.toList := by
  have hlen : b.input.toList.length = b.cursor := by rw [hend, String.length_toList]
  have htext : (b.insertStr s).input.toList = b.input.toList ++ s.toList := by
    simp only [InputBox.insertStr, InputBox.replaceRange, String.toList_ofList]
    rw [List.take_of_length_le (Nat.le_of_eq hlen), List.drop_of_length_le (Nat.le_of_eq hlen),
      List.append_nil]
  refine ⟨htext, ?_⟩
  rw [← String.length_toList, htext, List.length_append, hlen, String.length_toList]
  rfl

/-- The middle of a large paste is stashed under the next number. -/
private theorem pasteBody_large {checked : Bool} {p : Pastes} {s : List Char}
    (hlong : threshold < s.length) (hnext : (nextId checked p.nextPasteId).isSome = true) :
    pasteBody checked p s =
      some (⟨(p.nextPasteId, middle s) :: p.stash, p.nextPasteId + 1⟩,
        keepHead s ++ (placeholder p.nextPasteId s ++ keepTail s)) := by
  obtain ⟨next, hnext⟩ := Option.isSome_iff_exists.mp hnext
  have hid : next = p.nextPasteId + 1 := by
    rw [nextId] at hnext
    split at hnext
    · cases hnext
    · exact (Option.some.inj hnext).symm
  rw [pasteBody, if_pos hlong, hnext, Option.map_some, hid]

/-- One operation at the end of the input writes its pieces, and the stash keeps what it has but
for the number that it takes. -/
private theorem PasteBox.step_pieces {checked : Bool} {b : PasteBox}
    (hend : b.box.cursor = b.box.input.length) (op : Typing)
    (hnext : op.large = 0 ∨ (nextId checked b.pastes.nextPasteId).isSome = true) :
    ∃ b', b.step checked op = some b' ∧
      Appended b.box b'.box (shown (op.pieces b.pastes.nextPasteId)) ∧
      b'.pastes.nextPasteId = op.idAfter b.pastes.nextPasteId ∧
      (∀ id full, op.large = 0 ∨ id ≠ b.pastes.nextPasteId →
        b.pastes.stash.lookup id = some full → b'.pastes.stash.lookup id = some full) ∧
      ∀ mark full, .ref mark full ∈ op.pieces b.pastes.nextPasteId →
        op.large = 1 ∧ ∃ lines, mark = marker b.pastes.nextPasteId lines ∧
          b'.pastes.stash.lookup b.pastes.nextPasteId = some full := by
  cases op with
  | typed c =>
      have happ := insertStr_end (b := b.box.pushUndo) hend (String.singleton c)
      rw [String.toList_singleton] at happ
      exact ⟨_, rfl, happ, rfl, fun _ _ _ h => h, fun mark full h => absurd h (ref_not_mem [c])⟩
  | pasted s =>
      by_cases hlong : threshold < s.length
      · have hone : (Typing.pasted s).large = 1 := if_pos hlong
        have hsome : (nextId checked b.pastes.nextPasteId).isSome = true := by
          apply hnext.resolve_left
          rw [hone]
          decide
        have hbody := pasteBody_large hlong hsome
        refine ⟨⟨b.box.insertPaste (String.ofList
            (keepHead s ++ (placeholder b.pastes.nextPasteId s ++ keepTail s))),
          ⟨(b.pastes.nextPasteId, middle s) :: b.pastes.stash, b.pastes.nextPasteId + 1⟩⟩,
          ?_, ?_, ?_, ?_, ?_⟩
        · rw [PasteBox.step, hbody, Option.map_some]
        · have happ := insertStr_end hend (String.ofList
            (keepHead s ++ (placeholder b.pastes.nextPasteId s ++ keepTail s)))
          rw [String.toList_ofList] at happ
          rw [Typing.pieces, if_pos hlong, shown_append, shown_cons, shown_lits, shown_lits,
            Piece.shown_ref]
          exact happ
        · rw [Typing.idAfter, if_pos hlong]
        · intro id full hne hfull
          have hne' : (id == b.pastes.nextPasteId) = false := by
            apply beq_false_of_ne
            apply hne.resolve_left
            rw [hone]
            decide
          simp only [List.lookup_cons, hne']
          exact hfull
        · rw [Typing.pieces, if_pos hlong]
          intro mark full hmem
          rw [List.mem_append, List.mem_cons] at hmem
          rcases hmem with hmem | heq | hmem
          · exact absurd hmem (ref_not_mem _)
          · obtain ⟨hmark, hfull⟩ := Piece.ref.inj heq
            refine ⟨hone, _, hmark.trans (placeholder_eq _ _), ?_⟩
            rw [List.lookup_cons, beq_self_eq_true, hfull]
          · exact absurd hmem (ref_not_mem _)
      · have hbody : pasteBody checked b.pastes s = some (b.pastes, s) := by
          rw [pasteBody, if_neg hlong]
        refine ⟨⟨b.box.insertPaste (String.ofList s), b.pastes⟩, ?_, ?_, ?_, fun _ _ _ h => h, ?_⟩
        · rw [PasteBox.step, hbody, Option.map_some]
        · have happ := insertStr_end hend (String.ofList s)
          rw [String.toList_ofList] at happ
          rw [Typing.pieces, if_neg hlong, shown_lits]
          exact happ
        · rw [Typing.idAfter, if_neg hlong]
        · rw [Typing.pieces, if_neg hlong]
          exact fun mark full h => absurd h (ref_not_mem s)

def Ahead (id next : UInt32) (n : Nat) : Prop := ∃ k < n, id = next + UInt32.ofNat k

private theorem not_ahead_self {n : Nat} (h : n + 1 ≤ 2 ^ 32) (id : UInt32) :
    ¬Ahead id (id + 1) n := by
  rintro ⟨k, hk, heq⟩
  have hnat := congrArg UInt32.toNat heq
  simp only [UInt32.toNat_add, UInt32.toNat_one, UInt32.toNat_ofNat'] at hnat
  have hlt := id.toNat_lt
  omega

theorem Ahead.succ {id next : UInt32} {n : Nat} (h : Ahead id (next + 1) n) :
    Ahead id next (n + 1) := by
  obtain ⟨k, hk, rfl⟩ := h
  refine ⟨k + 1, Nat.succ_lt_succ hk, ?_⟩
  rw [UInt32.ofNat_add, UInt32.add_assoc, UInt32.add_comm (UInt32.ofNat k)]
  rfl

private theorem ahead_first (next : UInt32) (n : Nat) : Ahead next next (n + 1) :=
  ⟨0, Nat.succ_pos n, (UInt32.add_zero next).symm⟩

private theorem Typing.large_cases (op : Typing) (id : UInt32) :
    op.large = 0 ∧ op.idAfter id = id ∨ op.large = 1 ∧ op.idAfter id = id + 1 := by
  cases op with
  | typed c => exact .inl ⟨rfl, rfl⟩
  | pasted s =>
      rw [Typing.large, Typing.idAfter]
      split
      · exact .inr ⟨rfl, rfl⟩
      · exact .inl ⟨rfl, rfl⟩

private theorem largePastes_cons (op : Typing) (ops : List Typing) :
    largePastes (op :: ops) = op.large + largePastes ops := by
  rw [largePastes, List.map_cons, List.sum_cons]
  rfl

theorem Numbered.step {checked : Bool} {id : UInt32} {op : Typing} {ops : List Typing}
    (h : Numbered checked id (op :: ops)) :
    (op.large = 0 ∨ (nextId checked id).isSome = true) ∧ Numbered checked (op.idAfter id) ops := by
  obtain ⟨hcount, hcheck⟩ := h
  rw [largePastes_cons] at hcount hcheck
  rcases op.large_cases id with ⟨hlarge, hid⟩ | ⟨hlarge, hid⟩
  · rw [hid]
    exact ⟨.inl hlarge, by omega, fun hc => by have hlt := hcheck hc; omega⟩
  · rw [hid]
    refine ⟨.inr ?_, by omega, ?_⟩
    · rw [nextId, if_neg]
      · rfl
      · rintro ⟨hc, hlast⟩
        have hlt := hcheck hc
        omega
    · intro hc
      have hlt := hcheck hc
      rw [UInt32.toNat_add, UInt32.toNat_one, Nat.mod_eq_of_lt (by omega)]
      omega

/-- The numbers after an operation are among those before it, and its own is not. -/
theorem ahead_step (next : UInt32) {op : Typing} {ops : List Typing}
    (hcount : largePastes (op :: ops) ≤ 2 ^ 32) :
    (∀ id, Ahead id (op.idAfter next) (largePastes ops) →
      Ahead id next (largePastes (op :: ops))) ∧
    (op.large = 1 → Ahead next next (largePastes (op :: ops)) ∧
      ¬Ahead next (op.idAfter next) (largePastes ops)) := by
  rw [largePastes_cons] at hcount ⊢
  rcases op.large_cases next with ⟨hlarge, hid⟩ | ⟨hlarge, hid⟩
  · rw [hid, hlarge, Nat.zero_add]
    exact ⟨fun id h => h, fun h => by cases h⟩
  · rw [hid, hlarge, Nat.add_comm]
    refine ⟨fun id h => h.succ, fun _ => ⟨ahead_first next _, ?_⟩⟩
    apply not_ahead_self
    omega

/-- The input after any number of operations, as the pieces that they wrote. -/
private theorem PasteBox.run_pieces {checked : Bool} (ops : List Typing) {b : PasteBox}
    (hend : b.box.cursor = b.box.input.length) (hids : Numbered checked b.pastes.nextPasteId ops) :
    ∃ fin, b.run checked ops = some fin ∧
      fin.box.input.toList =
        b.box.input.toList ++ shown (piecesOf b.pastes.nextPasteId ops) ∧
      (∀ id full, ¬Ahead id b.pastes.nextPasteId (largePastes ops) →
        b.pastes.stash.lookup id = some full → fin.pastes.stash.lookup id = some full) ∧
      Stashed fin.pastes.stash (piecesOf b.pastes.nextPasteId ops) := by
  induction ops generalizing b with
  | nil =>
      refine ⟨b, rfl, (List.append_nil _).symm, fun _ _ _ h => h, ?_⟩
      intro mark full hmem
      cases hmem
  | cons op ops ih =>
      obtain ⟨hnext, hids'⟩ := hids.step
      obtain ⟨hahead, hown⟩ := ahead_step b.pastes.nextPasteId hids.1
      obtain ⟨b', hstep, ⟨htext, hend'⟩, hid, hstash, hpieces⟩ := b.step_pieces hend op hnext
      rw [← hid] at hids' hahead hown
      obtain ⟨fin, hrun, hfin, hkeep, hrefs⟩ := ih hend' hids'
      refine ⟨fin, ?_, ?_, ?_, ?_⟩
      · rw [PasteBox.run, List.foldlM_cons, hstep]
        exact hrun
      · rw [hfin, htext, hid, List.append_assoc, piecesOf, shown_append]
      · intro id full hnot hfull
        apply hkeep id full (fun h => hnot (hahead id h))
        apply hstash id full ?_ hfull
        rcases op.large_cases id with ⟨hlarge, -⟩ | ⟨hlarge, -⟩
        · exact .inl hlarge
        · refine .inr ?_
          rintro rfl
          exact hnot (hown hlarge).1
      · rw [piecesOf, ← hid]
        intro mark full hmem
        rcases List.mem_append.mp hmem with hmem | hmem
        · obtain ⟨hlarge, lines, hmark, hfull⟩ := hpieces mark full hmem
          exact ⟨_, lines, hmark, hkeep _ full (hown hlarge).2 hfull⟩
        · exact hrefs mark full hmem

/-- Pastes are transparent as long as no bracket that was typed or kept begins a placeholder of a
stashed text; the first one that does is replaced. -/
theorem pastes_transparent (checked : Bool) {start : PasteBox} (hempty : start.box.input = "")
    (hcursor : start.box.cursor = 0) (ops : List Typing)
    (hids : Numbered checked start.pastes.nextPasteId ops) :
    ∃ fin, start.run checked ops = some fin ∧
      (NoStray (pasteRefs fin.pastes.stash) [] (piecesOf start.pastes.nextPasteId ops) →
        inflatePasteRefs fin.pastes.stash fin.box.input.toList = ops.flatMap Typing.literal) ∧
      (¬NoStray (pasteRefs fin.pastes.stash) [] (piecesOf start.pastes.nextPasteId ops) →
        ∃ pre c post full rest,
          piecesOf start.pastes.nextPasteId ops = pre ++ .lit c :: post ∧
          refAt fin.pastes.stash (c :: shown post) = some (full, rest) ∧
          inflatePasteRefs fin.pastes.stash fin.box.input.toList =
            meant pre ++ (full ++ inflatePasteRefs fin.pastes.stash rest)) := by
  have hend : start.box.cursor = start.box.input.length := by rw [hcursor, hempty]; rfl
  obtain ⟨fin, hrun, hfin, -, hrefs⟩ := PasteBox.run_pieces ops hend hids
  rw [hempty, String.toList_empty, List.nil_append] at hfin
  refine ⟨fin, hrun, ?_, ?_⟩
  · intro hlit
    have hexpand := expand_pieces (hrefs.found []) hlit
    rw [List.append_nil, expand, List.append_nil] at hexpand
    rw [inflatePasteRefs_eq, hfin, hexpand, meant_piecesOf]
  · intro hstray
    obtain ⟨pre, c, post, full, rest, hsplit, hfind, hexpand⟩ :=
      expand_stray (hrefs.found []) hstray
    refine ⟨pre, c, post, full, rest, hsplit, hfind, ?_⟩
    rw [inflatePasteRefs_eq, inflatePasteRefs_eq, hfin, hexpand]

def freshBox : PasteBox := ⟨.empty, ⟨[], 1⟩⟩

private theorem noStray_of_noBracket {id : UInt32} {ops : List Typing}
    (h : '[' ∉ ops.flatMap Typing.literal) (stash : List (UInt32 × List Char)) :
    NoStray (pasteRefs stash) [] (piecesOf id ops) := by
  intro pre a post hsplit
  have ha : a ≠ '[' := by
    rintro rfl
    apply h
    rw [← meant_piecesOf id, hsplit, meant_append, meant_cons]
    exact List.mem_append_right _ List.mem_cons_self
  have hopening : ¬opening <+: a :: (shown post ++ []) := by
    rintro ⟨rest, hrest⟩
    exact ha (List.cons.inj hrest).1.symm
  exact if_neg hopening

def longPaste : List Typing := [.typed 'a', .pasted (List.replicate 10001 'x')]

theorem pastes_transparent_fresh :
    ∃ fin, freshBox.run true longPaste = some fin ∧
      inflatePasteRefs fin.pastes.stash fin.box.input.toList = 'a' :: List.replicate 10001 'x' := by
  have hids : Numbered true 1 longPaste := by
    have hlong : threshold < (List.replicate 10001 'x').length := by
      rw [List.length_replicate, threshold]
      omega
    have hone : largePastes longPaste = 1 := by
      rw [largePastes, longPaste, List.map_cons, List.map_singleton, Typing.large, Typing.large,
        if_pos hlong]
      rfl
    rw [Numbered, hone]
    exact ⟨by decide, fun _ => by decide⟩
  have hliteral : longPaste.flatMap Typing.literal = 'a' :: List.replicate 10001 'x' := by
    rw [longPaste, List.flatMap_cons, List.flatMap_singleton]
    rfl
  have hbracket : '[' ∉ longPaste.flatMap Typing.literal := by
    rw [hliteral, List.mem_cons, List.mem_replicate]
    decide
  obtain ⟨fin, hrun, hsame, -⟩ := pastes_transparent true (rfl : freshBox.box.input = "") rfl _ hids
  refine ⟨fin, hrun, ?_⟩
  rw [hsame (noStray_of_noBracket hbracket _), hliteral]

def lead : List Char := opening ++ ['1', ']']

private theorem lead_found (m rest : List Char) :
    refAt [(1, m)] (lead ++ rest) = some (m, rest) := by
  have hlookup : List.lookup (1 : UInt32) [(1, m)] = some m := rfl
  have hword : firstWord ['1'] = some ['1'] := by decide
  have hone : parseU32 ['1'] = some 1 := by decide
  have hplain : ∀ c ∈ ['1'], (c != ']') = true := List.forall_mem_singleton.mpr rfl
  rw [lead, List.append_assoc]
  exact refAt_token hlookup hplain hword hone rest

private theorem length_lead : lead.length = 11 := rfl

private theorem lead_kept (n : Nat) (hn : threshold < n) :
    (∃ rest, keepHead (lead ++ List.replicate n 'x') = lead ++ rest) ∧
      (middle (lead ++ List.replicate n 'x')).head? = some 'x' := by
  rw [threshold] at hn
  have hshort : lead.length ≤ 500 := by
    rw [length_lead]
    omega
  constructor
  · refine ⟨(List.replicate n 'x').take (500 - lead.length), ?_⟩
    rw [keepHead, List.take_append, List.take_of_length_le hshort]
  · have hlen : ¬min ((lead ++ List.replicate n 'x').length - (500 + 500))
        (n - (500 - lead.length)) = 0 := by
      rw [List.length_append, List.length_replicate, length_lead]
      omega
    rw [middle, List.drop_append, List.drop_of_length_le hshort, List.nil_append,
      List.drop_replicate, List.take_replicate, List.head?_replicate, if_neg hlen]

private theorem lead_replaced (checked : Bool) (n : Nat) (hn : threshold < n) :
    ∃ fin, freshBox.run checked [.pasted (lead ++ List.replicate n 'x')] = some fin ∧
      inflatePasteRefs fin.pastes.stash fin.box.input.toList ≠ lead ++ List.replicate n 'x' := by
  obtain ⟨⟨rest, hhead⟩, hmid⟩ := lead_kept n hn
  have hlong : threshold < (lead ++ List.replicate n 'x').length := by
    rw [List.length_append, List.length_replicate]
    omega
  have hstart : (lead ++ List.replicate n 'x').head? = some '[' := rfl
  generalize lead ++ List.replicate n 'x' = pasted at hhead hmid hlong hstart
  have hnext : nextId checked 1 = some 2 := by cases checked <;> rfl
  have hbody : pasteBody checked freshBox.pastes pasted =
      some (⟨[(1, middle pasted)], 2⟩,
        lead ++ (rest ++ (placeholder 1 pasted ++ keepTail pasted))) := by
    rw [pasteBody, if_pos hlong, hhead, List.append_assoc, freshBox, hnext, Option.map_some]
  have hend : freshBox.box.cursor = freshBox.box.input.length := rfl
  obtain ⟨htext, -⟩ := insertStr_end hend (String.ofList
    (lead ++ (rest ++ (placeholder 1 pasted ++ keepTail pasted))))
  have hempty : freshBox.box.input.toList = [] := rfl
  rw [String.toList_ofList, hempty, List.nil_append] at htext
  refine ⟨⟨freshBox.box.insertPaste (String.ofList
    (lead ++ (rest ++ (placeholder 1 pasted ++ keepTail pasted)))), ⟨[(1, middle pasted)], 2⟩⟩,
    ?_, ?_⟩
  · rw [PasteBox.run, List.foldlM_cons, PasteBox.step, hbody]
    rfl
  · have hinput : (freshBox.box.insertPaste (String.ofList
        (lead ++ (rest ++ (placeholder 1 pasted ++ keepTail pasted))))).input.toList =
        lead ++ (rest ++ (placeholder 1 pasted ++ keepTail pasted)) := htext
    have hne : lead ≠ [] := by
      intro hnil
      have hlen := congrArg List.length hnil
      rw [length_lead] at hlen
      cases hlen
    have hexpand := expand_found (R := pasteRefs [(1, middle pasted)]) hne
      (lead_found (middle pasted) (rest ++ (placeholder 1 pasted ++ keepTail pasted)))
    rw [inflatePasteRefs_eq, hinput, hexpand]
    intro heq
    have hfirst := congrArg List.head? heq
    rw [List.head?_append, hmid, hstart, Option.some_or] at hfirst
    exact absurd hfirst (by decide)

theorem echoed_paste_is_lost :
    ∃ fin, freshBox.run false
        [.pasted ("[#pasted-1]".toList ++ List.replicate 10001 'x')] = some fin ∧
      inflatePasteRefs fin.pastes.stash fin.box.input.toList ≠
        "[#pasted-1]".toList ++ List.replicate 10001 'x' :=
  lead_replaced false 10001 (by rw [threshold]; omega)

end IntelNav.Tui
