import IntelNav.Tui.HomeEnd

/-! Texts cut and edited at byte offsets. An offset inside a character or past the end panics. -/

set_option autoImplicit false
set_option relaxedAutoImplicit false

namespace IntelNav.Tui

open Layout

/-- `str::split_at`. -/
def cutAt : List Char → Nat → Option (List Char × List Char)
  | cs, 0 => some ([], cs)
  | [], _ + 1 => none
  | c :: cs, i + 1 =>
      if c.utf8Size ≤ i + 1 then
        (cutAt cs (i + 1 - c.utf8Size)).map fun r => (c :: r.1, r.2)
      else none

def isCharBoundary (cs : List Char) (i : Nat) : Bool := (cutAt cs i).isSome

/-- `&s[i..j]`. -/
def sliceRange (cs : List Char) (i j : Nat) : Option (List Char) := do
  let front ← cutAt cs j
  let r ← cutAt front.1 i
  pure r.2

/-- `String::insert_str`, and `String::insert` of one character. -/
def insertStr (cs : List Char) (i : Nat) (s : List Char) : Option (List Char) :=
  (cutAt cs i).map fun r => r.1 ++ s ++ r.2

/-- `String::replace_range`, and `String::drain` with nothing in place of the range. -/
def replaceRange (cs : List Char) (i j : Nat) (s : List Char) : Option (List Char) :=
  if i ≤ j then do
    let front ← cutAt cs i
    let back ← cutAt cs j
    pure (front.1 ++ s ++ back.2)
  else none

/-- The loop of `prev_char_boundary`. -/
def backToBoundary (cs : List Char) : Nat → Nat
  | 0 => 0
  | j + 1 => if isCharBoundary cs (j + 1) then j + 1 else backToBoundary cs j

def prevCharBoundary (cs : List Char) (i : Nat) : Nat :=
  if i = 0 then 0 else backToBoundary cs (min i (byteLen cs) - 1)

/-- The loop of `next_char_boundary`, with the offsets left to the end. -/
def forwardToBoundary (cs : List Char) : Nat → Nat → Nat
  | 0, j => j
  | left + 1, j => if isCharBoundary cs j then j else forwardToBoundary cs left (j + 1)

def nextCharBoundary (cs : List Char) (i : Nat) : Nat :=
  if byteLen cs ≤ i then byteLen cs
  else forwardToBoundary cs (byteLen cs - (i + 1)) (i + 1)

theorem cutAt_byteLen (as bs : List Char) : cutAt (as ++ bs) (byteLen as) = some (as, bs) := by
  induction as with
  | nil => cases bs <;> rfl
  | cons a as ih =>
      have hpos := a.utf8Size_pos
      have hlen : byteLen (a :: as) = (a.utf8Size + byteLen as - 1) + 1 := by
        rw [byteLen_cons]
        omega
      have hrest : a.utf8Size + byteLen as - 1 + 1 - a.utf8Size = byteLen as := by omega
      rw [hlen, List.cons_append, cutAt, if_pos (by omega), hrest, ih]
      rfl

private theorem cutAt_eq_some {cs as bs : List Char} {i : Nat} :
    cutAt cs i = some (as, bs) ↔ cs = as ++ bs ∧ byteLen as = i := by
  constructor
  · intro h
    induction cs generalizing i as with
    | nil =>
        cases i with
        | zero =>
            obtain ⟨rfl, rfl⟩ := Prod.mk.inj (Option.some.inj h)
            exact ⟨rfl, rfl⟩
        | succ i => cases h
    | cons c cs ih =>
        cases i with
        | zero =>
            obtain ⟨rfl, rfl⟩ := Prod.mk.inj (Option.some.inj h)
            exact ⟨rfl, rfl⟩
        | succ i =>
            obtain ⟨hle, h⟩ := Option.ite_none_right_eq_some.mp h
            obtain ⟨⟨front, back⟩, hcut, hpair⟩ := Option.map_eq_some_iff.mp h
            obtain ⟨rfl, rfl⟩ := Prod.mk.inj hpair
            obtain ⟨rfl, hlen⟩ := ih hcut
            refine ⟨rfl, ?_⟩
            rw [byteLen_cons, hlen]
            omega
  · rintro ⟨rfl, rfl⟩
    exact cutAt_byteLen as bs

theorem isCharBoundary_iff {cs : List Char} {i : Nat} :
    isCharBoundary cs i = true ↔ ∃ as bs, cs = as ++ bs ∧ byteLen as = i := by
  rw [isCharBoundary, Option.isSome_iff_exists]
  constructor
  · rintro ⟨⟨as, bs⟩, h⟩
    exact ⟨as, bs, cutAt_eq_some.mp h⟩
  · rintro ⟨as, bs, h⟩
    exact ⟨(as, bs), cutAt_eq_some.mpr h⟩

theorem isCharBoundary_append (as bs : List Char) :
    isCharBoundary (as ++ bs) (byteLen as) = true :=
  isCharBoundary_iff.mpr ⟨as, bs, rfl, rfl⟩

private theorem isCharBoundary_zero (cs : List Char) : isCharBoundary cs 0 = true :=
  isCharBoundary_append [] cs

theorem isCharBoundary_byteLen (cs : List Char) : isCharBoundary cs (byteLen cs) = true :=
  isCharBoundary_iff.mpr ⟨cs, [], (List.append_nil cs).symm, rfl⟩

theorem le_of_isCharBoundary {cs : List Char} {i : Nat} (h : isCharBoundary cs i = true) :
    i ≤ byteLen cs := by
  obtain ⟨as, bs, rfl, rfl⟩ := isCharBoundary_iff.mp h
  rw [byteLen_append]
  exact Nat.le_add_right _ _

private theorem not_boundary_inside (as : List Char) (c : Char) (bs : List Char) {j : Nat}
    (hlt : byteLen as < j) (hj : j < byteLen as + c.utf8Size) :
    isCharBoundary (as ++ c :: bs) j = false := by
  rw [← Bool.not_eq_true, isCharBoundary_iff]
  rintro ⟨front, back, h, rfl⟩
  rcases List.append_eq_append_iff.mp h with ⟨more, rfl, hmore⟩ | ⟨more, rfl, -⟩
  · cases more with
    | nil =>
        rw [List.append_nil] at hlt
        omega
    | cons d more =>
        obtain ⟨rfl, -⟩ := List.cons_eq_cons.mp hmore
        rw [byteLen_append, byteLen_cons] at hj
        omega
  · rw [byteLen_append] at hlt
    omega

theorem sliceRange_byteLen (as bs cs : List Char) :
    sliceRange (as ++ bs ++ cs) (byteLen as) (byteLen (as ++ bs)) = some bs := by
  simp only [sliceRange, cutAt_byteLen, Option.bind_eq_bind, Option.bind_some, Option.pure_def]

theorem insertStr_byteLen (as bs s : List Char) :
    insertStr (as ++ bs) (byteLen as) s = some (as ++ s ++ bs) := by
  rw [insertStr, cutAt_byteLen, Option.map_some]

theorem replaceRange_byteLen (as bs cs s : List Char) :
    replaceRange (as ++ bs ++ cs) (byteLen as) (byteLen (as ++ bs)) s = some (as ++ s ++ cs) := by
  have hle : byteLen as ≤ byteLen (as ++ bs) := by
    rw [byteLen_append]
    exact Nat.le_add_right _ _
  have hfront : cutAt (as ++ bs ++ cs) (byteLen as) = some (as, bs ++ cs) := by
    rw [List.append_assoc]
    exact cutAt_byteLen as (bs ++ cs)
  rw [replaceRange, if_pos hle, hfront, cutAt_byteLen]
  rfl

private theorem backToBoundary_eq {cs : List Char} {k j : Nat} (hk : isCharBoundary cs k = true)
    (hkj : k ≤ j) (hno : ∀ i, k < i → i ≤ j → isCharBoundary cs i = false) :
    backToBoundary cs j = k := by
  induction j with
  | zero => exact (Nat.le_zero.mp hkj).symm
  | succ j ih =>
      rw [backToBoundary]
      by_cases heq : k = j + 1
      · rw [← heq, if_pos hk]
      · have hlt : k < j + 1 := by omega
        rw [if_neg (by simp [hno (j + 1) hlt (Nat.le_refl _)])]
        exact ih (by omega) fun i hi hij => hno i hi (by omega)

private theorem forwardToBoundary_eq {cs : List Char} {k left j : Nat}
    (hk : isCharBoundary cs k = true) (hjk : j ≤ k) (hleft : k ≤ j + left)
    (hno : ∀ i, j ≤ i → i < k → isCharBoundary cs i = false) :
    forwardToBoundary cs left j = k := by
  induction left generalizing j with
  | zero =>
      rw [forwardToBoundary]
      omega
  | succ left ih =>
      rw [forwardToBoundary]
      by_cases heq : j = k
      · rw [heq, if_pos hk]
      · have hlt : j < k := by omega
        rw [if_neg (by simp [hno j (Nat.le_refl _) hlt])]
        exact ih (by omega) (by omega) fun i hi hik => hno i (by omega) hik

theorem prevCharBoundary_append (as : List Char) (c : Char) (bs : List Char) :
    prevCharBoundary (as ++ c :: bs) (byteLen (as ++ [c])) = byteLen as := by
  have hpos := c.utf8Size_pos
  have hlen : byteLen (as ++ [c]) = byteLen as + c.utf8Size := by
    rw [byteLen_append, byteLen_cons, byteLen_nil, Nat.add_zero]
  have hle : byteLen as + c.utf8Size ≤ byteLen (as ++ c :: bs) := by
    rw [byteLen_append, byteLen_cons]
    omega
  rw [hlen, prevCharBoundary, if_neg (by omega), Nat.min_eq_left hle]
  refine backToBoundary_eq (isCharBoundary_append as _) (by omega) ?_
  intro i hi hj
  exact not_boundary_inside as c bs hi (by omega)

theorem nextCharBoundary_append (as : List Char) (c : Char) (bs : List Char) :
    nextCharBoundary (as ++ c :: bs) (byteLen as) = byteLen (as ++ [c]) := by
  have hpos := c.utf8Size_pos
  have hlen : byteLen (as ++ [c]) = byteLen as + c.utf8Size := by
    rw [byteLen_append, byteLen_cons, byteLen_nil, Nat.add_zero]
  have hsplit : as ++ c :: bs = as ++ [c] ++ bs := by
    rw [List.append_assoc, List.singleton_append]
  have hle : byteLen as + c.utf8Size ≤ byteLen (as ++ c :: bs) := by
    rw [byteLen_append, byteLen_cons]
    omega
  rw [nextCharBoundary, if_neg (by omega), hlen]
  refine forwardToBoundary_eq ?_ (by omega) (by omega) ?_
  · rw [hsplit, ← hlen]
    exact isCharBoundary_append (as ++ [c]) bs
  · intro i hi hj
    exact not_boundary_inside as c bs (by omega) hj

theorem prevCharBoundary_boundary {cs : List Char} {i : Nat} (h : isCharBoundary cs i = true) :
    isCharBoundary cs (prevCharBoundary cs i) = true := by
  obtain ⟨as, bs, rfl, rfl⟩ := isCharBoundary_iff.mp h
  rcases List.eq_nil_or_concat as with rfl | ⟨as, c, rfl⟩
  · exact isCharBoundary_zero _
  · rw [List.concat_eq_append, List.append_assoc, List.singleton_append, prevCharBoundary_append]
    exact isCharBoundary_append as _

theorem nextCharBoundary_boundary {cs : List Char} {i : Nat} (h : isCharBoundary cs i = true) :
    isCharBoundary cs (nextCharBoundary cs i) = true := by
  obtain ⟨as, bs, rfl, rfl⟩ := isCharBoundary_iff.mp h
  cases bs with
  | nil =>
      rw [List.append_nil, nextCharBoundary, if_pos (Nat.le_refl _)]
      exact isCharBoundary_byteLen as
  | cons c bs =>
      rw [nextCharBoundary_append]
      refine isCharBoundary_iff.mpr ⟨as ++ [c], bs, ?_, rfl⟩
      rw [List.append_assoc, List.singleton_append]

variable {W : CharWidths} {width : Nat}

theorem visualRowStart_boundary (hw : 0 < width) {cs : List Char} {i : Nat}
    (h : isCharBoundary cs i = true) : isCharBoundary cs (visualRowStart W cs i width) = true := by
  obtain ⟨before, after, rfl, rfl⟩ := isCharBoundary_iff.mp h
  have htext := fill_text W.columns isNewline width before
  rw [visualRowStart_eq hw]
  rw [text_eq_above] at htext
  refine isCharBoundary_iff.mpr ⟨_, (visualRows W width before).row ++ after, ?_, rfl⟩
  rw [← List.append_assoc, htext]

theorem visualRowEnd_boundary (hw : 0 < width) {cs : List Char} {i : Nat}
    (h : isCharBoundary cs i = true) :
    ∃ j, visualRowEnd W cs i width = some j ∧ isCharBoundary cs j = true := by
  obtain ⟨above, line, rfl, hstart⟩ :=
    isCharBoundary_iff.mp (visualRowStart_boundary (W := W) hw h)
  obtain ⟨row, rest, rfl, hend, -⟩ :=
    @rowEndFrom_eq W width line (byteLen above) 0 (Nat.zero_le _)
  refine ⟨byteLen (above ++ row), ?_, ?_⟩
  · rw [visualRowEnd_eq hw above _ hstart.symm, hend, byteLen_append]
  · refine isCharBoundary_iff.mpr ⟨above ++ row, rest, ?_, rfl⟩
    rw [List.append_assoc]

end IntelNav.Tui
