import IntelNav.Tui.ByteText
import IntelNav.Tui.Pastes

/-! Pastes put back by byte offsets: no slice panics, and it is the text with each placeholder
expanded. -/

set_option autoImplicit false
set_option relaxedAutoImplicit false

namespace IntelNav.Tui

open Text ModelStore

/-- A placeholder at the offset `i`: the stashed text, and the offset behind it. -/
def refFrom (stash : List (UInt32 × List Char)) (text : List Char) (i : Nat) :
    Option (Option (List Char × Nat)) := do
  let rest ← sliceFrom text i
  if opening <+: rest ∧ ']' ∈ rest then do
    let stop := byteLen (rest.takeWhile fun c => c != ']')
    let token ← sliceRange text (i + 9) (i + stop)
    let id := ((firstWord token).bind parseU32).getD 0
    pure ((stash.lookup id).map fun full => (full, i + stop + 1))
  else pure none

/-- The character at the offset `i`, and the offset of the one after it. -/
def charFrom (text : List Char) (i : Nat) : Option (List Char × Nat) := do
  let rest ← sliceFrom text i
  let stop := (((charIndices 0 rest)[1]?).map fun p => i + p.1).getD (byteLen text)
  let c ← sliceRange text i stop
  pure (c, stop)

/-- The loop of `inflate_paste_refs` from an offset on, as long as the fuel lasts. -/
def inflateFrom (stash : List (UInt32 × List Char)) (text : List Char) :
    Nat → Nat → Option (List Char)
  | 0, _ => some []
  | fuel + 1, i =>
      if byteLen text ≤ i then some []
      else do
        let found ← refFrom stash text i
        let (s, next) ← if let some r := found then pure r else charFrom text i
        let out ← inflateFrom stash text fuel next
        pure (s ++ out)

/-- `inflate_paste_refs`, with its slices. -/
def inflateBytes (stash : List (UInt32 × List Char)) (text : List Char) : Option (List Char) :=
  if stash = [] then some text else inflateFrom stash text (byteLen text + 1) 0

private theorem exists_bracket {rest : List Char} (hopen : opening <+: rest) (hmem : ']' ∈ rest) :
    ∃ token after, rest = opening ++ (token ++ ']' :: after) ∧
      ∀ c ∈ token, (c != ']') = true := by
  obtain ⟨tail, rfl⟩ := hopen
  have hnone : ']' ∉ opening := by decide
  obtain ⟨token, after, rfl, htoken⟩ :=
    List.eq_append_cons_of_mem ((List.mem_append.mp hmem).resolve_left hnone)
  refine ⟨token, after, rfl, ?_⟩
  intro c hc
  rw [bne_iff_ne]
  rintro rfl
  exact htoken hc

private theorem refAt_none {stash : List (UInt32 × List Char)} {rest : List Char}
    (h : ¬(opening <+: rest ∧ ']' ∈ rest)) : refAt stash rest = none := by
  rw [refAt]
  split
  · rename_i hopen
    have hmem : ']' ∉ rest.drop 9 := fun hmem => h ⟨hopen, List.mem_of_mem_drop hmem⟩
    simp only [if_neg hmem]
  · rfl

private theorem refFrom_eq (stash : List (UInt32 × List Char)) (done rest : List Char) :
    ∃ found, refFrom stash (done ++ rest) (byteLen done) = some found ∧
      ((found = none ∧ refAt stash rest = none) ∨
        ∃ mark full after, found = some (full, byteLen (done ++ mark)) ∧ rest = mark ++ after ∧
          mark ≠ [] ∧ refAt stash rest = some (full, after)) := by
  unfold refFrom
  rw [sliceFrom_byteLen, Option.bind_eq_bind, Option.bind_some]
  by_cases hplace : opening <+: rest ∧ ']' ∈ rest
  · obtain ⟨token, after, rfl, hplain⟩ := exists_bracket hplace.1 hplace.2
    have hopening : ∀ c ∈ opening, (c != ']') = true :=
      List.all_eq_true.mp (rfl : opening.all (fun c => c != ']') = true)
    have hstop : (opening ++ (token ++ ']' :: after)).takeWhile (fun c => c != ']') =
        opening ++ token := by
      rw [List.takeWhile_append_of_pos hopening, List.takeWhile_append_of_pos hplain,
        List.takeWhile_cons_of_neg (by decide), List.append_nil]
    have hnine : byteLen opening = 9 := rfl
    have htoken : sliceRange (done ++ (opening ++ (token ++ ']' :: after))) (byteLen done + 9)
        (byteLen done + byteLen (opening ++ token)) = some token := by
      have hslice := sliceRange_byteLen (done ++ opening) token (']' :: after)
      simp only [byteLen_append, hnine, List.append_assoc] at hslice ⊢
      exact hslice
    rw [if_pos hplace, hstop]
    simp only [htoken, refAt_bracket stash hplain, Option.bind_some]
    cases hlookup : stash.lookup (((firstWord token).bind parseU32).getD 0) with
    | none => exact ⟨none, rfl, .inl ⟨rfl, rfl⟩⟩
    | some full =>
        have hone : byteLen [']'] = 1 := rfl
        refine ⟨some (full, byteLen (done ++ (opening ++ token ++ [']']))), ?_, .inr
          ⟨opening ++ token ++ [']'], full, after, rfl, ?_, by simp, rfl⟩⟩
        · simp only [Option.map_some, byteLen_append, hone, Nat.add_assoc, Option.pure_def]
        · simp
  · rw [if_neg hplace]
    exact ⟨none, rfl, .inl ⟨rfl, refAt_none hplace⟩⟩

private theorem charFrom_eq (done : List Char) (c : Char) (cs : List Char) :
    charFrom (done ++ c :: cs) (byteLen done) = some ([c], byteLen (done ++ [c])) := by
  have hone : byteLen [c] = c.utf8Size := by rw [byteLen_cons, byteLen_nil, Nat.add_zero]
  have hstop : (((charIndices 0 (c :: cs))[1]?).map fun p => byteLen done + p.1).getD
      (byteLen (done ++ c :: cs)) = byteLen (done ++ [c]) := by
    rw [byteLen_append, byteLen_append, hone]
    cases cs with
    | nil => rw [hone]; rfl
    | cons d cs => simp [charIndices]
  have hslice := sliceRange_byteLen done [c] cs
  rw [List.append_assoc, List.singleton_append] at hslice
  unfold charFrom
  simp only [sliceFrom_byteLen, Option.bind_eq_bind, Option.bind_some, hstop, hslice,
    Option.pure_def]

private theorem inflateFrom_eq (stash : List (UInt32 × List Char)) (fuel : Nat)
    (done rest : List Char) (h : byteLen rest < fuel) :
    inflateFrom stash (done ++ rest) fuel (byteLen done) =
      some (expand (pasteRefs stash) rest) := by
  induction fuel generalizing done rest with
  | zero => exact absurd h (Nat.not_lt_zero _)
  | succ fuel ih =>
      rw [inflateFrom]
      cases rest with
      | nil => rw [List.append_nil, if_pos (Nat.le_refl _), expand]
      | cons c cs =>
          have hpos := c.utf8Size_pos
          have hmore : ¬byteLen (done ++ c :: cs) ≤ byteLen done := by
            rw [byteLen_append, byteLen_cons]
            omega
          obtain ⟨found, hfound, ⟨rfl, hnone⟩ | ⟨mark, full, after, rfl, hrest, hne, href⟩⟩ :=
            refFrom_eq stash done (c :: cs)
          · rw [byteLen_cons] at h
            have hloop := ih (done ++ [c]) cs (by omega)
            rw [List.append_assoc, List.singleton_append] at hloop
            simp only [if_neg hmore, hfound, charFrom_eq, Option.bind_eq_bind, Option.bind_some,
              hloop, Option.pure_def, List.singleton_append]
            rw [expand_lit hnone]
          · have hmark : 0 < byteLen mark := by
              obtain ⟨a, mark, rfl⟩ := List.exists_cons_of_ne_nil hne
              have ha := a.utf8Size_pos
              rw [byteLen_cons]
              omega
            rw [hrest, byteLen_append] at h
            have hloop := ih (done ++ mark) after (by omega)
            rw [List.append_assoc, ← hrest] at hloop
            simp only [if_neg hmore, hfound, Option.bind_eq_bind, Option.bind_some, hloop,
              Option.pure_def]
            rw [expand_ref href]

theorem inflateBytes_eq (stash : List (UInt32 × List Char)) (text : List Char) :
    inflateBytes stash text = some (inflatePasteRefs stash text) := by
  rw [inflatePasteRefs_eq, inflateBytes]
  split
  · rename_i hnil
    rw [← inflatePasteRefs_eq, inflatePasteRefs, if_pos hnil]
  · exact inflateFrom_eq stash _ [] text (Nat.lt_succ_self _)

end IntelNav.Tui
