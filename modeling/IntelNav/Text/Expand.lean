import Mathlib.Data.List.Basic
import Mathlib.Tactic.Common

/-! Texts with references, and the scanner that puts in what they refer to. -/

set_option autoImplicit false
set_option relaxedAutoImplicit false

namespace IntelNav.Text

universe u

variable {α : Type u}

/-- Where a text begins with a reference: what it refers to, and what follows it. -/
structure Refs (α : Type u) where
  find : List α → Option (List α × List α)
  shorter : ∀ cs full rest, find cs = some (full, rest) → rest.length < cs.length

/-- One element of what was written: itself, or a reference. -/
inductive Piece (α : Type u)
  | lit (a : α)
  | ref (mark full : List α)

namespace Piece

def shown : Piece α → List α
  | .lit a => [a]
  | .ref mark _ => mark

def meant : Piece α → List α
  | .lit a => [a]
  | .ref _ full => full

end Piece

@[simp] theorem Piece.meant_ref (mark full : List α) : (Piece.ref mark full).meant = full := rfl

@[simp] theorem Piece.shown_ref (mark full : List α) : (Piece.ref mark full).shown = mark := rfl

def shown (ps : List (Piece α)) : List α := ps.flatMap Piece.shown

def meant (ps : List (Piece α)) : List α := ps.flatMap Piece.meant

@[simp] theorem shown_cons (p : Piece α) (ps : List (Piece α)) :
    shown (p :: ps) = p.shown ++ shown ps := List.flatMap_cons

@[simp] theorem meant_cons (p : Piece α) (ps : List (Piece α)) :
    meant (p :: ps) = p.meant ++ meant ps := List.flatMap_cons

@[simp] theorem shown_append (ps qs : List (Piece α)) : shown (ps ++ qs) = shown ps ++ shown qs :=
  List.flatMap_append

@[simp] theorem meant_append (ps qs : List (Piece α)) : meant (ps ++ qs) = meant ps ++ meant qs :=
  List.flatMap_append

theorem shown_lits (as : List α) : shown (as.map Piece.lit) = as := by
  induction as with
  | nil => rfl
  | cons a as ih =>
      rw [List.map_cons, shown_cons, ih]
      rfl

theorem meant_lits (as : List α) : meant (as.map Piece.lit) = as := by
  induction as with
  | nil => rfl
  | cons a as ih =>
      rw [List.map_cons, meant_cons, ih]
      rfl

variable (R : Refs α)

/-- References are replaced from the front, everything else is copied. -/
def expand (text : List α) : List α :=
  match text with
  | [] => []
  | a :: rest =>
      match _h : R.find (a :: rest) with
      | some (full, after) => full ++ expand after
      | none => a :: expand rest
termination_by text.length
decreasing_by
  · exact R.shorter _ _ _ _h
  · exact Nat.lt_succ_self _

def Found (after : List α) (ps : List (Piece α)) : Prop :=
  ∀ pre mark full post, ps = pre ++ .ref mark full :: post →
    mark ≠ [] ∧ R.find (mark ++ (shown post ++ after)) = some (full, shown post ++ after)

def NoStray (after : List α) (ps : List (Piece α)) : Prop :=
  ∀ pre a post, ps = pre ++ .lit a :: post → R.find (a :: (shown post ++ after)) = none

variable {R}

theorem expand_found {mark full rest : List α} (hne : mark ≠ [])
    (h : R.find (mark ++ rest) = some (full, rest)) :
    expand R (mark ++ rest) = full ++ expand R rest := by
  obtain ⟨a, mark, rfl⟩ := List.exists_cons_of_ne_nil hne
  rw [List.cons_append] at h ⊢
  rw [expand]
  split
  · rename_i full' after hfind
    rw [h] at hfind
    obtain ⟨rfl, rfl⟩ := Prod.mk.inj (Option.some.inj hfind)
    rfl
  · rename_i hfind
    rw [h] at hfind
    cases hfind

theorem expand_ref {a : α} {rest full after : List α}
    (h : R.find (a :: rest) = some (full, after)) :
    expand R (a :: rest) = full ++ expand R after := by
  rw [expand]
  split
  · rename_i full' after' hfind
    rw [h] at hfind
    obtain ⟨rfl, rfl⟩ := Prod.mk.inj (Option.some.inj hfind)
    rfl
  · rename_i hfind
    rw [h] at hfind
    cases hfind

theorem expand_lit {a : α} {rest : List α} (h : R.find (a :: rest) = none) :
    expand R (a :: rest) = a :: expand R rest := by
  rw [expand]
  split
  · rename_i hfind
    rw [h] at hfind
    cases hfind
  · rfl

theorem Found.tail {after : List α} {p : Piece α} {ps : List (Piece α)}
    (h : Found R after (p :: ps)) : Found R after ps := by
  intro pre mark full post hps
  exact h (p :: pre) mark full post (by rw [hps, List.cons_append])

theorem NoStray.tail {after : List α} {p : Piece α} {ps : List (Piece α)}
    (h : NoStray R after (p :: ps)) : NoStray R after ps := by
  intro pre a post hps
  exact h (p :: pre) a post (by rw [hps, List.cons_append])

theorem expand_pieces {ps : List (Piece α)} {after : List α} (hfound : Found R after ps)
    (hlit : NoStray R after ps) : expand R (shown ps ++ after) = meant ps ++ expand R after := by
  induction ps with
  | nil => rfl
  | cons p ps ih =>
      have hrest := ih hfound.tail hlit.tail
      cases p with
      | lit a =>
          have hnone := hlit [] a ps rfl
          rw [shown_cons, meant_cons, List.append_assoc, List.append_assoc, ← hrest]
          exact expand_lit hnone
      | ref mark full =>
          obtain ⟨hne, hfind⟩ := hfound [] mark full ps rfl
          rw [shown_cons, meant_cons, List.append_assoc, List.append_assoc, ← hrest]
          exact expand_found hne hfind

theorem expand_stray {ps : List (Piece α)} (hfound : Found R [] ps) (h : ¬NoStray R [] ps) :
    ∃ pre a post full rest, ps = pre ++ .lit a :: post ∧
      R.find (a :: shown post) = some (full, rest) ∧
      expand R (shown ps) = meant pre ++ (full ++ expand R rest) := by
  induction ps with
  | nil =>
      exfalso
      apply h
      intro pre a post hps
      have hlen := congrArg List.length hps
      simp at hlen
  | cons p ps ih =>
      by_cases hhere : ∃ a full rest, p = .lit a ∧ R.find (a :: shown ps) = some (full, rest)
      · obtain ⟨a, full, rest, rfl, hfind⟩ := hhere
        exact ⟨[], a, ps, full, rest, rfl, hfind, expand_ref hfind⟩
      · have hlater : ¬NoStray R [] ps := by
          intro hnone
          apply h
          intro pre a post hps
          cases pre with
          | nil =>
              obtain ⟨rfl, rfl⟩ := List.cons.inj hps
              cases hfind : R.find (a :: (shown ps ++ [])) with
              | none => rfl
              | some r =>
                  rw [List.append_nil] at hfind
                  exact absurd ⟨a, r.1, r.2, rfl, hfind⟩ hhere
          | cons q pre => exact hnone pre a post (List.cons.inj hps).2
        obtain ⟨pre, a, post, full, rest, rfl, hfind, hexpand⟩ := ih hfound.tail hlater
        refine ⟨p :: pre, a, post, full, rest, rfl, hfind, ?_⟩
        rw [shown_cons, meant_cons, List.append_assoc, ← hexpand]
        cases p with
        | lit b =>
            apply expand_lit
            cases hfind' : R.find (b :: shown (pre ++ .lit a :: post)) with
            | none => exact hfind'
            | some r => exact absurd ⟨b, r.1, r.2, rfl, hfind'⟩ hhere
        | ref mark full' =>
            obtain ⟨hne, hfind'⟩ := hfound [] mark full' _ rfl
            rw [List.append_nil] at hfind'
            exact expand_found hne hfind'

end IntelNav.Text
