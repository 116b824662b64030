import Mathlib.Algebra.BigOperators.Group.List.Basic
import Mathlib.Algebra.Order.Ring.Nat
import Mathlib.Data.List.Induction
import Mathlib.Tactic.Common

/-! Items with widths, laid out from left to right in rows of bounded width. -/

set_option autoImplicit false
set_option relaxedAutoImplicit false

namespace IntelNav.Layout

universe u

variable {α : Type u}

/-- The rows that are done, each with the break that ended it, and the row being filled. -/
structure Rows (α : Type u) where
  done : List (List α × List α)
  row : List α

namespace Rows

def start : Rows α := ⟨[], []⟩

def all (r : Rows α) : List (List α) := r.done.map Prod.fst ++ [r.row]

def text (r : Rows α) : List α := r.done.flatMap (fun d => d.1 ++ d.2) ++ r.row

@[simp] theorem length_all (r : Rows α) : r.all.length = r.done.length + 1 := by
  simp [all]

/-- Later rows: the rows done stay, and the row being filled goes on or is done. -/
def Extends (r s : Rows α) : Prop :=
  (s.done = r.done ∧ r.row <+: s.row) ∨
    ∃ row brk rest, r.row <+: row ∧ s.done = r.done ++ (row, brk) :: rest

theorem Extends.refl (r : Rows α) : r.Extends r := .inl ⟨rfl, List.prefix_rfl⟩

theorem Extends.trans {r s t : Rows α} (hrs : r.Extends s) (hst : s.Extends t) : r.Extends t := by
  rcases hrs with ⟨hdone, hrow⟩ | ⟨row, brk, rest, hrow, hdone⟩
  · rcases hst with ⟨hdone', hrow'⟩ | ⟨row', brk', rest', hrow', hdone'⟩
    · exact .inl ⟨hdone'.trans hdone, hrow.trans hrow'⟩
    · exact .inr ⟨row', brk', rest', hrow.trans hrow', by rw [hdone', hdone]⟩
  · rcases hst with ⟨hdone', -⟩ | ⟨row', brk', rest', -, hdone'⟩
    · exact .inr ⟨row, brk, rest, hrow, hdone'.trans hdone⟩
    · refine .inr ⟨row, brk, rest ++ (row', brk') :: rest', hrow, ?_⟩
      rw [hdone', hdone, List.append_assoc, List.cons_append]

theorem Extends.done_prefix {r s : Rows α} (h : r.Extends s) : r.done <+: s.done := by
  rcases h with ⟨hdone, -⟩ | ⟨row, brk, rest, -, hdone⟩
  · exact ⟨[], by rw [hdone, List.append_nil]⟩
  · exact ⟨(row, brk) :: rest, hdone.symm⟩

theorem Extends.row_prefix {r s : Rows α} (h : r.Extends s) :
    ∃ row, s.all[r.done.length]? = some row ∧ r.row <+: row := by
  rcases h with ⟨hdone, hrow⟩ | ⟨row, brk, rest, hrow, hdone⟩
  · exact ⟨s.row, by simp [all, hdone], hrow⟩
  · exact ⟨row, by simp [all, hdone], hrow⟩

end Rows

section Fill

variable (w : α → Nat) (isBreak : α → Bool) (width : Nat)

def totalWidth (row : List α) : Nat := (row.map w).sum

/-- An item ends the row, or goes on it, or begins a new one where it does not fit. -/
def place (r : Rows α) (a : α) : Rows α :=
  if isBreak a then ⟨r.done ++ [(r.row, [a])], []⟩
  else if width < totalWidth w r.row + w a then ⟨r.done ++ [(r.row, [])], [a]⟩
  else ⟨r.done, r.row ++ [a]⟩

def fill (as : List α) : Rows α := as.foldl (place w isBreak width) .start

variable {w isBreak width}

@[simp] theorem totalWidth_nil : totalWidth w [] = 0 := rfl

@[simp] theorem totalWidth_append (l m : List α) :
    totalWidth w (l ++ m) = totalWidth w l + totalWidth w m := by
  simp [totalWidth]

@[simp] theorem totalWidth_singleton (a : α) : totalWidth w [a] = w a := by
  simp [totalWidth]

theorem place_break {a : α} (h : isBreak a = true) (r : Rows α) :
    place w isBreak width r a = ⟨r.done ++ [(r.row, [a])], []⟩ := if_pos h

theorem place_wrap {a : α} (h : isBreak a = false) {r : Rows α}
    (hw : width < totalWidth w r.row + w a) :
    place w isBreak width r a = ⟨r.done ++ [(r.row, [])], [a]⟩ := by
  rw [place, if_neg (by simp [h]), if_pos hw]

theorem place_fits {a : α} (h : isBreak a = false) {r : Rows α}
    (hw : totalWidth w r.row + w a ≤ width) :
    place w isBreak width r a = ⟨r.done, r.row ++ [a]⟩ := by
  rw [place, if_neg (by simp [h]), if_neg (by omega)]

private theorem place_extends (r : Rows α) (a : α) : r.Extends (place w isBreak width r a) := by
  cases hb : isBreak a with
  | true =>
      rw [place_break hb]
      exact .inr ⟨r.row, [a], [], List.prefix_rfl, rfl⟩
  | false =>
      by_cases hw : width < totalWidth w r.row + w a
      · rw [place_wrap hb hw]
        exact .inr ⟨r.row, [], [], List.prefix_rfl, rfl⟩
      · rw [place_fits hb (Nat.not_lt.mp hw)]
        exact .inl ⟨rfl, List.prefix_append _ _⟩

theorem place_text (r : Rows α) (a : α) : (place w isBreak width r a).text = r.text ++ [a] := by
  cases hb : isBreak a with
  | true =>
      rw [place_break hb]
      simp [Rows.text]
  | false =>
      by_cases hw : width < totalWidth w r.row + w a
      · rw [place_wrap hb hw]
        simp [Rows.text]
      · rw [place_fits hb (Nat.not_lt.mp hw)]
        simp [Rows.text]

private theorem foldl_place_extends (r : Rows α) (as : List α) :
    r.Extends (as.foldl (place w isBreak width) r) := by
  induction as generalizing r with
  | nil => exact .refl r
  | cons a as ih => exact (place_extends r a).trans (ih _)

private theorem foldl_place_text (r : Rows α) (as : List α) :
    (as.foldl (place w isBreak width) r).text = r.text ++ as := by
  induction as generalizing r with
  | nil => simp
  | cons a as ih => rw [List.foldl_cons, ih, place_text, List.append_assoc, List.singleton_append]

variable (w isBreak width)

theorem fill_append (as bs : List α) :
    fill w isBreak width (as ++ bs) = bs.foldl (place w isBreak width) (fill w isBreak width as) :=
  List.foldl_append

theorem fill_text (as : List α) : (fill w isBreak width as).text = as := by
  rw [fill, foldl_place_text]
  rfl

/-- The rows of the beginning of a text begin the rows of the text. -/
theorem fill_extends (as bs : List α) :
    (fill w isBreak width as).Extends (fill w isBreak width (as ++ bs)) := by
  rw [fill_append]
  exact foldl_place_extends _ bs

theorem fill_breaks (as : List α) :
    ∀ d ∈ (fill w isBreak width as).done, d.2 = [] ∨ ∃ a, isBreak a = true ∧ d.2 = [a] := by
  induction as using List.reverseRecOn with
  | nil => simp [fill, Rows.start]
  | append_singleton as a ih =>
      intro d hd
      rw [fill_append] at hd
      change d ∈ (place w isBreak width (fill w isBreak width as) a).done at hd
      cases hb : isBreak a with
      | true =>
          rw [place_break hb, List.mem_append, List.mem_singleton] at hd
          rcases hd with hd | rfl
          · exact ih d hd
          · exact .inr ⟨a, hb, rfl⟩
      | false =>
          by_cases hw : width < totalWidth w (fill w isBreak width as).row + w a
          · rw [place_wrap hb hw, List.mem_append, List.mem_singleton] at hd
            rcases hd with hd | rfl
            · exact ih d hd
            · exact .inl rfl
          · rw [place_fits hb (Nat.not_lt.mp hw)] at hd
            exact ih d hd

theorem fill_no_break (as : List α) :
    ∀ row ∈ (fill w isBreak width as).all, ∀ a ∈ row, isBreak a = false := by
  induction as using List.reverseRecOn with
  | nil => simp [fill, Rows.start, Rows.all]
  | append_singleton as a ih =>
      rw [fill_append]
      change ∀ row ∈ (place w isBreak width (fill w isBreak width as) a).all, _
      simp only [Rows.all, List.forall_mem_append, List.forall_mem_singleton] at ih
      obtain ⟨hdone, hrow⟩ := ih
      cases hb : isBreak a with
      | true =>
          rw [place_break hb]
          simp only [Rows.all, List.map_append, List.map_cons, List.map_nil,
            List.forall_mem_append, List.forall_mem_singleton]
          exact ⟨⟨hdone, hrow⟩, List.forall_mem_nil _⟩
      | false =>
          by_cases hw : width < totalWidth w (fill w isBreak width as).row + w a
          · rw [place_wrap hb hw]
            simp only [Rows.all, List.map_append, List.map_cons, List.map_nil,
              List.forall_mem_append, List.forall_mem_singleton]
            exact ⟨⟨hdone, hrow⟩, hb⟩
          · rw [place_fits hb (Nat.not_lt.mp hw)]
            simp only [Rows.all, List.forall_mem_append, List.forall_mem_singleton]
            exact ⟨hdone, hrow, hb⟩

theorem fill_fits (as : List α) :
    ∀ row ∈ (fill w isBreak width as).all, totalWidth w row ≤ width ∨ ∃ a ∈ as, row = [a] := by
  induction as using List.reverseRecOn with
  | nil => simp [fill, Rows.start, Rows.all]
  | append_singleton as a ih =>
      have hmore : ∀ row ∈ (fill w isBreak width as).all,
          totalWidth w row ≤ width ∨ ∃ b ∈ as ++ [a], row = [b] := by
        intro row hrow
        rcases ih row hrow with hle | ⟨b, hb, hrow⟩
        · exact .inl hle
        · exact .inr ⟨b, List.mem_append_left _ hb, hrow⟩
      rw [fill_append]
      change ∀ row ∈ (place w isBreak width (fill w isBreak width as) a).all, _
      simp only [Rows.all, List.forall_mem_append, List.forall_mem_singleton] at hmore
      obtain ⟨hdone, hrow⟩ := hmore
      cases hb : isBreak a with
      | true =>
          rw [place_break hb]
          simp only [Rows.all, List.map_append, List.map_cons, List.map_nil,
            List.forall_mem_append, List.forall_mem_singleton]
          exact ⟨⟨hdone, hrow⟩, .inl (Nat.zero_le width)⟩
      | false =>
          by_cases hw : width < totalWidth w (fill w isBreak width as).row + w a
          · rw [place_wrap hb hw]
            simp only [Rows.all, List.map_append, List.map_cons, List.map_nil,
              List.forall_mem_append, List.forall_mem_singleton]
            exact ⟨⟨hdone, hrow⟩, .inr ⟨a, List.mem_append_right _ List.mem_cons_self, rfl⟩⟩
          · rw [place_fits hb (Nat.not_lt.mp hw)]
            simp only [Rows.all, List.forall_mem_append, List.forall_mem_singleton]
            refine ⟨hdone, .inl ?_⟩
            rw [totalWidth_append, totalWidth_singleton]
            exact Nat.not_lt.mp hw

theorem fill_flatten (as : List α) : (fill w (fun _ => false) width as).all.flatten = as := by
  have hnone : ∀ d ∈ (fill w (fun _ => false) width as).done, d.1 ++ d.2 = d.1 := by
    intro d hd
    rcases fill_breaks w (fun _ => false) width as d hd with hbrk | ⟨a, ha, -⟩
    · rw [hbrk, List.append_nil]
    · cases ha
  have htext := fill_text w (fun _ => false) width as
  rw [Rows.text, List.flatMap_congr hnone] at htext
  rw [Rows.all, List.flatten_append, List.flatten_singleton, ← List.flatMap_def]
  exact htext

variable {w isBreak width}

theorem foldl_place_one {as : List α} (hb : ∀ a ∈ as, isBreak a = false) (r : Rows α)
    (hw : totalWidth w (r.row ++ as) ≤ width) :
    as.foldl (place w isBreak width) r = ⟨r.done, r.row ++ as⟩ := by
  induction as generalizing r with
  | nil => simp
  | cons a as ih =>
      have hsplit : r.row ++ a :: as = r.row ++ [a] ++ as := by simp
      have hfirst : totalWidth w r.row + w a ≤ width := by
        rw [hsplit, totalWidth_append, totalWidth_append, totalWidth_singleton] at hw
        omega
      rw [List.foldl_cons, place_fits (hb a (List.mem_cons_self)) hfirst,
        ih (fun b hb' => hb b (List.mem_cons_of_mem a hb')) _ (by rwa [← hsplit]), ← hsplit]

private theorem place_wrapped (w : α → Nat) (width : Nat) (r : Rows α) (a : α)
    (h : ∃ done row, r.done = done ++ [(row, [])]) (hb : isBreak a = false) :
    ∃ done row, (place w isBreak width r a).done = done ++ [(row, [])] := by
  by_cases hw : width < totalWidth w r.row + w a
  · rw [place_wrap hb hw]
    exact ⟨r.done, r.row, rfl⟩
  · rw [place_fits hb (Nat.not_lt.mp hw)]
    exact h

private theorem foldl_place_wrapped {as : List α} (hb : ∀ a ∈ as, isBreak a = false) (r : Rows α)
    (h : ∃ done row, r.done = done ++ [(row, [])]) :
    ∃ done row, (as.foldl (place w isBreak width) r).done = done ++ [(row, [])] := by
  induction as generalizing r with
  | nil => exact h
  | cons a as ih =>
      have hstep := place_wrapped w width r a h (hb a List.mem_cons_self)
      exact ih (fun b hb' => hb b (List.mem_cons_of_mem a hb')) _ hstep

theorem foldl_place_wraps {as : List α} (hb : ∀ a ∈ as, isBreak a = false) (r : Rows α)
    (hr : totalWidth w r.row ≤ width) (hw : width < totalWidth w (r.row ++ as)) :
    ∃ done row, (as.foldl (place w isBreak width) r).done = done ++ [(row, [])] := by
  induction as generalizing r with
  | nil =>
      rw [List.append_nil] at hw
      omega
  | cons a as ih =>
      have ha := hb a List.mem_cons_self
      have hrest : ∀ b ∈ as, isBreak b = false := fun b hb' => hb b (List.mem_cons_of_mem a hb')
      rw [List.foldl_cons]
      by_cases hlt : width < totalWidth w r.row + w a
      · rw [place_wrap ha hlt]
        exact foldl_place_wrapped hrest _ ⟨r.done, r.row, rfl⟩
      · rw [place_fits ha (Nat.not_lt.mp hlt)]
        apply ih hrest
        · rw [totalWidth_append, totalWidth_singleton]
          exact Nat.not_lt.mp hlt
        · rwa [List.append_assoc, List.singleton_append]

theorem fill_ended {as : List α} {done : List (List α × List α)} {row brk : List α}
    (h : (fill w isBreak width as).done = done ++ [(row, brk)]) :
    ∃ before, before ++ brk ++ (fill w isBreak width as).row = as ∧
      fill w isBreak width before = ⟨done, row⟩ := by
  induction as using List.reverseRecOn with
  | nil =>
      have hlen := congrArg List.length h
      simp [fill, Rows.start] at hlen
  | append_singleton as a ih =>
      rw [fill_append] at h ⊢
      change (place w isBreak width (fill w isBreak width as) a).done = _ at h
      change ∃ before,
        before ++ brk ++ (place w isBreak width (fill w isBreak width as) a).row = _ ∧ _
      have hend : ∀ b, (fill w isBreak width as).done ++ [((fill w isBreak width as).row, b)] =
          done ++ [(row, brk)] → b = brk ∧ fill w isBreak width as = ⟨done, row⟩ := by
        intro b hb
        obtain ⟨hdone, hlast⟩ := List.append_inj' hb rfl
        obtain ⟨hrow, hbrk⟩ := Prod.mk.inj (List.singleton_inj.mp hlast)
        refine ⟨hbrk, ?_⟩
        rw [← hdone, ← hrow]
      cases hb : isBreak a with
      | true =>
          rw [place_break hb] at h ⊢
          obtain ⟨rfl, hfill⟩ := hend _ h
          exact ⟨as, by simp, hfill⟩
      | false =>
          by_cases hw : width < totalWidth w (fill w isBreak width as).row + w a
          · rw [place_wrap hb hw] at h ⊢
            obtain ⟨rfl, hfill⟩ := hend _ h
            exact ⟨as, by simp, hfill⟩
          · rw [place_fits hb (Nat.not_lt.mp hw)] at h ⊢
            obtain ⟨before, htext, hfill⟩ := ih h
            refine ⟨before, ?_, hfill⟩
            rw [← List.append_assoc, htext]

end Fill

end IntelNav.Layout
