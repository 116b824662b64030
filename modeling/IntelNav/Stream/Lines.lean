import Mathlib.Data.List.TakeWhile
import Mathlib.Tactic.Common

/-! Lines of a stream that comes in pieces, each with the mark that ends it, the last one without
if the stream ends so. -/

set_option autoImplicit false
set_option relaxedAutoImplicit false

namespace IntelNav.Stream

variable {α : Type} [DecidableEq α] {d : α} {ended : Bool} {l rest x : List α} {ts : List (List α)}

def nextLine (d : α) (ended : Bool) (l : List α) : Option (List α × List α) :=
  if d ∈ l then some (l.takeWhile (· ≠ d) ++ [d], (l.dropWhile (· ≠ d)).tail)
  else if ended && !l.isEmpty then some (l, [])
  else none

/-- All lines; what comes after the last mark is one when the stream has ended. -/
def lines (d : α) (ended : Bool) : List α → List (List α)
  | [] => []
  | y :: l =>
      if y = d then [y] :: lines d ended l
      else if d ∈ l then
        match lines d ended l with
        | [] => []
        | line :: more => (y :: line) :: more
      else if ended then [y :: l]
      else []

def Marked (d : α) (x : List α) : Prop := ∃ text, d ∉ text ∧ x = text ++ [d]

theorem lines_marked (h : Marked d x) : lines d ended (x ++ rest) = x :: lines d ended rest := by
  obtain ⟨text, htext, rfl⟩ := h
  induction text with
  | nil => rw [List.nil_append, List.singleton_append, lines, if_pos rfl]
  | cons y text ih =>
      obtain ⟨hy, hrest⟩ := not_or.mp (List.mem_cons.not.mp htext)
      have hmem : d ∈ text ++ [d] ++ rest :=
        List.mem_append_left _ (List.mem_append_right _ (List.mem_singleton_self d))
      rw [List.cons_append, List.cons_append, lines, if_neg (Ne.symm hy), if_pos hmem, ih hrest]

private theorem lines_unmarked (h : d ∉ l) :
    lines d ended l = if ended && !l.isEmpty then [l] else [] := by
  cases l with
  | nil => simp [lines]
  | cons y l =>
      obtain ⟨hy, hl⟩ := not_or.mp (List.mem_cons.not.mp h)
      rw [lines, if_neg (Ne.symm hy), if_neg hl]
      cases ended <;> rfl

theorem split_at_mark (h : d ∈ l) :
    Marked d (l.takeWhile (· ≠ d) ++ [d]) ∧
      l = l.takeWhile (· ≠ d) ++ [d] ++ (l.dropWhile (· ≠ d)).tail := by
  have hbefore : d ∉ l.takeWhile (· ≠ d) := by
    intro hmem
    have hne : decide (d ≠ d) = true := List.mem_takeWhile_imp (p := fun x => decide (x ≠ d)) hmem
    exact of_decide_eq_true hne rfl
  refine ⟨⟨_, hbefore, rfl⟩, ?_⟩
  induction l with
  | nil => cases h
  | cons y l ih =>
      by_cases hy : y = d
      · simp [hy]
      · have hl : d ∈ l := (List.mem_cons.mp h).resolve_left (Ne.symm hy)
        rw [List.takeWhile_cons_of_pos (by simpa using hy)] at hbefore ⊢
        rw [List.dropWhile_cons_of_pos (by simpa using hy), List.cons_append, List.cons_append,
          ← ih hl fun hmem => hbefore (List.mem_cons_of_mem _ hmem)]

theorem nextLine_eq_some (h : nextLine d ended l = some (x, rest)) :
    lines d ended l = x :: lines d ended rest ∧
      (Marked d x ∧ l = x ++ rest ∨ ended = true ∧ l = x ∧ rest = []) := by
  unfold nextLine at h
  split_ifs at h with hmem hend
  · obtain ⟨rfl, rfl⟩ := Prod.mk.inj (Option.some.inj h)
    obtain ⟨hmarked, hl⟩ := split_at_mark hmem
    refine ⟨?_, .inl ⟨hmarked, hl⟩⟩
    conv_lhs => rw [hl]
    exact lines_marked hmarked
  · obtain ⟨rfl, rfl⟩ := Prod.mk.inj (Option.some.inj h)
    refine ⟨?_, .inr ⟨((Bool.and_eq_true _ _).mp hend).1, rfl, rfl⟩⟩
    rw [lines_unmarked hmem, if_pos hend]
    rfl

/-- The lines taken off so far and what is left of the stream: each line has its mark, unless the
stream has ended and nothing is left. -/
def Taken (d : α) (ended : Bool) (sent : List α) (ts : List (List α)) (l : List α) : Prop :=
  (∀ x ∈ ts, Marked d x) ∧ sent = ts.flatten ++ l ∨
    ended = true ∧ l = [] ∧ ts = lines d true sent

variable {sent more : List α}

theorem Taken.none (d : α) (sent : List α) : Taken d false sent [] sent :=
  .inl ⟨fun _ hx => absurd hx List.not_mem_nil, rfl⟩

theorem Taken.lines_eq (h : Taken d ended sent ts l) :
    ts ++ lines d ended l = lines d ended sent := by
  rcases h with ⟨hmarked, rfl⟩ | ⟨rfl, rfl, rfl⟩
  · induction ts with
    | nil => rfl
    | cons t ts ih =>
        have hrest := ih fun x hx => hmarked x (List.mem_cons_of_mem _ hx)
        rw [List.flatten_cons, List.append_assoc,
          lines_marked (hmarked t List.mem_cons_self), ← hrest]
        rfl
  · exact List.append_nil _

theorem Taken.receive (h : Taken d false sent ts l) (more : List α) :
    Taken d false (sent ++ more) ts (l ++ more) := by
  rcases h with ⟨hmarked, rfl⟩ | ⟨hfalse, -, -⟩
  · exact .inl ⟨hmarked, List.append_assoc _ _ _⟩
  · cases hfalse

theorem Taken.finish (h : Taken d false sent ts l) : Taken d true sent ts l := by
  rcases h with hmarked | ⟨hfalse, -, -⟩
  · exact .inl hmarked
  · cases hfalse

theorem Taken.take (h : Taken d ended sent ts l) (hnext : nextLine d ended l = some (x, rest)) :
    Taken d ended sent (ts ++ [x]) rest := by
  obtain ⟨hlines, hcases⟩ := nextLine_eq_some hnext
  have hall := h.lines_eq
  rcases h with ⟨hmarked, rfl⟩ | ⟨rfl, rfl, -⟩
  · rcases hcases with ⟨hx, rfl⟩ | ⟨rfl, rfl, rfl⟩
    · refine .inl ⟨?_, ?_⟩
      · intro y hy
        rcases List.mem_append.mp hy with hold | hnew
        · exact hmarked y hold
        · rw [List.mem_singleton.mp hnew]
          exact hx
      · rw [List.flatten_append, List.flatten_singleton, List.append_assoc]
    · refine .inr ⟨rfl, rfl, ?_⟩
      rw [← hall, hlines]
      rfl
  · rw [nextLine, if_neg List.not_mem_nil] at hnext
    cases hnext

end IntelNav.Stream
