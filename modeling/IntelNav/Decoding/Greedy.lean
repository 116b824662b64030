import Mathlib.Data.List.Infix

/-! Greedy continuations, and proposals checked against them.

Whatever is proposed, the proposals up to the first wrong one with the right token in its place are
a greedy continuation. -/

set_option autoImplicit false
set_option relaxedAutoImplicit false

namespace IntelNav.Decoding

universe u

variable {τ : Type u} (next : List τ → τ)

/-- `n` tokens after `ts`, each the one predicted from all before it. -/
def greedy : Nat → List τ → List τ
  | 0, _ => []
  | n + 1, ts => next ts :: greedy n (ts ++ [next ts])

/-- How many proposals in a row are what is predicted after `ts`. -/
def agreed [DecidableEq τ] : List τ → List τ → Nat
  | _, [] => 0
  | ts, d :: ds => if next ts = d then agreed (ts ++ [d]) ds + 1 else 0

variable {next}

@[simp] theorem length_greedy (n : Nat) (ts : List τ) : (greedy next n ts).length = n := by
  induction n generalizing ts with
  | zero => rfl
  | succ n ih => rw [greedy, List.length_cons, ih]

theorem greedy_add (m n : Nat) (ts : List τ) :
    greedy next (m + n) ts = greedy next m ts ++ greedy next n (ts ++ greedy next m ts) := by
  induction m generalizing ts with
  | zero => rw [Nat.zero_add, greedy, List.nil_append, List.append_nil]
  | succ m ih =>
      rw [Nat.add_right_comm, greedy, greedy, ih, List.cons_append, List.append_assoc,
        List.singleton_append]

private theorem greedy_succ (n : Nat) (ts : List τ) :
    greedy next (n + 1) ts = greedy next n ts ++ [next (ts ++ greedy next n ts)] := by
  rw [greedy_add]
  rfl

theorem take_greedy {m n : Nat} (h : m ≤ n) (ts : List τ) :
    (greedy next n ts).take m = greedy next m ts := by
  rw [← Nat.add_sub_cancel' h, greedy_add, List.take_left' (length_greedy m ts)]

variable (next)

theorem agreed_le [DecidableEq τ] (ts ds : List τ) : agreed next ts ds ≤ ds.length := by
  induction ds generalizing ts with
  | nil => exact le_rfl
  | cons d ds ih =>
      rw [agreed]
      split
      · exact Nat.succ_le_succ (ih _)
      · exact Nat.zero_le _

private theorem take_agreed [DecidableEq τ] (ts ds : List τ) :
    ds.take (agreed next ts ds) = greedy next (agreed next ts ds) ts := by
  induction ds generalizing ts with
  | nil => rfl
  | cons d ds ih =>
      rw [agreed]
      split
      · rename_i hd
        rw [List.take_succ_cons, ih, greedy, hd]
      · rfl

/-- Accepting the proposals that agree and then predicting one token is greedy. -/
theorem take_agreed_append_next [DecidableEq τ] (ts ds : List τ) :
    ds.take (agreed next ts ds) ++ [next (ts ++ ds.take (agreed next ts ds))] =
      greedy next (agreed next ts ds + 1) ts := by
  rw [greedy_succ, take_agreed]

end IntelNav.Decoding
