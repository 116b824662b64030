import Mathlib.Data.List.Infix

/-! Causal list functions, and stages that keep what they made of each element.

What a causal function puts at a place depends on what it was given up to that place. A stage scans
its input, adding an entry to its history for each element; stages in a row are causal, and go on
from their histories as if all input had come at once. -/

set_option autoImplicit false
set_option relaxedAutoImplicit false

namespace IntelNav.Decoding

universe u v w x

variable {α : Type u} {β : Type v} {γ : Type w} {E : Type x}

structure Causal (G : List α → List β) : Prop where
  length_eq : ∀ xs, (G xs).length = xs.length
  isPrefix : ∀ xs ys, G xs <+: G (xs ++ ys)

/-- What comes out for `ys` when `xs` went in before. -/
def later (G : List α → List β) (xs ys : List α) : List β := (G (xs ++ ys)).drop xs.length

namespace Causal

variable {G : List α → List β} {H : List β → List γ}

theorem append_later (hG : Causal G) (xs ys : List α) : G (xs ++ ys) = G xs ++ later G xs ys := by
  obtain ⟨zs, hzs⟩ := hG.isPrefix xs ys
  rw [later, ← hzs, List.drop_left' (hG.length_eq xs)]

theorem length_later (hG : Causal G) (xs ys : List α) : (later G xs ys).length = ys.length := by
  rw [later, List.length_drop, hG.length_eq, List.length_append, Nat.add_sub_cancel_left]

private theorem of_append (later : List α → List α → List β) (hnil : G [] = [])
    (happend : ∀ xs ys, G (xs ++ ys) = G xs ++ later xs ys)
    (hlength : ∀ xs ys, (later xs ys).length = ys.length) : Causal G where
  length_eq xs := by
    have h := congrArg List.length (happend [] xs)
    rwa [List.nil_append, hnil, List.nil_append, hlength] at h
  isPrefix xs ys := ⟨later xs ys, (happend xs ys).symm⟩

theorem map (f : α → β) : Causal (List.map f) where
  length_eq _ := List.length_map _
  isPrefix _ ys := ⟨ys.map f, (List.map_append ..).symm⟩

theorem comp (hG : Causal G) (hH : Causal H) : Causal fun xs => H (G xs) where
  length_eq xs := (hH.length_eq _).trans (hG.length_eq xs)
  isPrefix xs ys := by
    rw [hG.append_later]
    exact hH.isPrefix _ _

theorem later_comp (hG : Causal G) (xs ys : List α) :
    later (fun xs => H (G xs)) xs ys = later H (G xs) (later G xs ys) := by
  rw [later, later, hG.append_later, hG.length_eq]

theorem later_map (f : α → β) (xs ys : List α) : later (List.map f) xs ys = ys.map f := by
  rw [later, List.map_append, List.drop_left' (List.length_map f)]

theorem forall_mem_later {P : β → Prop} (h : ∀ xs, ∀ b ∈ G xs, P b) (xs ys : List α) :
    ∀ b ∈ later G xs ys, P b := fun b hb => h (xs ++ ys) b (List.mem_of_mem_drop hb)

theorem getElem?_eq_getLast? (hG : Causal G) (xs : List α) {i : Nat} (hi : i < xs.length) :
    (G xs)[i]? = (G (xs.take (i + 1))).getLast? := by
  obtain ⟨zs, hzs⟩ := hG.isPrefix (xs.take (i + 1)) (xs.drop (i + 1))
  rw [List.take_append_drop] at hzs
  have hlen : (G (xs.take (i + 1))).length = i + 1 := by
    rw [hG.length_eq, List.length_take]
    omega
  rw [← hzs, List.getElem?_append_left (by omega), List.getLast?_eq_getElem?, hlen]
  rfl

theorem getElem?_later (hG : Causal G) (xs : List α) {ys : List α} {i : Nat}
    (hi : i < ys.length) :
    (later G xs ys)[i]? = (G (xs ++ ys.take (i + 1))).getLast? := by
  have hlt : xs.length + i < (xs ++ ys).length := by
    rw [List.length_append]
    omega
  have h := hG.getElem?_eq_getLast? (xs ++ ys) hlt
  rw [later, List.getElem?_drop, h, Nat.add_assoc, List.take_length_add_append]

end Causal

/-- Run a stage over its input: the history it ends with, and what it puts out. -/
def scan (f : List E → α → E × β) : List E → List α → List E × List β
  | es, [] => (es, [])
  | es, a :: as =>
      let rest := scan f (es ++ [(f es a).1]) as
      (rest.1, (f es a).2 :: rest.2)

theorem scan_append (f : List E → α → E × β) (es : List E) (xs ys : List α) :
    scan f es (xs ++ ys) =
      ((scan f (scan f es xs).1 ys).1, (scan f es xs).2 ++ (scan f (scan f es xs).1 ys).2) := by
  induction xs generalizing es with
  | nil => rfl
  | cons x xs ih => simp only [List.cons_append, scan, ih]

@[simp] theorem length_scan_snd (f : List E → α → E × β) (es : List E) (xs : List α) :
    (scan f es xs).2.length = xs.length := by
  induction xs generalizing es with
  | nil => rfl
  | cons x xs ih => simp only [scan, List.length_cons, ih]

private theorem scan_fst_append (f : List E → α → E × β) (es : List E) (xs : List α) :
    ∃ new, (scan f es xs).1 = es ++ new ∧ new.length = xs.length := by
  induction xs generalizing es with
  | nil => exact ⟨[], (List.append_nil es).symm, rfl⟩
  | cons x xs ih =>
      obtain ⟨new, hnew, hlen⟩ := ih (es ++ [(f es x).1])
      refine ⟨(f es x).1 :: new, ?_, by rw [List.length_cons, List.length_cons, hlen]⟩
      rw [scan, hnew, List.append_assoc, List.singleton_append]

private theorem forall_mem_scan_snd {f : List E → α → E × β} {P : α → Prop} {Q : β → Prop}
    (hf : ∀ es a, P a → Q (f es a).2) {es : List E} {xs : List α} (hxs : ∀ a ∈ xs, P a) :
    ∀ b ∈ (scan f es xs).2, Q b := by
  induction xs generalizing es with
  | nil => simp [scan]
  | cons x xs ih =>
      intro b hb
      rcases List.mem_cons.mp hb with rfl | hb
      · exact hf es x (hxs x List.mem_cons_self)
      · exact ih (fun a ha => hxs a (List.mem_cons_of_mem x ha)) b hb

section Stages

variable (f : Nat → List E → α → E × α)

/-- What arrives at stage `n` when the stages before it have the histories `h`. -/
def passAt (h : Nat → List E) : Nat → List α → List α
  | 0, xs => xs
  | n + 1, xs => (scan (f n) (h n) (passAt h n xs)).2

/-- The history of stage `n` after the pass. -/
def filled (h : Nat → List E) (n : Nat) (xs : List α) : List E :=
  (scan (f n) (h n) (passAt f h n xs)).1

variable {f}

@[simp] theorem length_passAt (h : Nat → List E) (n : Nat) (xs : List α) :
    (passAt f h n xs).length = xs.length := by
  induction n with
  | zero => rfl
  | succ n ih => rw [passAt, length_scan_snd, ih]

theorem length_filled (h : Nat → List E) (n : Nat) (xs : List α) :
    (filled f h n xs).length = (h n).length + xs.length := by
  obtain ⟨new, hnew, hlen⟩ := scan_fst_append (f n) (h n) (passAt f h n xs)
  rw [filled, hnew, List.length_append, hlen, length_passAt]

theorem passAt_congr {h h' : Nat → List E} {n : Nat} (heq : ∀ i < n, h i = h' i) (xs : List α) :
    passAt f h n xs = passAt f h' n xs := by
  induction n with
  | zero => rfl
  | succ n ih =>
      rw [passAt, passAt, heq n (Nat.lt_succ_self n),
        ih fun i hi => heq i (Nat.lt_succ_of_lt hi)]

theorem filled_congr {h h' : Nat → List E} {n : Nat} (heq : ∀ i ≤ n, h i = h' i) (xs : List α) :
    filled f h n xs = filled f h' n xs := by
  rw [filled, filled, heq n le_rfl, passAt_congr fun i hi => heq i hi.le]

private theorem passAt_append (h : Nat → List E) (n : Nat) (xs ys : List α) :
    passAt f h n (xs ++ ys) =
      passAt f h n xs ++ passAt f (fun i => filled f h i xs) n ys := by
  induction n with
  | zero => rfl
  | succ n ih => rw [passAt, ih, scan_append, passAt, passAt, filled]

theorem filled_append (h : Nat → List E) (n : Nat) (xs ys : List α) :
    filled f h n (xs ++ ys) = filled f (fun i => filled f h i xs) n ys := by
  rw [filled, passAt_append, scan_append, filled, filled]

theorem filled_take (h : Nat → List E) (n : Nat) (xs ys : List α) :
    (filled f h n (xs ++ ys)).take ((h n).length + xs.length) = filled f h n xs := by
  obtain ⟨new, hnew, -⟩ := scan_fst_append (f n) (filled f h n xs)
    (passAt f (fun i => filled f h i xs) n ys)
  rw [filled_append, filled, hnew, ← length_filled, List.take_left']
  rfl

theorem causal_passAt (h : Nat → List E) (n : Nat) : Causal (passAt f h n) := by
  refine .of_append (fun xs => passAt f (fun i => filled f h i xs) n) ?_
    (passAt_append h n) fun xs ys => length_passAt _ n ys
  exact List.eq_nil_of_length_eq_zero (length_passAt h n [])

/-- What arrives later is what the stages make of it from the histories they have by then. -/
theorem later_passAt (h : Nat → List E) (n : Nat) (xs ys : List α) :
    later (passAt f h n) xs ys = passAt f (fun i => filled f h i xs) n ys := by
  rw [later, passAt_append, List.drop_left' (length_passAt h n xs)]

theorem forall_mem_passAt {P : α → Prop} (hf : ∀ i es a, P a → P (f i es a).2)
    (h : Nat → List E) (n : Nat) {xs : List α} (hxs : ∀ a ∈ xs, P a) :
    ∀ b ∈ passAt f h n xs, P b := by
  induction n with
  | zero => exact hxs
  | succ n ih => exact forall_mem_scan_snd (hf n) ih

end Stages

end IntelNav.Decoding
