import Mathlib.Logic.Function.Basic
import Mathlib.Tactic.Common

/-! A shared cell whose value is copied out, revised elsewhere and written back. -/

set_option autoImplicit false
set_option relaxedAutoImplicit false

namespace IntelNav.Transition

universe u v

/-- The value of the cell, and what it does not store: how often a value was assigned to it, the
value assigned last, which assignment the present value comes from, and the copies that are out,
each with the assignment it comes from. -/
structure Cell (Id : Type u) (V : Type v) where
  value : V
  calls : Nat
  last : V
  origin : Nat
  copies : Id → Option (Nat × V)

namespace Cell

variable {Id : Type u} {V : Type v} {R : V → V → Prop} {c : Cell Id V} {id : Id}

def new (v : V) : Cell Id V := ⟨v, 0, v, 0, fun _ => none⟩

def assign (c : Cell Id V) (v : V) : Cell Id V :=
  { c with value := v, calls := c.calls + 1, last := v, origin := c.calls + 1 }

variable [DecidableEq Id]

def copyOut (c : Cell Id V) (id : Id) : Cell Id V :=
  { c with copies := Function.update c.copies id (some (c.origin, c.value)) }

def revise (c : Cell Id V) (id : Id) (v : V) : Cell Id V :=
  { c with copies := Function.update c.copies id ((c.copies id).map fun copy => (copy.1, v)) }

def drop (c : Cell Id V) (id : Id) : Cell Id V :=
  { c with copies := Function.update c.copies id none }

def writeBack (c : Cell Id V) (id : Id) : Cell Id V :=
  match c.copies id with
  | some (n, v) => { c with value := v, origin := n }
  | none => c

def Current (c : Cell Id V) : Prop := c.origin = c.calls

instance (c : Cell Id V) : Decidable c.Current := inferInstanceAs (Decidable (_ = _))

def Fresh (c : Cell Id V) (id : Id) : Prop := ∀ n v, c.copies id = some (n, v) → n = c.calls

instance (c : Cell Id V) (id : Id) : Decidable (c.Fresh id) :=
  match h : c.copies id with
  | none => .isTrue fun n v hn => by simp [h] at hn
  | some (n, v) =>
      decidable_of_iff (n = c.calls) <| by
        constructor
        · rintro hn n' v' heq
          obtain ⟨rfl, -⟩ := Prod.mk.inj (Option.some.inj (h.symm.trans heq))
          exact hn
        · intro hfresh
          exact hfresh n v h

/-- The value and the copies are related to the assigned value that they come from. -/
structure Sound (R : V → V → Prop) (c : Cell Id V) : Prop where
  value : c.origin ≤ c.calls ∧ (c.Current → R c.last c.value)
  copies : ∀ id n v, c.copies id = some (n, v) → n ≤ c.calls ∧ (n = c.calls → R c.last v)

omit [DecidableEq Id] in
theorem Sound.new (hrefl : ∀ v, R v v) (v : V) : Sound R (new v : Cell Id V) where
  value := ⟨Nat.le_refl _, fun _ => hrefl v⟩
  copies _ _ _ h := by cases h

omit [DecidableEq Id] in
theorem Sound.assign (hrefl : ∀ v, R v v) (h : Sound R c) (v : V) :
    Sound R (c.assign v) ∧ (c.assign v).Current := by
  refine ⟨⟨⟨Nat.le_refl _, fun _ => hrefl v⟩, fun id n w hcopy => ?_⟩, rfl⟩
  have hle := (h.copies id n w hcopy).1
  refine ⟨Nat.le_succ_of_le hle, fun hn => ?_⟩
  have hn' : n = c.calls + 1 := hn
  omega

theorem Sound.copyOut (h : Sound R c) (id : Id) : Sound R (c.copyOut id) := by
  refine ⟨h.value, fun id' n v hcopy => ?_⟩
  by_cases hid : id' = id
  · have hsome : some (c.origin, c.value) = some (n, v) := by simpa [Cell.copyOut, hid] using hcopy
    obtain ⟨rfl, rfl⟩ := Prod.mk.inj (Option.some.inj hsome)
    exact h.value
  · exact h.copies id' n v (by simpa [Cell.copyOut, hid] using hcopy)

theorem Sound.revise (h : Sound R c) {v : V}
    (hv : ∀ n u, c.copies id = some (n, u) → ∀ w, R w u → R w v) : Sound R (c.revise id v) := by
  refine ⟨h.value, fun id' n u hcopy => ?_⟩
  by_cases hid : id' = id
  · have hsome : (c.copies id).map (fun copy => (copy.1, v)) = some (n, u) := by
      simpa [Cell.revise, hid] using hcopy
    obtain ⟨⟨m, u'⟩, hout, heq⟩ := Option.map_eq_some_iff.mp hsome
    obtain ⟨rfl, rfl⟩ := Prod.mk.inj heq
    obtain ⟨hle, hrel⟩ := h.copies id m u' hout
    exact ⟨hle, fun hm => hv m u' hout _ (hrel hm)⟩
  · exact h.copies id' n u (by simpa [Cell.revise, hid] using hcopy)

theorem Sound.drop (h : Sound R c) (id : Id) : Sound R (c.drop id) := by
  refine ⟨h.value, fun id' n v hcopy => ?_⟩
  by_cases hid : id' = id
  · simp [Cell.drop, hid] at hcopy
  · exact h.copies id' n v (by simpa [Cell.drop, hid] using hcopy)

omit [DecidableEq Id] in
theorem Sound.writeBack (h : Sound R c) (id : Id) : Sound R (c.writeBack id) := by
  unfold Cell.writeBack
  split
  · rename_i n v hcopy
    exact ⟨h.copies id n v hcopy, h.copies⟩
  · exact h

omit [DecidableEq Id] in
theorem current_writeBack {n : Nat} {v : V} (hcopy : c.copies id = some (n, v)) :
    (c.writeBack id).Current ↔ c.Fresh id := by
  have hwrite : c.writeBack id = { c with value := v, origin := n } := by
    simp [Cell.writeBack, hcopy]
  rw [hwrite]
  constructor
  · intro hn n' v' heq
    obtain ⟨rfl, -⟩ := Prod.mk.inj (Option.some.inj (hcopy.symm.trans heq))
    exact hn
  · intro hfresh
    exact hfresh n v hcopy

end Cell

end IntelNav.Transition
