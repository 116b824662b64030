import Mathlib.Data.Set.Lattice
import IntelNav.Transition.Run

/-! Machines that take steps one at a time, in any order, and hear what the others have said. -/

set_option autoImplicit false
set_option relaxedAutoImplicit false

namespace IntelNav.Transition

universe u v w x

variable {ι : Type u} {State : Type v} {Event : Type w} {Word : Type x} [DecidableEq ι]

def family (step : State → Event → Option State) (f : ι → State) (e : ι × Event) :
    Option (ι → State) :=
  (step (f e.1) e.2).map fun s => Function.update f e.1 s

variable {step : State → Event → Option State}

theorem family_eq_some {f g : ι → State} {e : ι × Event} :
    family step f e = some g ↔
      ∃ s, step (f e.1) e.2 = some s ∧ Function.update f e.1 s = g :=
  Option.map_eq_some_iff

def allSaid (said : State → Set Word) (f : ι → State) : Set Word := ⋃ i, said (f i)

private theorem allSaid_mono {said : State → Set Word}
    (hgrows : ∀ s e s', step s e = some s' → said s ⊆ said s') {f g : ι → State} {e : ι × Event}
    (h : family step f e = some g) : allSaid said f ⊆ allSaid said g := by
  obtain ⟨s, hs, rfl⟩ := family_eq_some.mp h
  refine Set.iUnion_mono fun i => ?_
  by_cases hi : i = e.1
  · rw [hi, Function.update_self]
    exact hgrows _ _ _ hs
  · rw [Function.update_of_ne hi]

/-- A machine that is told only what some machine has said keeps, in every run of the family, what
it keeps in a step of its own: what was said before may be assumed, and is never taken back. -/
theorem Run.heard {said : State → Set Word} {told : Set Word → State → Event → Prop}
    {I : Set Word → State → Prop} (hgrows : ∀ s e s', step s e = some s' → said s ⊆ said s')
    (hmono : ∀ s A B, A ⊆ B → I A s → I B s)
    (hstep : ∀ A s e s', I A s → told A s e → step s e = some s' → I A s')
    {f g : ι → State} {es : List (ι × Event)} (hinit : ∀ i, I (allSaid said f) (f i))
    (hrun : Run (family step) (fun f e => told (allSaid said f) (f e.1) e.2) f es g) :
    ∀ i, I (allSaid said g) (g i) := by
  refine hrun.invariant (I := fun g => ∀ i, I (allSaid said g) (g i)) hinit ?_
  intro g e g' hall htold hs i
  refine hmono _ _ _ (allSaid_mono hgrows hs) ?_
  obtain ⟨s, hmoved, rfl⟩ := family_eq_some.mp hs
  by_cases hi : i = e.1
  · rw [hi, Function.update_self]
    exact hstep _ _ _ _ (hall e.1) htold hmoved
  · rw [Function.update_of_ne hi]
    exact hall i

end IntelNav.Transition
