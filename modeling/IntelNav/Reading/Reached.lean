import Mathlib.Data.List.Basic

/-! Checks and computations made one after the other until one fails: which of them are reached, and
what they come to. -/

set_option autoImplicit false
set_option relaxedAutoImplicit false

namespace IntelNav.Reading

universe u v w

variable {α : Type u} {β : Type v} {ε : Type w}

def Reached (passes : α → Prop) (items : List α) (x : α) : Prop :=
  ∃ before after, items = before ++ x :: after ∧ ∀ y ∈ before, passes y

variable {passes : α → Prop} {items : List α} {x : α}

private theorem not_reached_nil : ¬Reached passes [] x := by
  rintro ⟨before, after, h, -⟩
  exact List.append_ne_nil_of_right_ne_nil before (List.cons_ne_nil x after) h.symm

private theorem reached_cons {a : α} :
    Reached passes (a :: items) x ↔ x = a ∨ passes a ∧ Reached passes items x := by
  constructor
  · rintro ⟨before, after, h, hall⟩
    cases before with
    | nil =>
        obtain ⟨rfl, -⟩ := List.cons.inj h
        exact .inl rfl
    | cons b before =>
        obtain ⟨rfl, htail⟩ := List.cons.inj h
        refine .inr ⟨hall a List.mem_cons_self, before, after, htail, ?_⟩
        intro y hy
        exact hall y (List.mem_cons_of_mem _ hy)
  · rintro (rfl | ⟨ha, before, after, rfl, hall⟩)
    · exact ⟨[], items, rfl, fun y hy => (by cases hy)⟩
    · refine ⟨a :: before, after, rfl, ?_⟩
      intro y hy
      rcases List.mem_cons.mp hy with rfl | hy
      · exact ha
      · exact hall y hy

theorem Reached.mem (h : Reached passes items x) : x ∈ items := by
  obtain ⟨before, after, rfl, -⟩ := h
  exact List.mem_append_right before List.mem_cons_self

theorem reached_congr {passes' : α → Prop} (h : ∀ y ∈ items, passes y ↔ passes' y) :
    Reached passes items x ↔ Reached passes' items x := by
  constructor
  · rintro ⟨before, after, rfl, hall⟩
    refine ⟨before, after, rfl, fun y hy => (h y ?_).mp (hall y hy)⟩
    exact List.mem_append_left _ hy
  · rintro ⟨before, after, rfl, hall⟩
    refine ⟨before, after, rfl, fun y hy => (h y ?_).mpr (hall y hy)⟩
    exact List.mem_append_left _ hy

theorem bind_ok {α β : Type v} {r : Except ε α} {f : α → Except ε β} {b : β}
    (h : (r >>= f) = .ok b) : ∃ a, r = .ok a ∧ f a = .ok b := by
  cases r with
  | error e => cases h
  | ok a => exact ⟨a, rfl, h⟩

theorem bind_error_iff {α β : Type v} {r : Except ε α} {f : α → Except ε β} {e : ε} :
    (r >>= f) = .error e ↔ r = .error e ∨ ∃ a, r = .ok a ∧ f a = .error e := by
  cases r with
  | error e' =>
      constructor
      · intro h
        exact .inl (congrArg Except.error (Except.error.inj h))
      · rintro (h | ⟨a, h, -⟩)
        · exact congrArg Except.error (Except.error.inj h)
        · cases h
  | ok a =>
      constructor
      · intro h
        exact .inr ⟨a, rfl, h⟩
      · rintro (h | ⟨b, h, hb⟩)
        · cases h
        · rw [← Except.ok.inj h] at hb
          exact hb

theorem forM_error_iff {f : α → Except ε Unit} {e : ε} :
    items.forM f = .error e ↔ ∃ x, Reached (fun y => f y = .ok ()) items x ∧ f x = .error e := by
  induction items with
  | nil =>
      constructor
      · intro h
        cases h
      · rintro ⟨x, h, -⟩
        exact absurd h not_reached_nil
  | cons a items ih =>
      change (f a >>= fun _ => items.forM f) = .error e ↔ _
      rw [bind_error_iff]
      simp only [reached_cons]
      constructor
      · rintro (h | ⟨u, ha, h⟩)
        · exact ⟨a, .inl rfl, h⟩
        · obtain ⟨x, hx, hfails⟩ := ih.mp h
          exact ⟨x, .inr ⟨ha, hx⟩, hfails⟩
      · rintro ⟨x, rfl | ⟨ha, hx⟩, hfails⟩
        · exact .inl hfails
        · exact .inr ⟨(), ha, ih.mpr ⟨x, hx, hfails⟩⟩

theorem forM_ok_iff {f : α → Except ε Unit} :
    items.forM f = .ok () ↔ ∀ x ∈ items, f x = .ok () := by
  induction items with
  | nil => exact iff_of_true rfl (List.forall_mem_nil _)
  | cons a items ih =>
      change (f a >>= fun _ => items.forM f) = .ok () ↔ _
      rw [List.forall_mem_cons]
      constructor
      · intro h
        obtain ⟨u, ha, h⟩ := bind_ok h
        exact ⟨ha, ih.mp h⟩
      · rintro ⟨ha, h⟩
        rw [ha]
        exact ih.mpr h

theorem mapM_error_iff {f : α → Except ε β} {e : ε} :
    items.mapM f = .error e ↔
      ∃ x, Reached (fun y => ∃ b, f y = .ok b) items x ∧ f x = .error e := by
  induction items with
  | nil =>
      constructor
      · intro h
        cases h
      · rintro ⟨x, h, -⟩
        exact absurd h not_reached_nil
  | cons a items ih =>
      rw [List.mapM_cons, bind_error_iff]
      simp only [reached_cons, bind_error_iff]
      constructor
      · rintro (h | ⟨b, ha, h | ⟨bs, -, h⟩⟩)
        · exact ⟨a, .inl rfl, h⟩
        · obtain ⟨x, hx, hfails⟩ := ih.mp h
          exact ⟨x, .inr ⟨⟨b, ha⟩, hx⟩, hfails⟩
        · cases h
      · rintro ⟨x, rfl | ⟨⟨b, ha⟩, hx⟩, hfails⟩
        · exact .inl hfails
        · exact .inr ⟨b, ha, .inl (ih.mpr ⟨x, hx, hfails⟩)⟩

theorem length_mapM_ok {f : α → Except ε β} {bs : List β} (h : items.mapM f = .ok bs) :
    bs.length = items.length := by
  induction items generalizing bs with
  | nil =>
      obtain rfl := Except.ok.inj h
      rfl
  | cons a items ih =>
      rw [List.mapM_cons] at h
      obtain ⟨b, -, h⟩ := bind_ok h
      obtain ⟨rest, hrest, h⟩ := bind_ok h
      obtain rfl := Except.ok.inj h
      rw [List.length_cons, List.length_cons, ih hrest]

theorem mem_mapM_ok {f : α → Except ε β} {bs : List β} (h : items.mapM f = .ok bs) (b : β) :
    b ∈ bs ↔ ∃ a ∈ items, f a = .ok b := by
  induction items generalizing bs with
  | nil =>
      obtain rfl := Except.ok.inj h
      simp
  | cons a items ih =>
      rw [List.mapM_cons] at h
      obtain ⟨first, hfirst, h⟩ := bind_ok h
      obtain ⟨rest, hrest, h⟩ := bind_ok h
      obtain rfl := Except.ok.inj h
      rw [List.mem_cons, ih hrest]
      constructor
      · rintro (rfl | ⟨a', ha', heq⟩)
        · exact ⟨a, List.mem_cons_self, hfirst⟩
        · exact ⟨a', List.mem_cons_of_mem _ ha', heq⟩
      · rintro ⟨a', ha', heq⟩
        rcases List.mem_cons.mp ha' with rfl | ha'
        · rw [hfirst] at heq
          exact .inl (Except.ok.inj heq).symm
        · exact .inr ⟨a', ha', heq⟩

theorem mapM_ok_iff {f : α → Except ε β} {g : α → β} {P : α → Prop}
    (hok : ∀ x ∈ items, (∃ b, f x = .ok b) ↔ P x) (hg : ∀ x ∈ items, P x → f x = .ok (g x))
    {bs : List β} : items.mapM f = .ok bs ↔ (∀ x ∈ items, P x) ∧ bs = items.map g := by
  induction items generalizing bs with
  | nil =>
      constructor
      · intro h
        exact ⟨List.forall_mem_nil _, (Except.ok.inj h).symm⟩
      · rintro ⟨-, rfl⟩
        rfl
  | cons a items ih =>
      obtain ⟨hoka, hok⟩ := List.forall_mem_cons.mp hok
      obtain ⟨hga, hg⟩ := List.forall_mem_cons.mp hg
      rw [List.mapM_cons, List.forall_mem_cons]
      constructor
      · intro h
        cases ha : f a with
        | error e =>
            rw [ha] at h
            cases h
        | ok b =>
            have hpa := hoka.mp ⟨b, ha⟩
            rw [hga hpa] at ha h
            cases hrest : items.mapM f with
            | error e =>
                rw [hrest] at h
                cases h
            | ok rest =>
                rw [hrest] at h
                obtain ⟨hall, rfl⟩ := (ih hok hg).mp hrest
                exact ⟨⟨hpa, hall⟩, (Except.ok.inj h).symm⟩
      · rintro ⟨⟨hpa, hall⟩, rfl⟩
        rw [hga hpa, (ih hok hg).mpr ⟨hall, rfl⟩]
        rfl

end IntelNav.Reading
