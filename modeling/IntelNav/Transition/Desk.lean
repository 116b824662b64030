import Mathlib.Data.List.Nodup
import Mathlib.Logic.Function.Basic

/-! A desk that hands out numbered tickets, one waiting for each key, and serves them. -/

set_option autoImplicit false
set_option relaxedAutoImplicit false

namespace IntelNav.Transition

universe u v w

/-- The ticket waiting for each key, the tickets drawn and the ones served, the latest first. -/
structure Desk (Key : Type u) (Info : Type v) (Reply : Type w) where
  waiting : Key → Option (Nat × Info)
  drawn : List (Nat × Key × Info)
  served : List (Nat × Key × Reply)

namespace Desk

variable {Key : Type u} {Info : Type v} {Reply : Type w}
variable {fits : Key → Info → Reply → Prop} {s : Desk Key Info Reply}
variable {key : Key} {info : Info} {reply : Reply} {n : Nat}

/-- Tickets are numbered in turn, only drawn tickets wait, and a ticket is served at most once, as
it asked, and does not wait any more then. -/
structure Sound (fits : Key → Info → Reply → Prop) (s : Desk Key Info Reply) : Prop where
  numbered : ∀ n key info, (n, key, info) ∈ s.drawn → n < s.drawn.length
  distinct : (s.drawn.map Prod.fst).Nodup
  waits : ∀ key n info, s.waiting key = some (n, info) →
    (n, key, info) ∈ s.drawn ∧ n ∉ s.served.map Prod.fst
  once : (s.served.map Prod.fst).Nodup
  fitting : ∀ n key reply, (n, key, reply) ∈ s.served →
    ∃ info, (n, key, info) ∈ s.drawn ∧ fits key info reply

def Accounted (s : Desk Key Info Reply) : Prop :=
  ∀ n key info, (n, key, info) ∈ s.drawn →
    s.waiting key = some (n, info) ∨ n ∈ s.served.map Prod.fst

theorem Sound.same (hs : Sound fits s) {key' : Key} {info' : Info}
    (h : (n, key, info) ∈ s.drawn) (h' : (n, key', info') ∈ s.drawn) :
    key = key' ∧ info = info' := by
  have := List.inj_on_of_nodup_map hs.distinct h h' rfl
  simpa using this

theorem Sound.empty : Sound fits ⟨fun _ : Key => none, [], []⟩ where
  numbered := by simp
  distinct := by simp
  waits := by simp
  once := by simp
  fitting := by simp

private theorem Sound.served_lt (hs : Sound fits s) (h : n ∈ s.served.map Prod.fst) :
    n < s.drawn.length := by
  obtain ⟨⟨_, key, reply⟩, hmem, rfl⟩ := List.mem_map.mp h
  obtain ⟨info, hdrawn, -⟩ := hs.fitting _ _ _ hmem
  exact hs.numbered _ _ _ hdrawn

variable [DecidableEq Key]

def draw (s : Desk Key Info Reply) (key : Key) (info : Info) : Desk Key Info Reply where
  waiting := Function.update s.waiting key (some (s.drawn.length, info))
  drawn := (s.drawn.length, key, info) :: s.drawn
  served := s.served

def serve (s : Desk Key Info Reply) (key : Key) (n : Nat) (reply : Reply) :
    Desk Key Info Reply where
  waiting := Function.update s.waiting key none
  drawn := s.drawn
  served := (n, key, reply) :: s.served

/-- The desk stays as it is, or serves the ticket of a key as it asked. -/
def Serves (fits : Key → Info → Reply → Prop) (s t : Desk Key Info Reply) : Prop :=
  t = s ∨ ∃ key n info reply, s.waiting key = some (n, info) ∧ fits key info reply ∧
    t = s.serve key n reply

theorem Sound.draw (hs : Sound fits s) (key : Key) (info : Info) :
    Sound fits (s.draw key info) where
  numbered n k i h := by
    rcases List.mem_cons.mp h with h | h
    · obtain rfl := (Prod.ext_iff.mp h).1
      simp [Desk.draw]
    · exact Nat.lt_succ_of_lt (hs.numbered n k i h)
  distinct := by
    refine List.nodup_cons.mpr ⟨fun h => ?_, hs.distinct⟩
    obtain ⟨⟨_, k, i⟩, hmem, heq⟩ := List.mem_map.mp h
    exact absurd (hs.numbered _ _ _ hmem) (Nat.not_lt.mpr (Nat.le_of_eq heq.symm))
  waits k n i h := by
    by_cases hk : k = key
    · subst hk
      obtain ⟨rfl, rfl⟩ : s.drawn.length = n ∧ info = i := by simpa [Desk.draw] using h
      exact ⟨List.mem_cons_self, fun hserved => absurd (hs.served_lt hserved) (Nat.lt_irrefl _)⟩
    · obtain ⟨hdrawn, hserved⟩ := hs.waits k n i (by simpa [Desk.draw, hk] using h)
      exact ⟨List.mem_cons_of_mem _ hdrawn, hserved⟩
  once := hs.once
  fitting n k r h := by
    obtain ⟨i, hdrawn, hfits⟩ := hs.fitting n k r h
    exact ⟨i, List.mem_cons_of_mem _ hdrawn, hfits⟩

theorem Sound.serve (hs : Sound fits s) (hwait : s.waiting key = some (n, info))
    (hfits : fits key info reply) : Sound fits (s.serve key n reply) where
  numbered := hs.numbered
  distinct := hs.distinct
  waits k m i h := by
    have hk : k ≠ key := by
      rintro rfl
      simp [Desk.serve] at h
    obtain ⟨hdrawn, hserved⟩ := hs.waits k m i (by simpa [Desk.serve, hk] using h)
    refine ⟨hdrawn, fun hmem => ?_⟩
    rcases List.mem_cons.mp hmem with rfl | hmem
    · exact hk (hs.same hdrawn (hs.waits _ _ _ hwait).1).1
    · exact hserved hmem
  once := List.nodup_cons.mpr ⟨(hs.waits _ _ _ hwait).2, hs.once⟩
  fitting m k r h := by
    rcases List.mem_cons.mp h with h | h
    · obtain ⟨rfl, rfl, rfl⟩ : m = n ∧ k = key ∧ r = reply := by simpa using h
      exact ⟨info, (hs.waits _ _ _ hwait).1, hfits⟩
    · exact hs.fitting m k r h

theorem Sound.serves {t : Desk Key Info Reply} (hs : Sound fits s) (h : Serves fits s t) :
    Sound fits t := by
  obtain rfl | ⟨key, n, info, reply, hwait, hfits, rfl⟩ := h
  · exact hs
  · exact hs.serve hwait hfits

theorem Sound.accounted_draw (hs : Sound fits s) (ha : s.Accounted) (key : Key) (info : Info) :
    (s.draw key info).Accounted ↔ s.waiting key = none := by
  constructor
  · intro h
    cases hwait : s.waiting key with
    | none => rfl
    | some ticket =>
        obtain ⟨n, i⟩ := ticket
        obtain ⟨hdrawn, hserved⟩ := hs.waits key n i hwait
        rcases h n key i (List.mem_cons_of_mem _ hdrawn) with h | h
        · have : s.drawn.length = n := by
            simp only [Desk.draw, Function.update_self, Option.some.injEq, Prod.mk.injEq] at h
            exact h.1
          exact absurd (hs.numbered n key i hdrawn) (by omega)
        · exact absurd h hserved
  · intro hfree n k i h
    rcases List.mem_cons.mp h with h | h
    · obtain ⟨rfl, rfl, rfl⟩ : n = s.drawn.length ∧ k = key ∧ i = info := by simpa using h
      exact .inl (by simp [Desk.draw])
    · refine (ha n k i h).imp_left fun hwait => ?_
      have hk : k ≠ key := by
        rintro rfl
        simp [hfree] at hwait
      simpa [Desk.draw, hk] using hwait

theorem Sound.accounted_serves {t : Desk Key Info Reply} (hs : Sound fits s) (ha : s.Accounted)
    (h : Serves fits s t) : t.Accounted := by
  obtain rfl | ⟨key, n, info, reply, hwait, -, rfl⟩ := h
  · exact ha
  · intro m k i hdrawn
    rcases ha m k i hdrawn with h | h
    · by_cases hk : k = key
      · subst hk
        obtain ⟨rfl, -⟩ : n = m ∧ info = i := by simpa [hwait] using h
        exact .inr List.mem_cons_self
      · exact .inl (by simpa [Desk.serve, hk] using h)
    · exact .inr (List.mem_cons_of_mem _ h)

end Desk

end IntelNav.Transition
