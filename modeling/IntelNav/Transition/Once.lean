import Mathlib.Data.List.Count
import Mathlib.Logic.Function.Basic

/-! Calls that ask a cache for a key, make what they do not find, and store it. Asking and storing
are separate steps, so that two calls can both find nothing. -/

set_option autoImplicit false
set_option relaxedAutoImplicit false

namespace IntelNav.Transition

universe u

/-- Where a call stands; a thing is named by the number of things made before it. -/
inductive Stage
  | asking
  | making
  | holding (n : Nat)
  | got (n : Nat)
  | failed

def Stage.Busy : Stage → Prop
  | .making | .holding _ => True
  | .asking | .got _ | .failed => False

/-- What is stored, the key of every thing made, and the calls. -/
structure Once (Key : Type u) where
  cache : Key → Option Nat
  made : List Key
  calls : Nat → Option (Key × Stage)

namespace Once

variable {Key : Type u}

def setCall (s : Once Key) (i : Nat) (key : Key) (st : Stage) : Once Key :=
  { s with calls := Function.update s.calls i (some (key, st)) }

section SetCall

variable {s : Once Key} {i j : Nat} {key key' : Key} {st st' : Stage}

theorem setCall_self : (s.setCall i key st).calls i = some (key, st) := Function.update_self ..

theorem setCall_ne (h : j ≠ i) : (s.setCall i key st).calls j = s.calls j :=
  Function.update_of_ne h _ _

private theorem setCall_cases (h : (s.setCall i key st).calls j = some (key', st')) :
    j = i ∧ key' = key ∧ st' = st ∨ j ≠ i ∧ s.calls j = some (key', st') := by
  by_cases hj : j = i
  · subst hj
    rw [setCall_self] at h
    obtain ⟨rfl, rfl⟩ := Prod.mk.inj (Option.some.inj h)
    exact .inl ⟨rfl, rfl, rfl⟩
  · rw [setCall_ne hj] at h
    exact .inr ⟨hj, h⟩

private theorem setCall_other {s : Once Key} {i : Nat} {key key' : Key} {st : Stage}
    (hne : key' ≠ key) (hi : ∀ st', s.calls i ≠ some (key, st')) (j : Nat) (st' : Stage) :
    (s.setCall i key' st).calls j = some (key, st') ↔ s.calls j = some (key, st') := by
  constructor
  · intro h
    rcases setCall_cases h with ⟨-, hkey, -⟩ | ⟨-, h⟩
    · exact absurd hkey.symm hne
    · exact h
  · intro h
    have hj : j ≠ i := by
      rintro rfl
      exact hi st' h
    rw [setCall_ne hj]
    exact h

private theorem calls_other {s : Once Key} {i : Nat} {key key' : Key} {st : Stage}
    (hi : s.calls i = some (key', st)) (hne : key' ≠ key) (st' : Stage) :
    s.calls i ≠ some (key, st') := by
  intro h
  rw [hi] at h
  exact hne (Prod.mk.inj (Option.some.inj h)).1

private theorem not_holding {key : Key} {s : Once Key} {i : Nat} {st : Stage}
    (hi : s.calls i = some (key, st)) (hst : ∀ n, st ≠ .holding n) (n : Nat) :
    s.calls i ≠ some (key, .holding n) := by
  intro hn
  rw [hi] at hn
  exact hst n (Prod.mk.inj (Option.some.inj hn)).2

end SetCall

variable [DecidableEq Key]

/-- One call goes on; it may find nothing only where `ok` allows it. -/
inductive Step (ok : Once Key → Key → Prop) (s : Once Key) : Once Key → Prop
  | stay : Step ok s s
  | arrive (i : Nat) (key : Key) : s.calls i = none → Step ok s (s.setCall i key .asking)
  | hit (i : Nat) (key : Key) (n : Nat) : s.calls i = some (key, .asking) →
      s.cache key = some n → Step ok s (s.setCall i key (.got n))
  | miss (i : Nat) (key : Key) : s.calls i = some (key, .asking) → s.cache key = none →
      ok s key → Step ok s (s.setCall i key .making)
  | make (i : Nat) (key : Key) : s.calls i = some (key, .making) →
      Step ok s { s.setCall i key (.holding s.made.length) with made := s.made ++ [key] }
  | store (i : Nat) (key : Key) (n : Nat) : s.calls i = some (key, .holding n) →
      Step ok s { s.setCall i key (.got n) with cache := Function.update s.cache key (some n) }
  | fail (i : Nat) (key : Key) : s.calls i = some (key, .making) →
      Step ok s (s.setCall i key .failed)

def madeOf (s : Once Key) (key : Key) : Nat := s.made.countP fun k => k = key

def Idle (s : Once Key) (key : Key) : Prop :=
  ∀ i st, s.calls i = some (key, st) → ¬st.Busy

/-- One thing at most is made of the key, and whoever got one got that. -/
structure Single (key : Key) (s : Once Key) : Prop where
  alone : ∀ i j st st', s.calls i = some (key, st) → s.calls j = some (key, st') →
    st.Busy → st'.Busy → i = j
  warm : ∀ n, s.cache key = some n → s.Idle key ∧ s.madeOf key ≤ 1 ∧
    ∀ i m, s.calls i = some (key, .got m) → m = n
  cold : s.cache key = none → (∀ i m, s.calls i ≠ some (key, .got m)) ∧
    (s.madeOf key = 0 ∨
      s.madeOf key = 1 ∧ ∃ i n, s.calls i = some (key, .holding n))

theorem Single.empty (key : Key) : Single key ⟨fun _ => none, [], fun _ => none⟩ where
  alone _ _ _ _ h := by cases h
  warm _ h := by cases h
  cold _ := ⟨fun _ _ h => (by cases h), .inl rfl⟩

theorem Single.count_le {key : Key} {s : Once Key} (h : Single key s) :
    s.madeOf key ≤ 1 := by
  cases hc : s.cache key with
  | none =>
      rcases (h.cold hc).2 with hzero | ⟨hone, -⟩ <;> omega
  | some n => exact (h.warm n hc).2.1

theorem Single.same {key : Key} {s : Once Key} (h : Single key s) {i j n m : Nat}
    (hi : s.calls i = some (key, .got n)) (hj : s.calls j = some (key, .got m)) : n = m := by
  cases hc : s.cache key with
  | none => exact absurd hi ((h.cold hc).1 i n)
  | some k =>
      obtain ⟨-, -, hgot⟩ := h.warm k hc
      rw [hgot i n hi, hgot j m hj]

theorem Single.congr {key : Key} {s t : Once Key} (h : Single key s)
    (hcalls : ∀ i st, t.calls i = some (key, st) ↔ s.calls i = some (key, st))
    (hcache : t.cache key = s.cache key) (hmade : t.madeOf key = s.madeOf key) :
    Single key t where
  alone i j st st' hi hj := h.alone i j st st' ((hcalls i st).mp hi) ((hcalls j st').mp hj)
  warm n hn := by
    obtain ⟨hidle, hcount, hgot⟩ := h.warm n (hcache ▸ hn)
    refine ⟨fun i st hi => hidle i st ((hcalls i st).mp hi), hmade ▸ hcount, ?_⟩
    intro i m hi
    exact hgot i m ((hcalls i _).mp hi)
  cold hn := by
    obtain ⟨hgot, hcount⟩ := h.cold (hcache ▸ hn)
    refine ⟨fun i m hi => hgot i m ((hcalls i _).mp hi), ?_⟩
    rw [hmade]
    rcases hcount with hzero | ⟨hone, i, n, hi⟩
    · exact .inl hzero
    · exact .inr ⟨hone, i, n, (hcalls i _).mpr hi⟩

private theorem Single.busy {key : Key} {s : Once Key} (h : Single key s) {i : Nat} {st : Stage}
    (hi : s.calls i = some (key, st)) (hb : st.Busy) :
    s.cache key = none ∧ (∀ j m, s.calls j ≠ some (key, .got m)) ∧
      (s.madeOf key = 0 ∨ s.madeOf key = 1 ∧ ∃ n, st = .holding n) := by
  cases hc : s.cache key with
  | some n => exact absurd hb ((h.warm n hc).1 i st hi)
  | none =>
      obtain ⟨hgot, hcount⟩ := h.cold hc
      refine ⟨rfl, hgot, ?_⟩
      rcases hcount with hzero | ⟨hone, j, n, hj⟩
      · exact .inl hzero
      · obtain rfl := h.alone i j st (.holding n) hi hj hb trivial
        obtain ⟨-, rfl⟩ := Prod.mk.inj (Option.some.inj (hi.symm.trans hj))
        exact .inr ⟨hone, n, rfl⟩

private theorem Single.alone_setCall {key : Key} {s : Once Key} (h : Single key s) {i : Nat}
    {st : Stage}
    (hst : st.Busy → ∃ old, s.calls i = some (key, old) ∧ old.Busy) (j k : Nat) (a b : Stage)
    (hj : (s.setCall i key st).calls j = some (key, a))
    (hk : (s.setCall i key st).calls k = some (key, b)) (ha : a.Busy) (hb : b.Busy) : j = k := by
  have hold : ∀ l c, (s.setCall i key st).calls l = some (key, c) → c.Busy →
      ∃ old, s.calls l = some (key, old) ∧ old.Busy := by
    intro l c hl hc
    rcases setCall_cases hl with ⟨rfl, -, rfl⟩ | ⟨-, hl⟩
    · exact hst hc
    · exact ⟨c, hl, hc⟩
  obtain ⟨a', hj', ha'⟩ := hold j a hj ha
  obtain ⟨b', hk', hb'⟩ := hold k b hk hb
  exact h.alone j k a' b' hj' hk' ha' hb'

private theorem Single.cold_setCall {key : Key} {s : Once Key} (h : Single key s) {i : Nat}
    {st : Stage} (hi : ∀ n, s.calls i ≠ some (key, .holding n)) (hst : ∀ m, st ≠ .got m)
    (hc : s.cache key = none) :
    (∀ j m, (s.setCall i key st).calls j ≠ some (key, .got m)) ∧
      (s.madeOf key = 0 ∨
        s.madeOf key = 1 ∧ ∃ j n, (s.setCall i key st).calls j = some (key, .holding n)) := by
  obtain ⟨hgot, hcount⟩ := h.cold hc
  constructor
  · intro j m hj
    rcases setCall_cases hj with ⟨-, -, hm⟩ | ⟨-, hj⟩
    · exact hst m hm.symm
    · exact hgot j m hj
  · rcases hcount with hzero | ⟨hone, j, n, hj⟩
    · exact .inl hzero
    · refine .inr ⟨hone, j, n, ?_⟩
      rw [setCall_ne, hj]
      rintro rfl
      exact hi n hj

private theorem Single.setCall_quiet {key : Key} {s : Once Key} (h : Single key s) {i : Nat}
    {st : Stage} (hi : ∀ n, s.calls i ≠ some (key, .holding n)) (hst : ¬st.Busy)
    (hgot : ∀ m, st = .got m → s.cache key = some m) : Single key (s.setCall i key st) where
  alone := h.alone_setCall fun hb => absurd hb hst
  warm n hn := by
    obtain ⟨hidle, hcount, hsame⟩ := h.warm n hn
    refine ⟨?_, hcount, ?_⟩
    · intro j st' hj
      rcases setCall_cases hj with ⟨-, -, rfl⟩ | ⟨-, hj⟩
      · exact hst
      · exact hidle j st' hj
    · intro j m hj
      rcases setCall_cases hj with ⟨-, -, hm⟩ | ⟨-, hj⟩
      · have hm' := hgot m hm.symm
        exact Option.some.inj (hm'.symm.trans hn)
      · exact hsame j m hj
  cold hn := by
    apply h.cold_setCall hi _ hn
    intro m hm
    have hm' := hgot m hm
    rw [show s.cache key = none from hn] at hm'
    cases hm'

/-- A call that finds nothing while nobody is busy is the only busy one. -/
private theorem Single.miss {key : Key} {s : Once Key} (h : Single key s) {i : Nat}
    (hc : s.cache key = none) (hidle : s.Idle key) : Single key (s.setCall i key .making) where
  alone := by
    intro j k a b hj hk ha hb
    have hself : ∀ l c, (s.setCall i key .making).calls l = some (key, c) → c.Busy → l = i := by
      intro l c hl hbusy
      rcases setCall_cases hl with ⟨rfl, -⟩ | ⟨-, hl⟩
      · rfl
      · exact absurd hbusy (hidle l c hl)
    rw [hself j a hj ha, hself k b hk hb]
  warm n hn := by
    rw [show s.cache key = some n from hn] at hc
    cases hc
  cold _ := by
    apply h.cold_setCall
    · intro n hn
      exact hidle i _ hn trivial
    · exact nofun
    · exact hc

/-- The call that makes a thing holds it, and there was none before. -/
private theorem Single.make {key : Key} {s : Once Key} (h : Single key s) {i : Nat}
    (hi : s.calls i = some (key, .making)) :
    Single key { s.setCall i key (.holding s.made.length) with made := s.made ++ [key] } := by
  obtain ⟨hc, hgot, hcount⟩ := h.busy hi trivial
  have hzero : s.made.countP (fun k => decide (k = key)) = 0 := by
    rcases hcount with hzero | ⟨-, n, hn⟩
    · exact hzero
    · cases hn
  refine ⟨h.alone_setCall fun _ => ⟨_, hi, trivial⟩, ?_, fun _ => ⟨?_, .inr ⟨?_, i, _,
    setCall_self⟩⟩⟩
  · intro n hn
    rw [show s.cache key = some n from hn] at hc
    cases hc
  · intro j m hj
    rcases setCall_cases hj with ⟨-, -, hm⟩ | ⟨-, hj⟩
    · cases hm
    · exact hgot j m hj
  · change (s.made ++ [key]).countP (fun k => decide (k = key)) = 1
    rw [List.countP_append, hzero]
    simp

/-- What the call that holds it stores is the one thing made, and nobody is busy any more. -/
private theorem Single.store {key : Key} {s : Once Key} (h : Single key s) {i n : Nat}
    (hi : s.calls i = some (key, .holding n)) :
    Single key { s.setCall i key (.got n) with cache := Function.update s.cache key (some n) } := by
  obtain ⟨-, hgot, hcount⟩ := h.busy hi trivial
  have hself : Function.update s.cache key (some n) key = some n := Function.update_self ..
  refine ⟨h.alone_setCall fun _ => ⟨_, hi, trivial⟩, ?_, ?_⟩
  · intro m hm
    obtain rfl : n = m := Option.some.inj (hself.symm.trans hm)
    refine ⟨?_, ?_, ?_⟩
    · intro j st hj hb
      rcases setCall_cases hj with ⟨-, -, rfl⟩ | ⟨hji, hj⟩
      · exact hb
      · exact hji (h.alone j i st _ hj hi hb trivial)
    · change s.madeOf key ≤ 1
      rcases hcount with hzero | ⟨hone, -⟩
      · omega
      · omega
    · intro j m' hj
      rcases setCall_cases hj with ⟨-, -, hm'⟩ | ⟨-, hj⟩
      · exact Stage.got.inj hm'
      · exact absurd hj (hgot j m')
  · intro hm
    rw [show Function.update s.cache key (some n) key = none from hm] at hself
    cases hself

/-- One step of any call, if nobody is busy with the key where a call finds nothing of it. -/
theorem Single.step {key : Key} {ok : Once Key → Key → Prop} {s t : Once Key}
    (h : Single key s) (hok : ok s key → s.Idle key) (hs : Step ok s t) : Single key t := by
  cases hs with
  | stay => exact h
  | arrive i key' hi =>
      have hnew : ∀ st, s.calls i ≠ some (key, st) := by
        intro st hst
        rw [hi] at hst
        cases hst
      by_cases hk : key' = key
      · subst hk
        exact h.setCall_quiet (fun n => hnew _) id nofun
      · exact h.congr (setCall_other hk hnew) rfl rfl
  | hit i key' n hi hc =>
      by_cases hk : key' = key
      · subst hk
        apply h.setCall_quiet (not_holding hi nofun) id
        intro m hm
        cases hm
        exact hc
      · exact h.congr (setCall_other hk (calls_other hi hk)) rfl rfl
  | miss i key' hi hc hallowed =>
      by_cases hk : key' = key
      · subst hk
        exact h.miss hc (hok hallowed)
      · exact h.congr (setCall_other hk (calls_other hi hk)) rfl rfl
  | make i key' hi =>
      by_cases hk : key' = key
      · subst hk
        exact h.make hi
      · refine h.congr (setCall_other hk (calls_other hi hk)) rfl ?_
        simp [madeOf, List.countP_append, hk]
  | store i key' n hi =>
      by_cases hk : key' = key
      · subst hk
        exact h.store hi
      · refine h.congr (setCall_other hk (calls_other hi hk)) ?_ rfl
        exact Function.update_of_ne (Ne.symm hk) _ _
  | fail i key' hi =>
      by_cases hk : key' = key
      · subst hk
        exact h.setCall_quiet (not_holding hi nofun) id nofun
      · exact h.congr (setCall_other hk (calls_other hi hk)) rfl rfl

end Once

end IntelNav.Transition
