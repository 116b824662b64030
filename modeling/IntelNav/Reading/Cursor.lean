import Mathlib.Algebra.Order.Ring.Nat
import Mathlib.Tactic.Common

/-! Readers that walk over a buffer with machine arithmetic, and the words that they accept. -/

set_option autoImplicit false
set_option relaxedAutoImplicit false

namespace IntelNav.Reading

universe u v

/-- Sums, differences and products of machine words; where there is none the program panics. -/
structure Arith where
  add : Nat → Nat → Option Nat
  sub : Nat → Nat → Option Nat
  mul : Nat → Nat → Option Nat

namespace Arith

/-- Words of `w` bits that wrap around. -/
def wrapping (w : Nat) : Arith where
  add a b := some ((a + b) % 2 ^ w)
  sub a b := some ((a + 2 ^ w - b) % 2 ^ w)
  mul a b := some (a * b % 2 ^ w)

/-- Words of `w` bits whose overflows are caught. -/
def trapping (w : Nat) : Arith where
  add a b := if a + b < 2 ^ w then some (a + b) else none
  sub a b := if b ≤ a then some (a - b) else none
  mul a b := if a * b < 2 ^ w then some (a * b) else none

def exact : Arith where
  add a b := some (a + b)
  sub a b := if b ≤ a then some (a - b) else none
  mul a b := some (a * b)

/-- A sum below the bound is right; another one panics, passes every buffer or wraps around. A
product that is no word passes every buffer, added to whatever. Differences are right. -/
structure Words (w : Nat) (ar : Arith) : Prop where
  below : ∀ a b, a + b < 2 ^ w → ar.add a b = some (a + b)
  above : ∀ a b e, a < 2 ^ w → b < 2 ^ w → 2 ^ w ≤ a + b → ar.add a b = some e →
    e < a ∨ 2 ^ w ≤ e
  product : ∀ a b n, ar.mul a b = some n → n < 2 ^ w ∨ ∀ c e, ar.add c n = some e → 2 ^ w ≤ e
  difference : ∀ a b, b ≤ a → a < 2 ^ w → ar.sub a b = some (a - b)

theorem words_wrapping (w : Nat) : (wrapping w).Words w where
  below a b h := by simp [wrapping, Nat.mod_eq_of_lt h]
  above a b e ha hb h he := by
    have hmod : (a + b) % 2 ^ w = a + b - 2 ^ w := by
      rw [Nat.mod_eq_sub_mod h, Nat.mod_eq_of_lt (by omega)]
    obtain rfl : (a + b) % 2 ^ w = e := by simpa [wrapping] using he
    exact .inl (by omega)
  product a b n h := by
    obtain rfl : a * b % 2 ^ w = n := by simpa [wrapping] using h
    exact .inl (Nat.mod_lt _ (Nat.two_pow_pos w))
  difference a b hle hlt := by
    have hsum : a + 2 ^ w - b = a - b + 2 ^ w := by omega
    simp only [wrapping]
    rw [hsum, Nat.add_mod_right, Nat.mod_eq_of_lt (by omega)]

theorem words_trapping (w : Nat) : (trapping w).Words w where
  below a b h := by simp [trapping, h]
  above a b e _ _ h he := by simp [trapping, Nat.not_lt.mpr h] at he
  product a b n h := by
    simp only [trapping] at h
    split at h
    · rename_i hlt
      obtain rfl := Option.some.inj h
      exact .inl hlt
    · cases h
  difference a b hle _ := if_pos hle

end Arith

inductive Stop (ε : Type u)
  | failed (e : ε)
  | panicked
  deriving DecidableEq

/-- From a buffer and a position in it, a result and the position after it. -/
def Cursor (τ ε α : Type) := List τ → Nat → Except (Stop ε) (α × Nat)

variable {τ ε α β : Type}

namespace Cursor

instance : Monad (Cursor τ ε) where
  pure a := fun _ pos => .ok (a, pos)
  bind r f := fun buf pos =>
    match r buf pos with
    | .ok (a, pos) => f a buf pos
    | .error s => .error s

def here : Cursor τ ε Nat := fun _ pos => .ok (pos, pos)

def fail (e : Nat → ε) : Cursor τ ε α := fun _ pos => .error (.failed (e pos))

def panic : Cursor τ ε α := fun _ _ => .error .panicked

/-- The next `n` symbols; `short` reports that there are too few. -/
def take (ar : Arith) (short : Nat → Nat → Nat → ε) (n : Nat) : Cursor τ ε (List τ) :=
  fun buf pos =>
    match ar.add pos n with
    | none => .error .panicked
    | some stop =>
        if buf.length < stop then .error (.failed (short pos n (buf.length - pos)))
        else if stop < pos then .error .panicked
        else .ok ((buf.drop pos).take (stop - pos), stop)

def spanned (r : Cursor τ ε α) : Cursor τ ε (List τ × α) := fun buf pos =>
  match r buf pos with
  | .ok (a, stop) => .ok (((buf.drop pos).take (stop - pos), a), stop)
  | .error s => .error s

/-- The reader `n` times over. -/
def times (r : Cursor τ ε α) : Nat → Cursor τ ε (List α)
  | 0 => pure []
  | n + 1 => do
      let a ← r
      let as ← times r n
      pure (a :: as)

end Cursor

/-- In buffers shorter than `N` the reader accepts, from each position on, just the words that `S`
gives for its results. -/
def Reads (N : Nat) (r : Cursor τ ε α) (S : Nat → α → List τ → Prop) : Prop :=
  ∀ buf pos a stop, buf.length < N → pos ≤ buf.length →
    (r buf pos = .ok (a, stop) ↔ ∃ s, S pos a s ∧ s <+: buf.drop pos ∧ stop = pos + s.length)

variable {N : Nat} {S : Nat → α → List τ → Prop}

theorem stop_le {buf s : List τ} {pos : Nat} (hpos : pos ≤ buf.length)
    (hs : s <+: buf.drop pos) : pos + s.length ≤ buf.length := by
  have hlen := hs.length_le
  rw [List.length_drop] at hlen
  omega

private theorem drop_eq_append {buf s : List τ} {pos : Nat} (hs : s <+: buf.drop pos) :
    buf.drop pos = s ++ buf.drop (pos + s.length) := by
  obtain ⟨t, ht⟩ := hs
  rw [← List.drop_drop, ← ht, List.drop_left]

theorem word_after {buf s t : List τ} {pos : Nat} (h : s ++ t <+: buf.drop pos) :
    t <+: buf.drop (pos + s.length) := by
  rw [drop_eq_append ((List.prefix_append s t).trans h)] at h
  exact (List.prefix_append_right_inj s).mp h

theorem Reads.pure (N : Nat) (a : α) :
    Reads N (pure a : Cursor τ ε α) fun _ b s => b = a ∧ s = [] := by
  intro buf pos b stop _ _
  constructor
  · intro h
    obtain ⟨rfl, rfl⟩ := Prod.mk.inj (Except.ok.inj h)
    exact ⟨[], ⟨rfl, rfl⟩, List.nil_prefix, rfl⟩
  · rintro ⟨s, ⟨rfl, rfl⟩, -, rfl⟩
    rfl

theorem Reads.here (N : Nat) :
    Reads N (Cursor.here : Cursor τ ε Nat) fun pos a s => a = pos ∧ s = [] := by
  intro buf pos b stop _ _
  constructor
  · intro h
    obtain ⟨rfl, rfl⟩ := Prod.mk.inj (Except.ok.inj h)
    exact ⟨[], ⟨rfl, rfl⟩, List.nil_prefix, rfl⟩
  · rintro ⟨s, ⟨rfl, rfl⟩, -, rfl⟩
    rfl

theorem Reads.fail (N : Nat) (e : Nat → ε) :
    Reads N (Cursor.fail e : Cursor τ ε α) fun _ _ _ => False := by
  intro buf pos a stop _ _
  simp [Cursor.fail]

/-- A reader that refuses first and reads on otherwise. -/
theorem Reads.refused {c : Prop} [Decidable c] {e : Nat → ε} {r : Cursor τ ε α}
    (hr : Reads N r S) :
    Reads N (if c then Cursor.fail e else r) fun pos a s => ¬c ∧ S pos a s := by
  intro buf pos a stop hN hpos
  split
  · rename_i hc
    simp [Cursor.fail, hc]
  · rename_i hc
    simp only [hr buf pos a stop hN hpos, hc, not_false_eq_true, true_and]

theorem Reads.panic (N : Nat) :
    Reads N (Cursor.panic : Cursor τ ε α) fun _ _ _ => False := by
  intro buf pos a stop _ _
  simp [Cursor.panic]

/-- One reader after the other accepts the words of one followed by those of the other. -/
theorem Reads.bind {r : Cursor τ ε α} {f : α → Cursor τ ε β} {T : α → Nat → β → List τ → Prop}
    (hr : Reads N r S) (hf : ∀ pos a s, S pos a s → Reads N (f a) (T a)) :
    Reads N (r >>= f) fun pos b s =>
      ∃ a s₁ s₂, S pos a s₁ ∧ T a (pos + s₁.length) b s₂ ∧ s = s₁ ++ s₂ := by
  intro buf pos b stop hN hpos
  constructor
  · intro h
    change (match r buf pos with
      | .ok (a, pos) => f a buf pos
      | .error s => .error s) = _ at h
    cases hrun : r buf pos with
    | error e =>
        rw [hrun] at h
        cases h
    | ok result =>
        obtain ⟨a, mid⟩ := result
        rw [hrun] at h
        obtain ⟨s₁, hS, hs₁, rfl⟩ := (hr buf pos a mid hN hpos).mp hrun
        have hmid := stop_le hpos hs₁
        obtain ⟨s₂, hT, hs₂, rfl⟩ := (hf _ _ _ hS buf _ b stop hN hmid).mp h
        refine ⟨s₁ ++ s₂, ⟨a, s₁, s₂, hS, hT, rfl⟩, ?_, by simp [Nat.add_assoc]⟩
        rw [drop_eq_append hs₁]
        exact (List.prefix_append_right_inj s₁).mpr hs₂
  · rintro ⟨_, ⟨a, s₁, s₂, hS, hT, rfl⟩, hs, rfl⟩
    have hs₁ : s₁ <+: buf.drop pos := (List.prefix_append s₁ s₂).trans hs
    rw [drop_eq_append hs₁] at hs
    have hs₂ := (List.prefix_append_right_inj s₁).mp hs
    have hrun := (hr buf pos a _ hN hpos).mpr ⟨s₁, hS, hs₁, rfl⟩
    change (match r buf pos with
      | .ok (a, pos) => f a buf pos
      | .error s => .error s) = _
    rw [hrun]
    refine (hf _ _ _ hS buf _ b _ hN (stop_le hpos hs₁)).mpr ⟨s₂, hT, hs₂, ?_⟩
    simp [Nat.add_assoc]

theorem Reads.congr {r : Cursor τ ε α} {T : Nat → α → List τ → Prop} (hr : Reads N r S)
    (h : ∀ pos a s, S pos a s ↔ T pos a s) : Reads N r T := by
  intro buf pos a stop hN hpos
  rw [hr buf pos a stop hN hpos]
  simp only [h]

/-- The next `n` symbols are read as they are, in buffers below the bound of the words. -/
theorem Reads.take {w : Nat} {ar : Arith} (har : ar.Words w) (hN : N ≤ 2 ^ w)
    (short : Nat → Nat → Nat → ε) {n : Nat}
    (hn : n < 2 ^ w ∨ ∀ c e, ar.add c n = some e → 2 ^ w ≤ e) :
    Reads N (Cursor.take ar short n : Cursor τ ε (List τ))
      fun _ a s => a = s ∧ s.length = n := by
  intro buf pos a stop hlen hpos
  have hshort : ∀ s : List τ, s.length = n → s <+: buf.drop pos → pos + n ≤ buf.length :=
    fun s hs hsp => hs ▸ stop_le hpos hsp
  by_cases hsum : pos + n < 2 ^ w
  · simp only [Cursor.take, har.below pos n hsum]
    by_cases hlong : buf.length < pos + n
    · simp only [if_pos hlong, reduceCtorEq, false_iff]
      rintro ⟨s, ⟨-, hs⟩, hsp, -⟩
      have := hshort s hs hsp
      omega
    · rw [if_neg hlong, if_neg (by omega), Nat.add_sub_cancel_left]
      constructor
      · intro h
        obtain ⟨rfl, rfl⟩ := Prod.mk.inj (Except.ok.inj h)
        have hn' : ((buf.drop pos).take n).length = n := by
          rw [List.length_take, List.length_drop]
          omega
        exact ⟨_, ⟨rfl, hn'⟩, List.take_prefix n _, by rw [hn']⟩
      · rintro ⟨s, ⟨rfl, rfl⟩, hsp, rfl⟩
        rw [← List.prefix_iff_eq_take.mp hsp]
  · constructor
    · intro h
      simp only [Cursor.take] at h
      split at h
      · cases h
      · rename_i e he
        have habove : e < pos ∨ 2 ^ w ≤ e := by
          rcases hn with hn | hn
          · exact har.above pos n e (by omega) hn (by omega) he
          · exact .inr (hn pos e he)
        split at h
        · cases h
        · split at h
          · cases h
          · omega
    · rintro ⟨s, ⟨-, hs⟩, hsp, -⟩
      have := hshort s hs hsp
      omega

theorem Reads.spanned {r : Cursor τ ε α} (hr : Reads N r S) :
    Reads N r.spanned fun pos a s => S pos a.2 s ∧ a.1 = s := by
  intro buf pos a stop hN hpos
  obtain ⟨w, a⟩ := a
  constructor
  · intro h
    simp only [Cursor.spanned] at h
    cases hrun : r buf pos with
    | error e =>
        rw [hrun] at h
        cases h
    | ok result =>
        obtain ⟨b, mid⟩ := result
        rw [hrun] at h
        obtain ⟨hwb, rfl⟩ := Prod.mk.inj (Except.ok.inj h)
        obtain ⟨rfl, rfl⟩ := Prod.mk.inj hwb
        obtain ⟨s, hS, hs, rfl⟩ := (hr buf pos b mid hN hpos).mp hrun
        refine ⟨s, ⟨hS, ?_⟩, hs, rfl⟩
        rw [Nat.add_sub_cancel_left, ← List.prefix_iff_eq_take.mp hs]
  · rintro ⟨s, ⟨hS, rfl⟩, hs, rfl⟩
    simp only [Cursor.spanned, (hr buf pos a _ hN hpos).mpr ⟨_, hS, hs, rfl⟩,
      Nat.add_sub_cancel_left, ← List.prefix_iff_eq_take.mp hs]

def Sequence (S : Nat → α → List τ → Prop) : Nat → List α → List τ → Prop
  | _, [], s => s = []
  | pos, a :: as, s =>
      ∃ s₁ s₂, S pos a s₁ ∧ Sequence S (pos + s₁.length) as s₂ ∧ s = s₁ ++ s₂

theorem sequence_iff {f : β → α} {g : β → List τ} {pos : Nat} {as : List α} {s : List τ} :
    Sequence (fun _ a s => ∃ b, a = f b ∧ s = g b) pos as s ↔
      ∃ bs : List β, as = bs.map f ∧ s = bs.flatMap g := by
  induction as generalizing pos s with
  | nil =>
      constructor
      · rintro rfl
        exact ⟨[], rfl, rfl⟩
      · rintro ⟨bs, has, rfl⟩
        obtain rfl := List.map_eq_nil_iff.mp has.symm
        rfl
  | cons a as ih =>
      simp only [Sequence, ih]
      constructor
      · rintro ⟨_, _, ⟨b, rfl, rfl⟩, ⟨bs, rfl, rfl⟩, rfl⟩
        exact ⟨b :: bs, rfl, rfl⟩
      · rintro ⟨bs, has, rfl⟩
        cases bs with
        | nil => cases has
        | cons b bs =>
            obtain ⟨rfl, rfl⟩ := List.cons.inj has
            exact ⟨g b, bs.flatMap g, ⟨b, rfl, rfl⟩, ⟨bs, rfl, rfl⟩, rfl⟩

theorem Reads.times {r : Cursor τ ε α} (hr : Reads N r S) (n : Nat) :
    Reads N (r.times n) fun pos as s => as.length = n ∧ Sequence S pos as s := by
  induction n with
  | zero =>
      refine (Reads.pure N []).congr fun pos as s => ?_
      cases as with
      | nil => simp [Sequence]
      | cons a as => simp
  | succ n ih =>
      have htail :
        ∀ a, Reads N (r.times n >>= fun as => (Pure.pure (a :: as) : Cursor τ ε (List α)))
          fun pos bs s => ∃ as, bs = a :: as ∧ as.length = n ∧ Sequence S pos as s := by
        intro a
        refine (ih.bind fun _ as _ _ => Reads.pure N (a :: as)).congr fun pos bs s => ?_
        constructor
        · rintro ⟨as, s₁, s₂, ⟨hn, hs⟩, ⟨rfl, rfl⟩, rfl⟩
          exact ⟨as, rfl, hn, by simpa using hs⟩
        · rintro ⟨as, rfl, hn, hs⟩
          exact ⟨as, s, [], ⟨hn, hs⟩, ⟨rfl, rfl⟩, by simp⟩
      refine (hr.bind fun _ a _ _ => htail a).congr fun pos bs s => ?_
      constructor
      · rintro ⟨a, s₁, s₂, ha, ⟨as, rfl, hn, hs⟩, rfl⟩
        exact ⟨by simp [hn], s₁, s₂, ha, hs, rfl⟩
      · rintro ⟨hn, hs⟩
        cases bs with
        | nil => simp at hn
        | cons a as =>
            obtain ⟨s₁, s₂, ha, hs, rfl⟩ := hs
            exact ⟨a, s₁, s₂, ha, ⟨as, rfl, by simpa using hn, hs⟩, rfl⟩

theorem Cursor.bind_ok {r : Cursor τ ε α} {f : α → Cursor τ ε β} {buf : List τ}
    {pos mid : Nat} {a : α} (h : r buf pos = .ok (a, mid)) : (r >>= f) buf pos = f a buf mid := by
  change (match r buf pos with
    | .ok (a, pos) => f a buf pos
    | .error s => .error s) = _
  rw [h]

theorem Cursor.bind_apply (r : Cursor τ ε α) (f : α → Cursor τ ε β) (buf : List τ) (pos : Nat) :
    (r >>= f) buf pos =
      match r buf pos with
      | .ok (a, mid) => f a buf mid
      | .error s => .error s := rfl

theorem Cursor.pure_apply (a : α) (buf : List τ) (pos : Nat) :
    (pure a : Cursor τ ε α) buf pos = .ok (a, pos) := rfl

theorem Cursor.bind_eq_ok {r : Cursor τ ε α} {f : α → Cursor τ ε β} {buf : List τ} {pos stop : Nat}
    {b : β} (h : (r >>= f) buf pos = .ok (b, stop)) :
    ∃ a mid, r buf pos = .ok (a, mid) ∧ f a buf mid = .ok (b, stop) := by
  rw [Cursor.bind_apply] at h
  cases hrun : r buf pos with
  | error e =>
      rw [hrun] at h
      cases h
  | ok result =>
      obtain ⟨a, mid⟩ := result
      rw [hrun] at h
      exact ⟨a, mid, rfl, h⟩

theorem Cursor.spanned_ok {r : Cursor τ ε α} {buf w : List τ} {pos : Nat} {a : α}
    (hw : w <+: buf.drop pos) (h : r buf pos = .ok (a, pos + w.length)) :
    r.spanned buf pos = .ok ((w, a), pos + w.length) := by
  rw [Cursor.spanned, h]
  simp only [Nat.add_sub_cancel_left, ← List.prefix_iff_eq_take.mp hw]

/-- In buffers shorter than `N` the reader reads each word of `g`, wherever it stands, as `f`
says. -/
def Accepts (N : Nat) (r : Cursor τ ε α) (f : β → α) (g : β → List τ) : Prop :=
  ∀ buf pos b, buf.length < N → pos ≤ buf.length → g b <+: buf.drop pos →
    r buf pos = .ok (f b, pos + (g b).length)

theorem Accepts.times {r : Cursor τ ε α} {f : β → α} {g : β → List τ} (h : Accepts N r f g)
    (bs : List β) {buf : List τ} {pos : Nat} (hN : buf.length < N) (hpos : pos ≤ buf.length)
    (hs : bs.flatMap g <+: buf.drop pos) :
    r.times bs.length buf pos = .ok (bs.map f, pos + (bs.flatMap g).length) := by
  induction bs generalizing pos with
  | nil => rfl
  | cons b bs ih =>
      rw [List.flatMap_cons] at hs
      have hb : g b <+: buf.drop pos := (List.prefix_append _ _).trans hs
      have hrest : bs.flatMap g <+: buf.drop (pos + (g b).length) := word_after hs
      refine (Cursor.bind_ok (h buf pos b hN hpos hb)).trans
        ((Cursor.bind_ok (ih (stop_le hpos hb) hrest)).trans ?_)
      rw [List.map_cons, List.flatMap_cons, List.length_append, ← Nat.add_assoc]
      rfl

/-- In buffers shorter than `N` the reader panics, from each position on, just where a word that
`P` gives comes next. -/
def Faults (N : Nat) (r : Cursor τ ε α) (P : Nat → List τ → Prop) : Prop :=
  ∀ buf pos, buf.length < N → pos ≤ buf.length →
    (r buf pos = .error .panicked ↔ ∃ s, P pos s ∧ s <+: buf.drop pos)

variable {P : Nat → List τ → Prop}

theorem Faults.never {r : Cursor τ ε α} (h : ∀ buf pos, r buf pos ≠ .error .panicked) :
    Faults N r fun _ _ => False := by
  intro buf pos _ _
  simp [h]

theorem Faults.pure (N : Nat) (a : α) :
    Faults N (pure a : Cursor τ ε α) fun _ _ => False :=
  Faults.never fun _ _ h => by cases h

theorem Faults.here (N : Nat) : Faults N (Cursor.here : Cursor τ ε Nat) fun _ _ => False :=
  Faults.never fun _ _ h => by cases h

theorem Faults.fail (N : Nat) (e : Nat → ε) :
    Faults N (Cursor.fail e : Cursor τ ε α) fun _ _ => False :=
  Faults.never fun _ _ h => by cases h

theorem Faults.panic (N : Nat) :
    Faults N (Cursor.panic : Cursor τ ε α) fun _ s => s = [] := by
  intro buf pos _ _
  simp [Cursor.panic]

theorem Faults.congr {r : Cursor τ ε α} {Q : Nat → List τ → Prop} (hr : Faults N r P)
    (h : ∀ pos s, pos + s.length < N → (P pos s ↔ Q pos s)) : Faults N r Q := by
  intro buf pos hN hpos
  rw [hr buf pos hN hpos]
  exact exists_congr fun s => and_congr_left fun hs =>
    h pos s (Nat.lt_of_le_of_lt (stop_le hpos hs) hN)

/-- Two readers panic where the first one does, or the second one after a word of the first. -/
theorem Faults.bind {r : Cursor τ ε α} {f : α → Cursor τ ε β} {Q : α → Nat → List τ → Prop}
    (hreads : Reads N r S) (hr : Faults N r P) (hf : ∀ pos a s, S pos a s → Faults N (f a) (Q a)) :
    Faults N (r >>= f) fun pos s =>
      P pos s ∨ ∃ a s₁ s₂, S pos a s₁ ∧ Q a (pos + s₁.length) s₂ ∧ s = s₁ ++ s₂ := by
  intro buf pos hN hpos
  change (match r buf pos with
    | .ok (a, pos) => f a buf pos
    | .error s => .error s) = _ ↔ _
  constructor
  · intro h
    cases hrun : r buf pos with
    | error e =>
        rw [hrun] at h
        obtain rfl := Except.error.inj h
        obtain ⟨s, hP, hs⟩ := (hr buf pos hN hpos).mp hrun
        exact ⟨s, .inl hP, hs⟩
    | ok result =>
        obtain ⟨a, mid⟩ := result
        rw [hrun] at h
        obtain ⟨s₁, hS, hs₁, rfl⟩ := (hreads buf pos a mid hN hpos).mp hrun
        obtain ⟨s₂, hQ, hs₂⟩ := (hf _ _ _ hS buf _ hN (stop_le hpos hs₁)).mp h
        refine ⟨s₁ ++ s₂, .inr ⟨a, s₁, s₂, hS, hQ, rfl⟩, ?_⟩
        rw [drop_eq_append hs₁]
        exact (List.prefix_append_right_inj s₁).mpr hs₂
  · rintro ⟨s, hP | ⟨a, s₁, s₂, hS, hQ, rfl⟩, hs⟩
    · rw [(hr buf pos hN hpos).mpr ⟨s, hP, hs⟩]
    · have hs₁ : s₁ <+: buf.drop pos := (List.prefix_append s₁ s₂).trans hs
      rw [drop_eq_append hs₁] at hs
      have hs₂ := (List.prefix_append_right_inj s₁).mp hs
      rw [(hreads buf pos a _ hN hpos).mpr ⟨s₁, hS, hs₁, rfl⟩]
      exact (hf _ _ _ hS buf _ hN (stop_le hpos hs₁)).mpr ⟨s₂, hQ, hs₂⟩

theorem Faults.take (N w : Nat) (short : Nat → Nat → Nat → ε) (n : Nat) :
    Faults N (Cursor.take (.trapping w) short n : Cursor τ ε (List τ))
      fun pos s => 2 ^ w ≤ pos + n ∧ s = [] := by
  intro buf pos hlen hpos
  simp only [Cursor.take, Arith.trapping]
  by_cases hsum : pos + n < 2 ^ w
  · simp only [if_pos hsum, Nat.not_le.mpr hsum, false_and, exists_false, iff_false]
    split
    · simp
    · rw [if_neg (by omega)]
      simp
  · simp [hsum, Nat.not_lt.mp hsum]

theorem Faults.spanned {r : Cursor τ ε α} (hr : Faults N r P) : Faults N r.spanned P := by
  intro buf pos hN hpos
  rw [← hr buf pos hN hpos, Cursor.spanned]
  cases r buf pos with
  | ok result => simp
  | error e => simp

theorem Faults.times {r : Cursor τ ε α} (hreads : Reads N r S) (hr : Faults N r P) (n : Nat) :
    Faults N (r.times n) fun pos s => ∃ as s₁ s₂, List.length as < n ∧ Sequence S pos as s₁ ∧
      P (pos + s₁.length) s₂ ∧ s = s₁ ++ s₂ := by
  induction n with
  | zero =>
      exact (Faults.pure N []).congr fun pos s _ => by simp
  | succ n ih =>
      have htail : ∀ a, Faults N
          (r.times n >>= fun as => (Pure.pure (a :: as) : Cursor τ ε (List α)))
          fun pos s => ∃ as s₁ s₂, List.length as < n ∧ Sequence S pos as s₁ ∧
            P (pos + s₁.length) s₂ ∧ s = s₁ ++ s₂ := by
        intro a
        exact (Faults.bind (hreads.times n) ih fun _ as _ _ =>
          Faults.pure N (a :: as)).congr fun pos s _ => by simp
      refine (Faults.bind hreads hr fun _ a _ _ => htail a).congr fun pos s _ => ?_
      constructor
      · rintro (hP | ⟨a, s₁, s₂, ha, ⟨as, t₁, t₂, hn, hseq, hP, rfl⟩, rfl⟩)
        · exact ⟨[], [], s, Nat.succ_pos n, rfl, hP, rfl⟩
        · refine ⟨a :: as, s₁ ++ t₁, t₂, Nat.succ_lt_succ hn, ⟨s₁, t₁, ha, hseq, rfl⟩, ?_, by simp⟩
          simpa [Nat.add_assoc] using hP
      · rintro ⟨as, s₁, s₂, hn, hseq, hP, rfl⟩
        cases as with
        | nil =>
            obtain rfl : s₁ = [] := hseq
            exact .inl hP
        | cons a as =>
            obtain ⟨t₁, t₂, ha, hseq, rfl⟩ := hseq
            refine .inr
              ⟨a, t₁, t₂ ++ s₂, ha, ⟨as, t₂, s₂, Nat.lt_of_succ_lt_succ hn, hseq, ?_, rfl⟩,
              by simp⟩
            simpa [Nat.add_assoc] using hP

theorem Faults.times_words {r : Cursor τ ε α} {f : β → α} {g : β → List τ}
    (hreads : Reads N r fun _ a s => ∃ b, a = f b ∧ s = g b) (hr : Faults N r P) (n : Nat) :
    Faults N (r.times n) fun pos s => ∃ (bs : List β) (t : List τ), bs.length < n ∧
      s = bs.flatMap g ++ t ∧ P (pos + (bs.flatMap g).length) t := by
  refine (Faults.times hreads hr n).congr fun pos s _ => ?_
  constructor
  · rintro ⟨as, s₁, s₂, hn, hseq, hP, rfl⟩
    obtain ⟨bs, rfl, rfl⟩ := sequence_iff.mp hseq
    exact ⟨bs, s₂, by simpa using hn, rfl, hP⟩
  · rintro ⟨bs, t, hn, rfl, hP⟩
    exact ⟨bs.map f, _, t, by simpa using hn, sequence_iff.mpr ⟨bs, rfl, rfl⟩, hP, rfl⟩

end IntelNav.Reading
