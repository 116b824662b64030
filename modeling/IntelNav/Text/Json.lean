import Mathlib.Data.List.Basic
import Mathlib.Tactic.Common

/-! Pretty-printed JSON: texts that tell the values they were printed from. -/

set_option autoImplicit false
set_option relaxedAutoImplicit false

namespace IntelNav.Text.Json

universe u v

variable {α : Type u} {β : Type v}

def Ends (r : List Char) : Prop := ∀ c ∈ r.head?, c = ',' ∨ c = '\n' ∨ c = ']' ∨ c = '\x7d'

def Apart (t u : List Char) : Prop :=
  ∀ r r', Ends r → Ends r' → t ++ r = u ++ r' → t = u

def Framed (p : α → List Char) : Prop := ∀ a b, Apart (p a) (p b)

private theorem ends_cons {c : Char} (hc : c = ',' ∨ c = '\n' ∨ c = ']' ∨ c = '\x7d')
    (r : List Char) :
    Ends (c :: r) := by
  intro d hd
  obtain rfl := Option.some.inj hd
  exact hc

theorem Framed.comp {p : β → List Char} (h : Framed p) (f : α → β) : Framed fun a => p (f a) :=
  fun a b => h (f a) (f b)

/-! Numbers. -/

private theorem digits_apart {t u r r' : List Char} (ht : ∀ c ∈ t, c.isDigit = true)
    (hu : ∀ c ∈ u, c.isDigit = true) (hr : Ends r) (hr' : Ends r') (h : t ++ r = u ++ r') :
    t = u := by
  have hspan : ∀ {t r : List Char}, (∀ c ∈ t, c.isDigit = true) → Ends r →
      (t ++ r).takeWhile Char.isDigit = t := by
    intro t r ht hr
    rw [List.takeWhile_append_of_pos ht]
    cases r with
    | nil => simp
    | cons c r =>
        have hstop : c.isDigit = false := by
          rcases hr c rfl with rfl | rfl | rfl | rfl <;> decide
        simp [hstop]
  rw [← hspan ht hr, h, hspan hu hr']

def number : Int → List Char
  | .ofNat n => Nat.toDigits 10 n
  | .negSucc n => '-' :: Nat.toDigits 10 (n + 1)

private theorem isDigit_toDigits (n : Nat) : ∀ c ∈ Nat.toDigits 10 n, c.isDigit = true :=
  fun _ hc => Nat.isDigit_of_mem_toDigits (by decide) (by decide) hc

private theorem toDigits_injective : Function.Injective (Nat.toDigits 10) := by
  intro m n h
  rw [← Nat.ofDigitChars_ten_toDigits (n := m), h, Nat.ofDigitChars_ten_toDigits]

private theorem toDigits_ne_sign (m : Nat) (r s : List Char) :
    Nat.toDigits 10 m ++ r ≠ '-' :: s := by
  intro h
  cases hm : Nat.toDigits 10 m with
  | nil => exact Nat.toDigits_ne_nil hm
  | cons c cs =>
      rw [hm] at h
      obtain ⟨rfl, -⟩ := List.cons.inj h
      have hdigit := isDigit_toDigits m '-' (by simp [hm])
      exact absurd hdigit (by decide)

theorem framed_number : Framed number := by
  intro a b r r' hr hr' h
  cases a with
  | ofNat m =>
      cases b with
      | ofNat n => exact digits_apart (isDigit_toDigits m) (isDigit_toDigits n) hr hr' h
      | negSucc n => exact absurd h (toDigits_ne_sign m r _)
  | negSucc m =>
      cases b with
      | ofNat n => exact absurd h.symm (toDigits_ne_sign n r' _)
      | negSucc n =>
          have htail := (List.cons.inj h).2
          exact congrArg (List.cons '-')
            (digits_apart (isDigit_toDigits _) (isDigit_toDigits _) hr hr' htail)

theorem number_injective : Function.Injective number := by
  intro a b h
  cases a with
  | ofNat m =>
      cases b with
      | ofNat n => exact congrArg Int.ofNat (toDigits_injective h)
      | negSucc n => exact absurd ((List.append_nil _).trans h) (toDigits_ne_sign m [] _)
  | negSucc m =>
      cases b with
      | ofNat n => exact absurd ((List.append_nil _).trans h.symm) (toDigits_ne_sign n [] _)
      | negSucc n =>
          have hnat := toDigits_injective (List.cons.inj h).2
          exact congrArg Int.negSucc (Nat.succ.inj hnat)

def natural (n : Nat) : List Char := number n

theorem framed_natural : Framed natural := framed_number.comp Int.ofNat

theorem natural_injective : Function.Injective natural :=
  fun _ _ h => Int.ofNat.inj (number_injective h)

/-! Texts. -/

def escaped (c : Char) : List Char :=
  match c with
  | '"' => ['\\', '"']
  | '\\' => ['\\', '\\']
  | '\n' => ['\\', 'n']
  | '\r' => ['\\', 'r']
  | '\t' => ['\\', 't']
  | c =>
      if c = Char.ofNat 8 then ['\\', 'b']
      else if c = Char.ofNat 12 then ['\\', 'f']
      else if c.toNat < 32 then
        ['\\', 'u', '0', '0', Nat.digitChar (c.toNat / 16), Nat.digitChar (c.toNat % 16)]
      else [c]

def hexValue (c : Char) : Nat := if c.isDigit then c.toNat - 48 else c.toNat - 87

def unescape : List Char → Option Char
  | '\\' :: 'u' :: '0' :: '0' :: high :: low :: _ =>
      some (Char.ofNat (16 * hexValue high + hexValue low))
  | '\\' :: 'n' :: _ => some '\n'
  | '\\' :: 'r' :: _ => some '\r'
  | '\\' :: 't' :: _ => some '\t'
  | '\\' :: 'b' :: _ => some (Char.ofNat 8)
  | '\\' :: 'f' :: _ => some (Char.ofNat 12)
  | '\\' :: c :: _ => some c
  | c :: _ => some c
  | [] => none

private theorem unescape_escaped (c : Char) (r : List Char) :
    unescape (escaped c ++ r) = some c := by
  unfold escaped
  split
  · rfl
  · rfl
  · rfl
  · rfl
  · rfl
  · split_ifs with hb hf hlow
    · rw [hb]
      rfl
    · rw [hf]
      rfl
    · have hhex : ∀ d : Fin 16, hexValue (Nat.digitChar d) = d := by decide
      have hhigh := hhex ⟨c.toNat / 16, by omega⟩
      have hrest := hhex ⟨c.toNat % 16, by omega⟩
      change some (Char.ofNat (16 * hexValue (Nat.digitChar (c.toNat / 16)) +
        hexValue (Nat.digitChar (c.toNat % 16)))) = some c
      dsimp only at hhigh hrest
      rw [hhigh, hrest, Nat.div_add_mod, Char.ofNat_toNat]
    · rename_i hslash _ _ _
      rw [List.singleton_append, unescape.eq_def]
      split <;> simp_all

private theorem escaped_inj {c d : Char} {r s : List Char} (h : escaped c ++ r = escaped d ++ s) :
    c = d ∧ r = s := by
  have hchar := unescape_escaped c r
  rw [h, unescape_escaped] at hchar
  obtain rfl := Option.some.inj hchar
  exact ⟨rfl, List.append_cancel_left h⟩

private theorem escaped_ne_quote (c : Char) (r s : List Char) : escaped c ++ r ≠ '"' :: s := by
  intro h
  unfold escaped at h
  split at h
  · cases h
  · cases h
  · cases h
  · cases h
  · cases h
  · rename_i hquote _ _ _ _
    split_ifs at h
    · cases h
    · cases h
    · cases h
    · exact hquote (List.cons.inj h).1

def quoted (s : String) : List Char := '"' :: (s.toList.flatMap escaped ++ ['"'])

private theorem quoted_inj {s t : String} {r r' : List Char} (h : quoted s ++ r = quoted t ++ r') :
    s = t ∧ r = r' := by
  have hchars : ∀ cs ds : List Char,
    cs.flatMap escaped ++ '"' :: r = ds.flatMap escaped ++ '"' :: r' →
      cs = ds ∧ r = r' := by
    intro cs
    induction cs with
    | nil =>
        intro ds h
        cases ds with
        | nil => exact ⟨rfl, (List.cons.inj h).2⟩
        | cons d ds =>
            rw [List.flatMap_cons, List.append_assoc] at h
            exact absurd h.symm (escaped_ne_quote d _ _)
    | cons c cs ih =>
        intro ds h
        rw [List.flatMap_cons, List.append_assoc] at h
        cases ds with
        | nil => exact absurd h (escaped_ne_quote c _ _)
        | cons d ds =>
            rw [List.flatMap_cons, List.append_assoc] at h
            obtain ⟨rfl, htail⟩ := escaped_inj h
            obtain ⟨rfl, hrest⟩ := ih ds htail
            exact ⟨rfl, hrest⟩
  have htail : s.toList.flatMap escaped ++ '"' :: r = t.toList.flatMap escaped ++ '"' :: r' := by
    simpa [quoted] using h
  obtain ⟨hlist, hrest⟩ := hchars _ _ htail
  exact ⟨String.toList_inj.mp hlist, hrest⟩

theorem framed_quoted : Framed quoted :=
  fun _ _ _ _ _ _ h => congrArg quoted (quoted_inj h).1

theorem quoted_injective : Function.Injective quoted := by
  intro s t h
  exact (quoted_inj (congrArg (· ++ []) h)).1

/-! Values that may be missing. -/

def nullable (p : α → List Char) : Option α → List Char
  | none => ['n', 'u', 'l', 'l']
  | some a => p a

def NotNull (p : α → List Char) : Prop := ∀ a r s, p a ++ r ≠ 'n' :: s

theorem framed_nullable {p : α → List Char} (hp : Framed p) (hnull : NotNull p) :
    Framed (nullable p) := by
  intro a b r r' hr hr' h
  cases a with
  | none =>
      cases b with
      | none => rfl
      | some b => exact absurd h.symm (hnull b r' _)
  | some a =>
      cases b with
      | none => exact absurd h (hnull a r _)
      | some b => exact hp a b r r' hr hr' h

theorem nullable_injective {p : α → List Char} (hp : Function.Injective p) (hnull : NotNull p) :
    Function.Injective (nullable p) := by
  intro a b h
  cases a with
  | none =>
      cases b with
      | none => rfl
      | some b => exact absurd ((List.append_nil _).trans h.symm) (hnull b [] _)
  | some a =>
      cases b with
      | none => exact absurd ((List.append_nil _).trans h) (hnull a [] _)
      | some b => exact congrArg some (hp h)

theorem notNull_quoted : NotNull quoted := fun _ _ _ h => by cases h

/-! Items on lines of their own. -/

def indent (depth : Nat) : List Char := List.replicate (2 * depth) ' '

def block (left right : Char) (depth : Nat) : List (List Char) → List Char
  | [] => [left, right]
  | t :: ts =>
      left :: '\n' :: (indent (depth + 1) ++ (t ++
        (ts.flatMap (fun t => ',' :: '\n' :: (indent (depth + 1) ++ t)) ++
          '\n' :: (indent depth ++ [right]))))

/-- The items at the same place are kept apart by what follows them. -/
def AllApart (ts us : List (List Char)) : Prop :=
  ∀ (i : Nat) t u, ts[i]? = some t → us[i]? = some u → Apart t u

private theorem lines_ends (pad : List Char) (ts : List (List Char)) (s : List Char) :
    Ends (ts.flatMap (fun t => ',' :: '\n' :: (pad ++ t)) ++ '\n' :: s) := by
  cases ts with
  | nil => exact ends_cons (.inr (.inl rfl)) _
  | cons t ts => exact ends_cons (.inl rfl) _

private theorem lines_eq {pad : List Char} {ts us : List (List Char)} (h : AllApart ts us)
    {s s' : List Char} (heq : ts.flatMap (fun t => ',' :: '\n' :: (pad ++ t)) ++ '\n' :: s =
      us.flatMap (fun t => ',' :: '\n' :: (pad ++ t)) ++ '\n' :: s') : ts = us := by
  induction ts generalizing us with
  | nil =>
      cases us with
      | nil => rfl
      | cons u us => cases heq
  | cons t ts ih =>
      cases us with
      | nil => cases heq
      | cons u us =>
          simp only [List.flatMap_cons, List.cons_append, List.append_assoc, List.cons.injEq,
            true_and] at heq
          have hrest := List.append_cancel_left heq
          obtain rfl := h 0 t u rfl rfl _ _ (lines_ends pad ts s) (lines_ends pad us s') hrest
          rw [ih (fun i => h (i + 1)) (List.append_cancel_left hrest)]

private theorem block_eq {left right : Char} {depth : Nat} (hright : right ≠ '\n')
    {ts us : List (List Char)} (h : AllApart ts us) {s s' : List Char}
    (heq : block left right depth ts ++ s = block left right depth us ++ s') : ts = us := by
  cases ts with
  | nil =>
      cases us with
      | nil => rfl
      | cons u us => exact absurd (List.cons.inj (List.cons.inj heq).2).1 hright
  | cons t ts =>
      cases us with
      | nil => exact absurd (List.cons.inj (List.cons.inj heq).2).1.symm hright
      | cons u us =>
          simp only [block, List.cons_append, List.append_assoc, List.cons.injEq, true_and] at heq
          have hrest := List.append_cancel_left heq
          obtain rfl := h 0 t u rfl rfl _ _ (lines_ends _ ts _) (lines_ends _ us _) hrest
          rw [lines_eq (fun i => h (i + 1)) (List.append_cancel_left hrest)]

def array (depth : Nat) (p : α → List Char) (items : List α) : List Char :=
  block '[' ']' depth (items.map p)

private theorem map_apart {p : α → List Char} (hp : Framed p) (as bs : List α) :
    AllApart (as.map p) (bs.map p) := by
  intro i t u ht hu
  rw [List.getElem?_map] at ht hu
  obtain ⟨a, -, rfl⟩ := Option.map_eq_some_iff.mp ht
  obtain ⟨b, -, rfl⟩ := Option.map_eq_some_iff.mp hu
  exact hp a b

theorem framed_array {p : α → List Char} (hp : Framed p) (depth : Nat) :
    Framed (array depth p) := by
  intro as bs r r' _ _ h
  exact congrArg (block '[' ']' depth) (block_eq (by decide) (map_apart hp as bs) h)

theorem array_injective {p : α → List Char} (hp : Framed p) (hinj : Function.Injective p)
    (depth : Nat) : Function.Injective (array depth p) := by
  intro as bs h
  apply List.map_injective_iff.mpr hinj
  exact block_eq (by decide) (map_apart hp as bs) (congrArg (· ++ []) h)

private theorem notNull_array (depth : Nat) (p : α → List Char) : NotNull (array depth p) := by
  intro as r s h
  cases as with
  | nil => cases h
  | cons a as => cases h

def pair (depth : Nat) (p : α → List Char) (ab : α × α) : List Char := array depth p [ab.1, ab.2]

theorem framed_pair {p : α → List Char} (hp : Framed p) (depth : Nat) : Framed (pair depth p) :=
  (framed_array hp depth).comp fun ab : α × α => [ab.1, ab.2]

theorem pair_injective {p : α → List Char} (hp : Framed p) (hinj : Function.Injective p)
    (depth : Nat) : Function.Injective (pair depth p) := by
  intro ab cd h
  obtain ⟨hfirst, hsecond⟩ := List.cons.inj (array_injective hp hinj depth h)
  exact Prod.ext hfirst (List.cons.inj hsecond).1

theorem notNull_pair (depth : Nat) (p : α → List Char) : NotNull (pair depth p) :=
  fun ab => notNull_array depth p [ab.1, ab.2]

def object (depth : Nat) (fields : List (String × (α → List Char))) (a : α) : List Char :=
  block '\x7b' '\x7d' depth (fields.map fun f => quoted f.1 ++ ':' :: ' ' :: f.2 a)

theorem object_ne_nil (depth : Nat) (fields : List (String × (α → List Char))) (a : α) :
    object depth fields a ≠ [] := by
  cases fields with
  | nil => exact List.cons_ne_nil _ _
  | cons f fields => exact List.cons_ne_nil _ _

private theorem fields_apart {fields : List (String × (α → List Char))}
    (hfields : ∀ f ∈ fields, Framed f.2) (a b : α) :
    AllApart (fields.map fun f => quoted f.1 ++ ':' :: ' ' :: f.2 a)
      (fields.map fun f => quoted f.1 ++ ':' :: ' ' :: f.2 b) := by
  intro i t u ht hu
  rw [List.getElem?_map] at ht hu
  obtain ⟨f, hf, rfl⟩ := Option.map_eq_some_iff.mp ht
  obtain ⟨f', hf', rfl⟩ := Option.map_eq_some_iff.mp hu
  obtain rfl := Option.some.inj (hf.symm.trans hf')
  intro r r' hr hr' h
  simp only [List.append_assoc, List.cons_append, List.append_cancel_left_eq, List.cons.injEq,
    true_and] at h
  rw [hfields f (List.mem_of_getElem? hf) a b r r' hr hr' h]

theorem framed_object {fields : List (String × (α → List Char))}
    (hfields : ∀ f ∈ fields, Framed f.2) (depth : Nat) : Framed (object depth fields) := by
  intro a b r r' _ _ h
  exact congrArg (block '\x7b' '\x7d' depth) (block_eq (by decide) (fields_apart hfields a b) h)

theorem fields_eq {fields : List (String × (α → List Char))} (hfields : ∀ f ∈ fields, Framed f.2)
    {depth : Nat} {a b : α} (h : object depth fields a = object depth fields b) :
    ∀ f ∈ fields, f.2 a = f.2 b := by
  intro f hf
  have hitems := block_eq (by decide) (fields_apart hfields a b) (congrArg (· ++ []) h)
  have htext := List.map_inj_left.mp hitems f hf
  simpa using htext

/-! On one line. -/

def OneLine (t : List Char) : Prop := '\n' ∉ t ∧ '\r' ∉ t

theorem OneLine.append {t u : List Char} (ht : OneLine t) (hu : OneLine u) : OneLine (t ++ u) :=
  ⟨List.not_mem_append ht.1 hu.1, List.not_mem_append ht.2 hu.2⟩

theorem OneLine.cons {c : Char} {t : List Char} (hc : c ≠ '\n' ∧ c ≠ '\r') (ht : OneLine t) :
    OneLine (c :: t) :=
  ⟨List.not_mem_cons_of_ne_of_not_mem hc.1.symm ht.1,
    List.not_mem_cons_of_ne_of_not_mem hc.2.symm ht.2⟩

def listed : List (List Char) → List Char
  | [] => []
  | [t] => t
  | t :: u :: ts => t ++ ',' :: listed (u :: ts)

def lineObject (fields : List (String × List Char)) : List Char :=
  '\x7b' :: (listed (fields.map fun f => quoted f.1 ++ ':' :: f.2) ++ ['\x7d'])

end IntelNav.Text.Json
