import IntelNav.Text.Utf8

/-! Lossy UTF-8, read byte by byte: a character that is cut off becomes U+FFFD. -/

set_option autoImplicit false
set_option relaxedAutoImplicit false

namespace IntelNav.Text

def replacement : Char := '\uFFFD'

def whole (bs : List UInt8) : Option Char :=
  (ByteArray.utf8DecodeChar? ⟨bs.toArray⟩ 0).filter (·.utf8Size == bs.length)

def isContinuation (b : UInt8) : Bool := 0x80 ≤ b && b ≤ 0xbf

/-- The second bytes that a first one may have: no overlong forms, surrogates or large numbers. -/
def follows (b₀ b₁ : UInt8) : Bool :=
  if b₀ = 0xe0 then 0xa0 ≤ b₁ && b₁ ≤ 0xbf
  else if b₀ = 0xed then 0x80 ≤ b₁ && b₁ ≤ 0x9f
  else if b₀ = 0xf0 then 0x90 ≤ b₁ && b₁ ≤ 0xbf
  else if b₀ = 0xf4 then 0x80 ≤ b₁ && b₁ ≤ 0x8f
  else isContinuation b₁

/-- Some of the bytes that a character begins with, but not all of its bytes. -/
def begun : List UInt8 → Bool
  | [b₀] => 0xc2 ≤ b₀ && b₀ ≤ 0xf4
  | [b₀, b₁] => 0xe0 ≤ b₀ && b₀ ≤ 0xf4 && follows b₀ b₁
  | [b₀, b₁, b₂] => 0xf0 ≤ b₀ && b₀ ≤ 0xf4 && follows b₀ b₁ && isContinuation b₂
  | _ => false

/-- The characters read, and the bytes of the one that has begun. -/
structure Scan where
  out : List Char
  tail : List UInt8
  deriving DecidableEq

namespace Scan

def push (s : Scan) (b : UInt8) : Scan :=
  match whole (s.tail ++ [b]) with
  | some c => ⟨s.out ++ [c], []⟩
  | none =>
      if begun (s.tail ++ [b]) then ⟨s.out, s.tail ++ [b]⟩
      else if s.tail.isEmpty then ⟨s.out ++ [replacement], []⟩
      else
        match whole [b] with
        | some c => ⟨s.out ++ [replacement, c], []⟩
        | none =>
            if begun [b] then ⟨s.out ++ [replacement], [b]⟩
            else ⟨s.out ++ [replacement, replacement], []⟩

def run (s : Scan) (bs : List UInt8) : Scan := bs.foldl push s

def text (s : Scan) : List Char := s.out ++ if s.tail = [] then [] else [replacement]

end Scan

def scan (bs : List UInt8) : Scan := Scan.run ⟨[], []⟩ bs

/-- `from_utf8_lossy`. -/
def lossy (bs : List UInt8) : List Char := (scan bs).text

/-! Sizes in bytes. -/

def size (cs : List Char) : Nat := (encode cs).length

@[simp] theorem size_nil : size [] = 0 := rfl

@[simp] theorem size_cons (c : Char) (cs : List Char) : size (c :: cs) = c.utf8Size + size cs := by
  simp [size, encode]

@[simp] theorem size_append (cs ds : List Char) : size (cs ++ ds) = size cs + size ds := by
  simp [size, encode_append]

theorem utf8Size_replacement : replacement.utf8Size = 3 := by decide

theorem size_mono {cs ds : List Char} (h : cs <+: ds) : size cs ≤ size ds := by
  obtain ⟨es, rfl⟩ := h
  rw [size_append]
  omega

theorem eq_nil_of_size {cs : List Char} (h : size cs = 0) : cs = [] := by
  cases cs with
  | nil => rfl
  | cons c cs =>
      have hpos := c.utf8Size_pos
      rw [size_cons] at h
      omega

theorem eq_of_prefix_of_size {cs ds es : List Char} (hcs : cs <+: es) (hds : ds <+: es)
    (h : size cs = size ds) : cs = ds := by
  rcases List.prefix_or_prefix_of_prefix hcs hds with ⟨t, rfl⟩ | ⟨t, rfl⟩
  · rw [size_append] at h
    rw [eq_nil_of_size (show size t = 0 by omega), List.append_nil]
  · rw [size_append] at h
    rw [eq_nil_of_size (show size t = 0 by omega), List.append_nil]

theorem size_of_prefix_three {cs rest : List Char} {x : Char} (h : cs <+: x :: rest)
    (hsize : size cs = 3) (hx : 2 ≤ x.utf8Size) :
    x.utf8Size = 3 ∨ x.utf8Size = 2 ∧ ∀ d ∈ rest.head?, d.utf8Size = 1 := by
  rcases List.prefix_cons_iff.mp h with rfl | ⟨t, rfl, ht⟩
  · cases hsize
  · rw [size_cons] at hsize
    cases t with
    | nil => exact .inl hsize
    | cons d t =>
        have hd := d.utf8Size_pos
        obtain ⟨more, rfl⟩ := ht
        rw [size_cons] at hsize
        refine .inr ⟨by omega, ?_⟩
        simp only [List.cons_append, List.head?_cons, Option.mem_some_iff, forall_eq']
        omega

/-! What later bytes change. -/

namespace Scan

private theorem push_cases (s : Scan) (b : UInt8) :
    s.push b = ⟨s.out, s.tail ++ [b]⟩ ∨
      ∃ x rest t, s.push b = ⟨s.out ++ x :: rest, t⟩ ∧ (s.tail ≠ [] → 2 ≤ x.utf8Size) := by
  have hrep := utf8Size_replacement
  unfold push
  split
  · rename_i c hwhole
    right
    refine ⟨c, [], [], rfl, fun htail => ?_⟩
    have hsize := (Option.filter_eq_some_iff.mp hwhole).2
    have hlen : 0 < s.tail.length := List.length_pos_iff.mpr htail
    rw [beq_iff_eq, List.length_append] at hsize
    simp only [List.length_singleton] at hsize
    omega
  · split
    · exact .inl rfl
    · right
      split
      · exact ⟨replacement, [], [], rfl, by omega⟩
      · split
        · exact ⟨replacement, _, _, rfl, by omega⟩
        · split
          · exact ⟨replacement, _, _, rfl, by omega⟩
          · exact ⟨replacement, _, _, rfl, by omega⟩

theorem run_cases (s : Scan) (bs : List UInt8) :
    (s.run bs).out = s.out ∧ (s.tail ≠ [] → (s.run bs).tail ≠ []) ∨
      ∃ x rest, (s.run bs).out = s.out ++ x :: rest ∧ (s.tail ≠ [] → 2 ≤ x.utf8Size) := by
  induction bs generalizing s with
  | nil => exact .inl ⟨rfl, id⟩
  | cons b bs ih =>
      change (((s.push b).run bs).out = s.out ∧ (s.tail ≠ [] → ((s.push b).run bs).tail ≠ [])) ∨
        ∃ x rest, ((s.push b).run bs).out = s.out ++ x :: rest ∧ (s.tail ≠ [] → 2 ≤ x.utf8Size)
      rcases push_cases s b with hpush | ⟨x, rest, t, hpush, hx⟩
      · have hbegun : s.tail ++ [b] ≠ [] := by simp
        rw [hpush]
        rcases ih ⟨s.out, s.tail ++ [b]⟩ with ⟨hout, htail⟩ | ⟨x, rest, hout, hx⟩
        · exact .inl ⟨hout, fun _ => htail hbegun⟩
        · exact .inr ⟨x, rest, hout, fun _ => hx hbegun⟩
      · right
        rw [hpush]
        rcases ih ⟨s.out ++ x :: rest, t⟩ with ⟨hout, -⟩ | ⟨y, more, hout, -⟩
        · exact ⟨x, rest, hout, hx⟩
        · refine ⟨x, rest ++ y :: more, ?_, hx⟩
          rw [hout, List.append_assoc, List.cons_append]

theorem out_prefix_run (s : Scan) (bs : List UInt8) : s.out <+: (s.run bs).out := by
  rcases run_cases s bs with ⟨hout, -⟩ | ⟨x, rest, hout, -⟩
  · exact ⟨[], by rw [List.append_nil, hout]⟩
  · exact ⟨x :: rest, hout.symm⟩

theorem out_prefix_text (s : Scan) : s.out <+: s.text := ⟨_, rfl⟩

theorem text_of_tail_nil {s : Scan} (h : s.tail = []) : s.text = s.out := by
  simp [text, h]

theorem text_of_tail {s : Scan} (h : s.tail ≠ []) : s.text = s.out ++ [replacement] := by
  simp [text, h]

end Scan

theorem scan_append (bs cs : List UInt8) : scan (bs ++ cs) = (scan bs).run cs :=
  List.foldl_append

/-! Slices at character boundaries. -/

theorem encode_inj {cs ds : List Char} (h : encode cs = encode ds) : cs = ds := by
  have hcs := fromUTF8?_encode cs
  rw [h, fromUTF8?_encode ds] at hcs
  exact (String.ofList_injective (Option.some.inj hcs)).symm

private theorem isFirst_head_encode {cs : List Char} {b : UInt8} {bs : List UInt8}
    (h : encode cs = b :: bs) : b.IsUTF8FirstByte := by
  cases cs with
  | nil => cases h
  | cons c cs =>
      have hpos : 0 < (String.utf8EncodeChar c).length := by
        rw [String.length_utf8EncodeChar]
        exact c.utf8Size_pos
      have hhead := congrArg (fun l => l[0]?) h
      change (String.utf8EncodeChar c ++ encode cs)[0]? = some b at hhead
      rw [List.getElem?_append_left hpos, List.getElem?_eq_getElem hpos] at hhead
      rw [← Option.some.inj hhead]
      exact UInt8.isUTF8FirstByte_getElem_utf8EncodeChar.mpr rfl

theorem exists_split_of_drop {cs ds : List Char} {n : Nat} (h : (encode cs).drop n = encode ds)
    (hn : n ≤ size cs) : ∃ pre, cs = pre ++ ds ∧ size pre = n := by
  induction cs generalizing n with
  | nil =>
      rw [size_nil] at hn
      obtain rfl : n = 0 := by omega
      exact ⟨[], encode_inj h, rfl⟩
  | cons c cs ih =>
      have hlen : (String.utf8EncodeChar c).length = c.utf8Size := String.length_utf8EncodeChar c
      change (String.utf8EncodeChar c ++ encode cs).drop n = encode ds at h
      rw [size_cons] at hn
      by_cases hzero : n = 0
      · subst hzero
        exact ⟨[], encode_inj h, rfl⟩
      · by_cases hpast : c.utf8Size ≤ n
        · rw [List.drop_append, List.drop_eq_nil_of_le (by omega), List.nil_append, hlen] at h
          obtain ⟨pre, hsplit, hsize⟩ := ih h (by omega)
          refine ⟨c :: pre, by rw [hsplit, List.cons_append], ?_⟩
          rw [size_cons]
          omega
        · have hin : n < (String.utf8EncodeChar c).length := by omega
          rw [List.drop_append, List.drop_eq_getElem_cons hin, List.cons_append] at h
          have hfirst := isFirst_head_encode h.symm
          exact absurd (UInt8.isUTF8FirstByte_getElem_utf8EncodeChar.mp hfirst) hzero

/-! Texts that are read as they are. -/

end IntelNav.Text
