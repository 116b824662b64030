import IntelNav.ModelStore.GgufOpen

/-! The reader of the release build against the exact grammar: the products that wrap around. -/

set_option autoImplicit false
set_option relaxedAutoImplicit false

namespace IntelNav.ModelStore

open IntelNav.Reading

variable {ar ar' : Arith}

namespace Value

/-- An array of scalars that declares more bytes than a word can count. -/
def Overflows : Value ar → Prop
  | .scalars _ size n .. => 2 ^ 64 ≤ size * n
  | _ => False

/-- The length of the payload is right by the other arithmetic as well. -/
def Fits (ar' : Arith) : Value ar → Prop
  | .scalars _ size n payload .. => ar'.mul size n = some payload.length
  | _ => True

def recast : (v : Value ar) → v.Fits ar' → Value ar'
  | .scalar ty payload hs, _ => .scalar ty payload hs
  | .string text, _ => .string text
  | .scalars ty size n payload hs hn _, h => .scalars ty size n payload hs hn h
  | .strings texts hn, _ => .strings texts hn

@[simp] theorem recast_ty (v : Value ar) (h : v.Fits ar') : (v.recast h).ty = v.ty := by
  cases v <;> rfl

@[simp] theorem recast_word (v : Value ar) (h : v.Fits ar') : (v.recast h).word = v.word := by
  cases v <;> rfl

private theorem recast_overflows (v : Value ar) (h : v.Fits ar') :
    (v.recast h).Overflows ↔ v.Overflows := by
  cases v <;> rfl

private theorem fits_exact_iff {v : Value (.wrapping 64)} : v.Fits .exact ↔ ¬ v.Overflows := by
  cases v with
  | scalars ty size n payload hs hn hlen =>
      obtain hmod : size * n % 2 ^ 64 = payload.length := Option.some.inj hlen
      have hlt := Nat.mod_lt (size * n) (Nat.two_pow_pos 64)
      change some (size * n) = some payload.length ↔ ¬ 2 ^ 64 ≤ size * n
      rw [Option.some.injEq]
      constructor
      · intro heq
        omega
      · intro hsmall
        rw [← hmod, Nat.mod_eq_of_lt (by omega)]
  | _ => exact ⟨fun _ h => h, fun _ => trivial⟩

private theorem not_overflows_of_short {v : Value .exact} (h : v.word.length < 2 ^ 63) :
    ¬ v.Overflows := by
  cases v with
  | scalars ty size n payload hs hn hlen =>
      have hsize : size * n = payload.length := Option.some.inj hlen
      simp only [word, List.length_append, length_leBytes] at h
      change ¬ 2 ^ 64 ≤ size * n
      omega
  | _ => exact id

private theorem fits_wrapping {v : Value .exact} (h : ¬ v.Overflows) : v.Fits (.wrapping 64) := by
  cases v with
  | scalars ty size n payload hs hn hlen =>
      have hsize : size * n = payload.length := Option.some.inj hlen
      have hlt : size * n < 2 ^ 64 := Nat.not_le.mp h
      change some (size * n % 2 ^ 64) = some payload.length
      rw [Nat.mod_eq_of_lt hlt, hsize]
  | _ => trivial

end Value

def Entry.recast (e : Entry ar) (h : e.value.Fits ar') : Entry ar' where
  key := e.key
  value := e.value.recast h

private theorem Entry.recast_word (e : Entry ar) (h : e.value.Fits ar') :
    (e.recast h).word = e.word := by
  simp [Entry.word, Entry.recast]

private theorem Entry.recast_alignment (e : Entry ar) (h : e.value.Fits ar') (al : Nat) :
    (e.recast h).alignment al = e.alignment al := by
  simp [Entry.alignment, Entry.recast]

namespace Header

/-- Some array of the header declares more bytes than a word can count. -/
def Overflows (hd : Header ar) : Prop := ∃ e ∈ hd.entries, e.value.Overflows

def Fits (ar' : Arith) (hd : Header ar) : Prop := ∀ e ∈ hd.entries, e.value.Fits ar'

def recast (hd : Header ar) (h : hd.Fits ar') : Header ar' where
  entries := hd.entries.pmap Entry.recast fun e he => h e he
  tensors := hd.tensors
  entries_le := by
    rw [List.length_pmap]
    exact hd.entries_le
  tensors_le := hd.tensors_le

private theorem recast_word (hd : Header ar) (h : hd.Fits ar') : (hd.recast h).word = hd.word := by
  have hkv : ∀ (es : List (Entry ar)) (h : ∀ e ∈ es, e.value.Fits ar'),
      (es.pmap Entry.recast h).flatMap Entry.word = es.flatMap Entry.word := by
    intro es h
    induction es with
    | nil => rfl
    | cons e es ih => rw [List.pmap, List.flatMap_cons, List.flatMap_cons, e.recast_word, ih]
  simp only [word, counts, kv, index, recast, List.length_pmap, hkv]

private theorem recast_alignment (hd : Header ar) (h : hd.Fits ar') :
    (hd.recast h).alignment = hd.alignment := by
  have hfold : ∀ (es : List (Entry ar)) (h : ∀ e ∈ es, e.value.Fits ar') al,
      (es.pmap Entry.recast h).foldl Entry.alignment al = es.foldl Entry.alignment al := by
    intro es h al
    induction es generalizing al with
    | nil => rfl
    | cons e es ih => rw [List.pmap, List.foldl_cons, List.foldl_cons, e.recast_alignment, ih]
  exact hfold hd.entries h _

private theorem recast_gguf (hd : Header ar) (h : hd.Fits ar') (m : Mmap) :
    (hd.recast h).gguf m = hd.gguf m := by
  have hword := hd.recast_word h
  have hcounts : (hd.recast h).counts = hd.counts := by simp [counts, recast]
  have hkv : (hd.recast h).kv = hd.kv := by
    simp only [word, hcounts, List.append_assoc, List.append_cancel_left_eq] at hword
    exact List.append_cancel_right hword
  simp only [gguf, kvEnd, hword, hcounts, hkv, hd.recast_alignment h]
  simp [recast]

private theorem recast_overflows (hd : Header ar) (h : hd.Fits ar') :
    (hd.recast h).Overflows ↔ hd.Overflows := by
  constructor
  · rintro ⟨_, he, ho⟩
    obtain ⟨e, hmem, rfl⟩ := List.mem_pmap.mp he
    exact ⟨e, hmem, (e.value.recast_overflows _).mp ho⟩
  · rintro ⟨e, hmem, ho⟩
    exact ⟨e.recast (h e hmem), List.mem_pmap.mpr ⟨e, hmem, rfl⟩,
      (e.value.recast_overflows _).mpr ho⟩

private theorem fits_exact_iff {hd : Header (.wrapping 64)} : hd.Fits .exact ↔ ¬ hd.Overflows := by
  simp only [Fits, Overflows, Value.fits_exact_iff, not_exists, not_and]

private theorem not_overflows {hd : Header .exact} {m : Mmap} (h : hd.word <+: m.bytes) :
    ¬ hd.Overflows := by
  rintro ⟨e, he, ho⟩
  exact Value.not_overflows_of_short
    ((length_value_le he).trans_lt (h.length_le.trans_lt m.length_lt)) ho

private theorem fits_wrapping {hd : Header .exact} {m : Mmap} (h : hd.word <+: m.bytes) :
    hd.Fits (.wrapping 64) :=
  fun e he => Value.fits_wrapping fun ho => not_overflows h ⟨e, he, ho⟩

end Header

/-- The release build accepts the file just if it begins with a header, which is then the only one,
and tells the offsets of that header. -/
def ReadsGrammar (m : Mmap) : Prop :=
  ((∃ g, Gguf.open (.wrapping 64) m = .ok g) ↔ ∃ hd : Header .exact, hd.word <+: m.bytes) ∧
  (∀ hd hd' : Header .exact, hd.word <+: m.bytes → hd'.word <+: m.bytes → hd = hd') ∧
  ∀ (g : Gguf) (hd : Header .exact), Gguf.open (.wrapping 64) m = .ok g → hd.word <+: m.bytes →
    g = hd.gguf m

/-- Each header is accepted, whatever follows it. -/
private theorem open_exact {m : Mmap} {hd : Header .exact} (h : hd.word <+: m.bytes) :
    Gguf.open (.wrapping 64) m = .ok (hd.gguf m) :=
  (open_iff (Arith.words_wrapping 64)).mpr ⟨hd.recast (Header.fits_wrapping h), by
    rwa [Header.recast_word], (Header.recast_gguf _ _ m).symm⟩

private theorem not_readsGrammar {m : Mmap} {hd : Header (.wrapping 64)} (h : hd.word <+: m.bytes)
    (ho : hd.Overflows) : ¬ ReadsGrammar m := by
  intro hreads
  obtain ⟨hd', h'⟩ := hreads.1.mp ⟨_, (open_iff (Arith.words_wrapping 64)).mpr ⟨hd, h, rfl⟩⟩
  have hword : (hd'.recast (Header.fits_wrapping h')).word <+: m.bytes := by
    rwa [Header.recast_word]
  rw [Header.unique h hword, Header.recast_overflows] at ho
  exact Header.not_overflows h' ho

/-- The grammar is what the release build reads, but for the arrays whose size wraps around. -/
theorem open_reads_grammar_iff (m : Mmap) :
    ReadsGrammar m ↔ ∀ hd : Header (.wrapping 64), hd.word <+: m.bytes → ¬ hd.Overflows := by
  constructor
  · intro hreads hd h ho
    exact not_readsGrammar h ho hreads
  · intro hcalm
    refine ⟨⟨?_, fun ⟨hd, h⟩ => ⟨_, open_exact h⟩⟩, fun _ _ => Header.unique, ?_⟩
    · rintro ⟨g, hg⟩
      obtain ⟨hd, h, rfl⟩ := (open_iff (Arith.words_wrapping 64)).mp hg
      refine ⟨hd.recast (Header.fits_exact_iff.mpr (hcalm hd h)), ?_⟩
      rwa [Header.recast_word]
    · intro g hd hg h
      rw [open_exact h] at hg
      exact (Except.ok.inj hg).symm

/-- One array of `2 ^ 63` numbers of two bytes each, with no payload at all. -/
def hugeArray : Header (.wrapping 64) where
  entries :=
    [{ key := ⟨"a", by decide⟩
       value := .scalars .u16 2 (2 ^ 63) [] rfl (by decide) (by decide) }]
  tensors := []
  entries_le := by decide
  tensors_le := by decide

theorem huge_array_accepted : ¬ ReadsGrammar ⟨hugeArray.word, by decide +kernel⟩ :=
  not_readsGrammar List.prefix_rfl
    ⟨_, List.mem_singleton.mpr rfl, show 2 ^ 64 ≤ 2 * 2 ^ 63 by decide⟩

end IntelNav.ModelStore
